import Keala.Pooling.Context

/-!
A context that is reset reads like one that was just built: what the sweep,
the defaults and the two writes of the new request leave under each key.
-/

namespace Keala.Pooling

open Js Objects

/-! ### The internal slots -/

section Slots

variable {Ref : Type}

theorem mem_internalSlots_of_default {key : PropertyKey} {value : Slot Ref}
    (h : (key, value) ∈ contextDefaults Ref) : key ∈ internalSlots := by
  have hkey : key ∈ (contextDefaults Ref).map Prod.fst := List.mem_map_of_mem h
  exact List.mem_append_left _ hkey

theorem nodup_contextDefaults : (OrderedMap.keys (contextDefaults Ref)).Nodup := by
  have hkeys : contextSlotKeys.Nodup := by decide +kernel
  exact hkeys

/-- The sweep of the keys that are still to come. -/
theorem get?_sweepKeys (keys : List PropertyKey) (c : ContextOwn Ref) (key : PropertyKey) :
    (keys.foldl (fun c key => if key ∈ internalSlots then c else c.delete key) c).get? key =
      if key ∈ keys ∧ key ∉ internalSlots then none else c.get? key := by
  induction keys generalizing c with
  | nil => simp
  | cons other keys ih =>
    rw [List.foldl_cons, ih]
    by_cases hkeys : key ∈ keys ∧ key ∉ internalSlots
    · rw [if_pos hkeys, if_pos ⟨List.mem_cons_of_mem _ hkeys.1, hkeys.2⟩]
    · rw [if_neg hkeys]
      by_cases hother : other = key
      · subst hother
        by_cases hslot : other ∈ internalSlots
        · simp [hslot]
        · simp [hslot, Own.get?_delete]
      · have hcons : (key ∈ other :: keys ∧ key ∉ internalSlots) ↔
            key ∈ keys ∧ key ∉ internalSlots := by
          simp [Ne.symm hother]
        rw [if_neg (hcons.not.mpr hkeys)]
        split_ifs
        · rfl
        · rw [Own.get?_delete, if_neg hother]

theorem get?_sweep (own : ContextOwn Ref) (key : PropertyKey) :
    (sweepForeignKeys own).get? key = if key ∈ internalSlots then own.get? key else none := by
  rw [sweepForeignKeys, get?_sweepKeys]
  by_cases hslot : key ∈ internalSlots
  · simp [hslot]
  · by_cases hkey : key ∈ own.keys
    · simp [hslot, hkey]
    · simp [hslot, (own.get?_eq_none_iff key).mpr hkey]

end Slots

variable {Ref : Type} [DecidableEq Ref] {env : Ref → JsString}
  {answer : JsString → List (Slot Ref) → Option (Slot Ref)} {app : ContextApp Ref}
  {proto : ContextProto Ref}

/-! ### The chain under the internal slots -/

/-- The decorations have left the internal slots as the application set them. -/
def Undecorated (env : Ref → JsString) (app : ContextApp Ref) (proto : ContextProto Ref) : Prop :=
  ∀ key ∈ internalSlots,
    OrderedMap.get? proto key = OrderedMap.get? (contextProto env app) key

def devFlags (env : Ref → JsString) (app : ContextApp Ref) : ℕ :=
  if env app.value = js "development" then flagDevChain else 0

theorem liveProto_appValue (h : Undecorated env app proto) :
    liveProto answer proto (.of "appValue") = some (.data (.object app.value)) := by
  rw [liveProto, h _ (by decide)]
  rfl

theorem liveProto_appSettings (h : Undecorated env app proto) :
    liveProto answer proto (.of "appSettings") = some (.data (.object app.settings)) := by
  rw [liveProto, h _ (by decide)]
  rfl

theorem liveProto_flags (h : Undecorated env app proto) :
    liveProto answer proto (.of "flags") = some (.data (.number (devFlags env app))) := by
  rw [liveProto, h _ (by decide)]
  rfl

theorem getterNames :
    (contextGetters answer).map Prod.fst =
      (@contextGetters Empty _ fun _ _ => none).map Prod.fst := rfl

theorem baseContextProto_rawRequest : baseContextProto answer (.of "rawRequest") = none := by
  have hgetters : (contextGetters answer).find? (fun getter => .of getter.1 =
      PropertyKey.of "rawRequest") = none := by
    apply List.find?_eq_none.mpr
    intro getter hmem
    have hname : getter.1 ∈ (@contextGetters Empty _ fun _ _ => none).map Prod.fst :=
      @getterNames Ref _ answer ▸ List.mem_map_of_mem hmem
    have hnone : ∀ name ∈ (@contextGetters Empty _ fun _ _ => none).map Prod.fst,
        ¬PropertyKey.of name = .of "rawRequest" := by decide +kernel
    simpa using hnone _ hname
  have hmethods : (contextMethods ++ objectMethods).find?
      (fun name => PropertyKey.of name = .of "rawRequest") = none := by decide +kernel
  rw [baseContextProto, hgetters, hmethods]
  rfl

theorem liveProto_rawRequest (h : Undecorated env app proto) :
    liveProto answer proto (.of "rawRequest") = none := by
  rw [liveProto, h _ (by decide), baseContextProto_rawRequest]
  rfl

theorem liveProto_default (h : Undecorated env app proto) {key : PropertyKey} {value : Slot Ref}
    (hkey : (key, value) ∈ contextDefaults Ref) (hflags : key ≠ .of "flags") :
    liveProto answer proto key = some (.data value) := by
  have hget : OrderedMap.get? (contextDefaults Ref) key = some value :=
    (OrderedMap.get?_eq_some_iff nodup_contextDefaults key value).mpr hkey
  have happ : OrderedMap.get? (contextProto env app) key = none := by
    apply (OrderedMap.get?_eq_none_iff _ _).mpr
    intro hmem
    have hnames : key ∈ [PropertyKey.of "appValue", .of "appSettings", .of "flags"] := hmem
    have hslot : key ∈ (contextDefaults Ref).map Prod.fst := List.mem_map_of_mem hkey
    replace hslot : key ∈ contextSlotKeys := hslot
    rcases List.mem_cons.mp hnames with rfl | hnames
    · exact absurd hslot (by decide)
    rcases List.mem_cons.mp hnames with rfl | hnames
    · exact absurd hslot (by decide)
    · exact hflags (List.mem_singleton.mp hnames)
  rw [liveProto, h key (mem_internalSlots_of_default hkey), happ, Option.none_or,
    baseContextProto, hget]
  rfl

/-- No accessor stands under an internal slot. -/
theorem find_internal (h : Undecorated env app proto) {key : PropertyKey}
    (hkey : key ∈ internalSlots) (own : ContextOwn Ref) (getter : ContextProgram Ref)
    (setter : Slot Ref → ContextProgram Ref) :
    find (liveProto answer proto) own key ≠ some (.accessor getter setter) := by
  have hchain : liveProto answer proto key ≠ some (.accessor getter setter) := by
    by_cases hflags : key = .of "flags"
    · subst hflags
      rw [liveProto_flags h]
      simp
    · rcases List.mem_append.mp hkey with hslot | hidentity
      · obtain ⟨⟨_, value⟩, hdefault, rfl⟩ : ∃ slot ∈ contextDefaults Ref, slot.1 = key :=
          List.mem_map.mp hslot
        rw [liveProto_default h hdefault hflags]
        simp
      · rcases List.mem_cons.mp hidentity with rfl | hidentity
        · rw [liveProto_appValue h]
          simp
        rcases List.mem_cons.mp hidentity with rfl | hidentity
        · rw [liveProto_appSettings h]
          simp
        rcases List.mem_cons.mp hidentity with rfl | hidentity
        · rw [liveProto_rawRequest h]
          simp
        · obtain rfl := List.mem_singleton.mp hidentity
          rw [liveProto_default h (List.mem_cons_self) (by decide)]
          simp
  rw [find]
  cases own.get? key with
  | none => exact hchain
  | some value => simp

variable (answer) in
theorem assign_internal (h : Undecorated env app proto) {key : PropertyKey}
    (hkey : key ∈ internalSlots) (own : ContextOwn Ref) (value : Slot Ref) :
    assign (liveProto answer proto) own key value = some (own.set key value) := by
  rw [assign]
  split
  · next hfind => exact absurd hfind (find_internal h hkey own _ _)
  · rfl

/-! ### The defaults -/

variable (answer) in
/-- Assigning slots that are internal overwrites just them. -/
theorem assignSlots_spec (h : Undecorated env app proto) (slots : List (PropertyKey × Slot Ref))
    (own : ContextOwn Ref) (hslots : ∀ slot ∈ slots, slot.1 ∈ internalSlots)
    (hnodup : (OrderedMap.keys slots).Nodup) :
    ∃ assigned,
      slots.foldlM (fun c slot => assign (liveProto answer proto) c slot.1 slot.2) own =
        some assigned ∧
      ∀ key, assigned.get? key = (OrderedMap.get? slots key).or (own.get? key) := by
  induction slots generalizing own with
  | nil => exact ⟨own, rfl, fun key => rfl⟩
  | cons slot slots ih =>
    obtain ⟨hfresh, hnodup⟩ := List.nodup_cons.mp hnodup
    obtain ⟨assigned, hassigned, hget⟩ := ih (own.set slot.1 slot.2)
      (fun other hother => hslots other (List.mem_cons_of_mem _ hother)) hnodup
    refine ⟨assigned, ?_, fun key => ?_⟩
    · rw [List.foldlM_cons, assign_internal answer h (hslots slot List.mem_cons_self)]
      exact hassigned
    · rw [hget, Own.get?_set, OrderedMap.get?_cons]
      split_ifs with hkey
      · subst hkey
        rw [(OrderedMap.get?_eq_none_iff slots slot.1).mpr hfresh]
        rfl
      · rfl

variable (answer) in
theorem clearRequestSlots_spec (h : Undecorated env app proto) (own : ContextOwn Ref) :
    ∃ cleared, clearRequestSlots (liveProto answer proto) own = some cleared ∧
      ∀ key, cleared.get? key = if branchesKey = key then none else
        (OrderedMap.get? (contextDefaults Ref) key).or (own.get? key) := by
  obtain ⟨assigned, hassigned, hget⟩ := assignSlots_spec answer h
    (contextDefaults Ref) own (fun _ => mem_internalSlots_of_default) nodup_contextDefaults
  refine ⟨assigned.delete branchesKey, ?_, fun key => ?_⟩
  · rw [clearRequestSlots, hassigned]
    rfl
  · rw [Own.get?_delete, hget]

/-! ### A reset context -/

def withRequest (own : ContextOwn Ref) (raw runtime : Slot Ref) : ContextOwn Ref :=
  if runtime = .undefined then own.set (.of "rawRequest") raw
  else (own.set (.of "rawRequest") raw).set (.of "runtimeValue") runtime

theorem get?_withRequest (own : ContextOwn Ref) (raw runtime : Slot Ref) {key : PropertyKey}
    (hraw : .of "rawRequest" ≠ key) (hruntime : .of "runtimeValue" ≠ key) :
    (withRequest own raw runtime).get? key = own.get? key := by
  rw [withRequest]
  split_ifs
  · rw [Own.get?_set, if_neg hraw]
  · rw [Own.get?_set, if_neg hruntime, Own.get?_set, if_neg hraw]

theorem assign_request (h : Undecorated env app proto) (own : ContextOwn Ref)
    (raw runtime : Slot Ref) :
    (do
      let c ← assign (liveProto answer proto) own (.of "rawRequest") raw
      if runtime = .undefined then pure c
        else assign (liveProto answer proto) c (.of "runtimeValue") runtime) =
      some (withRequest own raw runtime) := by
  rw [assign_internal answer h (by decide), withRequest]
  split_ifs with hruntime
  · rfl
  · exact assign_internal answer h (by decide) _ runtime

theorem boundContext_spec (h : Undecorated env app proto) (raw runtime : Slot Ref) :
    boundContext (liveProto answer proto) raw runtime = some (withRequest .empty raw runtime) :=
  assign_request h .empty raw runtime

/-- What the sweep and the defaults leave under a key, with the flag of development. -/
def clearedValue (env : Ref → JsString) (app : ContextApp Ref) (own : ContextOwn Ref)
    (key : PropertyKey) : Option (Slot Ref) :=
  if .of "flags" = key then some (.number (devFlags env app))
  else (OrderedMap.get? (contextDefaults Ref) key).or
    (if key ∈ internalSlots then own.get? key else none)

variable (answer) in
theorem raiseDevFlag_spec (h : Undecorated env app proto) {own : ContextOwn Ref} {flags : ℕ}
    (hflags : own.get? (.of "flags") = some (.number flags)) :
    raiseDevFlag (liveProto answer proto) own =
      some (own.set (.of "flags") (.number (flags ||| flagDevChain))) := by
  have hread : read (liveProto answer proto) own (.of "flags") = some (.number flags) := by
    rw [read, find, hflags]
    rfl
  rw [raiseDevFlag, hread]
  exact assign_internal answer h (by decide) _ _

variable (answer) in
theorem resetContext_spec (h : Undecorated env app proto) {own : ContextOwn Ref}
    (hvalue : own.get? (.of "appValue") = none) (raw runtime : Slot Ref) :
    ∃ cleared, resetContext env (liveProto answer proto) own raw runtime =
        some (withRequest cleared raw runtime) ∧
      ∀ key, cleared.get? key = clearedValue env app own key := by
  obtain ⟨cleared, hcleared, hget⟩ := clearRequestSlots_spec answer h
    (sweepForeignKeys own)
  have hswept : ∀ key, cleared.get? key = (OrderedMap.get? (contextDefaults Ref) key).or
      (if key ∈ internalSlots then own.get? key else none) := by
    intro key
    rw [hget, get?_sweep]
    split_ifs with hbranches hinternal
    · exact absurd (hbranches ▸ hinternal) (by decide)
    · rw [← hbranches]
      rfl
    · rfl
    · rfl
  have hread : read (liveProto answer proto) cleared (.of "appValue") =
      some (.object app.value) := by
    have hown : cleared.get? (.of "appValue") = none := by
      rw [hswept, hvalue]
      rfl
    rw [read, find, hown, Option.map_none, Option.none_or, liveProto_appValue h]
  have hzero : cleared.get? (.of "flags") = some (.number 0) := hswept _
  rw [resetContext, hcleared]
  by_cases hdevelopment : env app.value = js "development"
  · refine ⟨cleared.set (.of "flags") (.number flagDevChain), ?_, fun key => ?_⟩
    · have hflag := raiseDevFlag_spec answer h hzero
      rw [Nat.zero_or] at hflag
      simp only [Option.bind_eq_bind, Option.bind_some, hread, inDevelopment, hdevelopment,
        decide_true, if_true, hflag]
      exact assign_request h _ raw runtime
    · rw [Own.get?_set, clearedValue, devFlags, if_pos hdevelopment, hswept]
  · refine ⟨cleared, ?_, fun key => ?_⟩
    · simp only [Option.bind_eq_bind, Option.bind_some, hread, inDevelopment, hdevelopment,
        decide_false, Bool.false_eq_true, if_false, Option.pure_def]
      exact assign_request h _ raw runtime
    · rw [clearedValue, devFlags, if_neg hdevelopment]
      by_cases hkey : PropertyKey.of "flags" = key
      · rw [if_pos hkey, ← hkey]
        exact hzero
      · rw [if_neg hkey]
        exact hswept key

/-- Each key of a context that was cleared stands for what the prototype gives, the old
request apart. -/
theorem find_cleared (h : Undecorated env app proto) {own cleared : ContextOwn Ref}
    (hvalue : own.get? (.of "appValue") = none) (hsettings : own.get? (.of "appSettings") = none)
    (hget : ∀ key, cleared.get? key = clearedValue env app own key) {key : PropertyKey}
    (hraw : PropertyKey.of "rawRequest" ≠ key) :
    find (liveProto answer proto) cleared key = liveProto answer proto key := by
  rw [find, hget, clearedValue]
  split_ifs with hflags hinternal
  · rw [← hflags, liveProto_flags h]
    rfl
  · cases hdefault : OrderedMap.get? (contextDefaults Ref) key with
    | some value =>
      rw [liveProto_default h (OrderedMap.mem_of_get? hdefault) (Ne.symm hflags)]
      rfl
    | none =>
      have hslot : key ∉ contextSlotKeys :=
        (OrderedMap.get?_eq_none_iff (contextDefaults Ref) key).mp hdefault
      have hnone : own.get? key = none := by
        rcases List.mem_append.mp hinternal with hmem | hidentity
        · exact absurd hmem hslot
        rcases List.mem_cons.mp hidentity with rfl | hidentity
        · exact hvalue
        rcases List.mem_cons.mp hidentity with rfl | hidentity
        · exact hsettings
        rcases List.mem_cons.mp hidentity with rfl | hidentity
        · exact absurd rfl hraw
        · obtain rfl := List.mem_singleton.mp hidentity
          exact absurd (by decide) hslot
      rw [hnone]
      rfl
  · cases hdefault : OrderedMap.get? (contextDefaults Ref) key with
    | some value =>
      exact absurd (mem_internalSlots_of_default (OrderedMap.mem_of_get? hdefault)) hinternal
    | none => rfl

variable (answer) in
/-- A context that is reset stands for what a new one does, under every key. -/
theorem resetContext_alike (h : Undecorated env app proto) {own : ContextOwn Ref}
    (hvalue : own.get? (.of "appValue") = none) (hsettings : own.get? (.of "appSettings") = none)
    (raw runtime : Slot Ref) :
    ∃ recycled fresh,
      resetContext env (liveProto answer proto) own raw runtime = some recycled ∧
      boundContext (liveProto answer proto) raw runtime = some fresh ∧
      Alike (liveProto answer proto) recycled fresh := by
  obtain ⟨cleared, hreset, hget⟩ := resetContext_spec answer h hvalue raw runtime
  refine ⟨_, _, hreset, boundContext_spec h raw runtime, ?_⟩
  have hraw : Alike (liveProto answer proto) (cleared.set (.of "rawRequest") raw)
      (Own.empty.set (.of "rawRequest") raw) := by
    intro key
    rw [find_set, find_set]
    split_ifs with hkey
    · rfl
    · exact find_cleared h hvalue hsettings hget hkey
  rw [withRequest, withRequest]
  split_ifs
  · exact hraw
  · exact hraw.set _ runtime

/-! ### A new context -/

variable (answer) in
theorem read_inherited (own : ContextOwn Ref) {key : PropertyKey} (hown : own.get? key = none)
    {value : Slot Ref} (hchain : liveProto answer proto key = some (.data value)) :
    read (liveProto answer proto) own key = some value := by
  rw [read, find, hown, Option.map_none, Option.none_or, hchain]

theorem flagged_spec (h : Undecorated env app proto) {own : ContextOwn Ref}
    (hown : own.get? (.of "flags") = none) :
    (if env app.value = js "development" then raiseDevFlag (liveProto answer proto) own
      else some own) =
      some (if env app.value = js "development" then own.set (.of "flags") (.number flagDevChain)
        else own) := by
  split_ifs with hdevelopment
  · have hflags : read (liveProto answer proto) own (.of "flags") =
        some (.number flagDevChain) := by
      apply read_inherited answer own hown
      rw [liveProto_flags h, devFlags, if_pos hdevelopment]
    rw [raiseDevFlag, hflags]
    exact assign_internal answer h (by decide) _ _
  · rfl

theorem createContext_spec (h : Undecorated env app proto) (raw runtime : Slot Ref) :
    createContext env (liveProto answer proto) app raw runtime =
      some (if env app.value = js "development" then
        (withRequest .empty raw runtime).set (.of "flags") (.number flagDevChain)
      else withRequest .empty raw runtime) := by
  have hvalue := read_inherited answer .empty rfl (liveProto_appValue h)
  have hsettings := read_inherited answer (Own.empty.set (.of "rawRequest") raw) rfl
    (liveProto_appSettings h)
  have hraw := assign_internal answer h
    (show PropertyKey.of "rawRequest" ∈ internalSlots by decide) .empty raw
  have hruntime := assign_internal answer h
    (show PropertyKey.of "runtimeValue" ∈ internalSlots by decide)
    (Own.empty.set (.of "rawRequest") raw) runtime
  simp only [createContext, Option.bind_eq_bind, Option.bind_some, Option.pure_def, hvalue,
    hsettings, hraw, hruntime, if_true]
  rw [withRequest]
  split
  · exact flagged_spec h rfl
  · exact flagged_spec h rfl

end Keala.Pooling
