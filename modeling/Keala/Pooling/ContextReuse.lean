import Keala.Pooling.ContextPool
import Keala.Pooling.ContextReset

/-!
No request sees the one before it: in every run of an application a context
that comes from the pool cannot be told from a new one.
-/

namespace Keala.Pooling

open Js Objects

section Decorations

variable {Ref : Type} {env : Ref → JsString}
  {answer : JsString → List (Slot Ref) → Option (Slot Ref)} {app : ContextApp Ref}
  {proto : ContextProto Ref}

/-! ### Decorations -/

theorem Undecorated.set (h : Undecorated env app proto) {key : PropertyKey}
    (hkey : key ∉ internalSlots) (property : ContextProperty Ref) :
    Undecorated env app (OrderedMap.set proto key property) := by
  intro slot hslot
  rw [OrderedMap.get?_set_ne, h slot hslot]
  rintro rfl
  exact hkey hslot

variable [DecidableEq Ref]

theorem rawRequest_mem_probed (h : Undecorated env app proto) :
    .of "rawRequest" ∈ ((createContext env (liveProto answer proto) app .null .undefined).elim []
      Own.keys) := by
  rw [createContext_spec h, Option.elim_some]
  apply not_not.mp
  rw [← Own.get?_eq_none_iff]
  have hraw : (withRequest (.empty : ContextOwn Ref) .null .undefined).get? (.of "rawRequest") =
      some .null := rfl
  split_ifs
  · rw [Own.get?_set, if_neg (by decide), hraw]
    simp
  · rw [hraw]
    simp

/-- No decoration is let under an internal slot. -/
theorem guardKey_foreign (h : Undecorated env app proto) {api : JsString} {key : PropertyKey}
    (hguard : guardKey env answer app proto api key = .ok ()) : key ∉ internalSlots := by
  intro hinternal
  have htaken : key ∈ ((createContext env (liveProto answer proto) app .null .undefined).elim []
      Own.keys) ∨ (baseContextProto answer key).isSome ∨ (OrderedMap.get? proto key).isSome := by
    rcases List.mem_append.mp hinternal with hslot | hidentity
    · obtain ⟨⟨_, value⟩, hdefault, rfl⟩ : ∃ slot ∈ contextDefaults Ref, slot.1 = key :=
        List.mem_map.mp hslot
      have hget := (OrderedMap.get?_eq_some_iff nodup_contextDefaults _ value).mpr hdefault
      refine .inr (.inl ?_)
      rw [baseContextProto, hget]
      rfl
    rcases List.mem_cons.mp hidentity with rfl | hidentity
    · refine .inr (.inr ?_)
      rw [h _ hinternal]
      rfl
    rcases List.mem_cons.mp hidentity with rfl | hidentity
    · refine .inr (.inr ?_)
      rw [h _ hinternal]
      rfl
    rcases List.mem_cons.mp hidentity with rfl | hidentity
    · exact .inl (rawRequest_mem_probed h)
    · obtain rfl := List.mem_singleton.mp hidentity
      exact .inr (.inl rfl)
  cases key with
  | symbol id => cases hguard
  | name text =>
    cases text with
    | nil => cases hguard
    | cons c text =>
      simp only [guardKey, pure_bind, if_pos htaken] at hguard
      cases hguard

end Decorations

section Spares

variable {Ref : Type} {answer : JsString → List (Slot Ref) → Option (Slot Ref)}

/-! ### What no member writes -/

/-- The slots that no request may write: through them a context knows its application. -/
def appSlots : List PropertyKey := [.of "appValue", .of "appSettings"]

abbrev LeavesApp (program : ContextProgram Ref) : Prop := program.Spares (· ∈ appSlots)

theorem leavesApp_answered (member : String) (values : List (Slot Ref)) :
    LeavesApp (answered answer member values) := by
  rw [answered]
  cases answer (js member) values <;> trivial

theorem leavesApp_reading (names : List String) (values : List (Slot Ref))
    {next : List (Slot Ref) → ContextProgram Ref} (h : ∀ values, LeavesApp (next values)) :
    LeavesApp (reading names values next) := by
  induction names generalizing values with
  | nil => exact h values
  | cons name names ih => exact fun value => ih _

theorem leavesApp_derived (member : String) (names : List String) :
    LeavesApp (derived answer member names).2 :=
  leavesApp_reading names [] (leavesApp_answered member)

theorem leavesApp_memo {slot : String} (hslot : .of slot ∉ appSlots) (unset : Slot Ref → Bool)
    (member : String) (names : List String) : LeavesApp (memo answer slot unset member names) := by
  intro value
  dsimp only
  split_ifs
  · apply leavesApp_reading
    intro values
    cases answer (js member) values with
    | none => trivial
    | some value => exact ⟨hslot, trivial⟩
  · trivial

theorem leavesApp_memoized {slot : String} (hslot : .of slot ∉ appSlots)
    (unset : Slot Ref → Bool) (member : String) (names : List String) :
    LeavesApp (memoized answer slot unset member names).2 :=
  leavesApp_memo hslot unset member names

def ProtoLeavesApp (proto : ContextProto Ref) : Prop :=
  ∀ key, ∀ property ∈ OrderedMap.get? proto key, property.Spares (· ∈ appSlots)

theorem ProtoLeavesApp.set {proto : ContextProto Ref} (h : ProtoLeavesApp proto)
    (key : PropertyKey) {property : ContextProperty Ref}
    (hproperty : property.Spares (· ∈ appSlots)) :
    ProtoLeavesApp (OrderedMap.set proto key property) := by
  intro other found hfound
  rw [OrderedMap.get?_set] at hfound
  split_ifs at hfound
  · cases hfound
    exact hproperty
  · exact h other found hfound

variable [DecidableEq Ref]

theorem leavesApp_signal : LeavesApp (signal answer) := by
  intro existing
  dsimp only
  split_ifs
  · exact leavesApp_answered "signal" [existing]
  · cases answer (js "AbortController") [] with
    | none => trivial
    | some controller =>
      exact ⟨by decide, leavesApp_reading _ _ (leavesApp_answered "signal")⟩

theorem leavesApp_ip : LeavesApp (ip answer) := by
  apply leavesApp_reading
  intro values
  split
  · trivial
  · exact leavesApp_memo (by decide) _ _ _
  · trivial

theorem leavesApp_status : LeavesApp (status answer) := by
  intro res
  dsimp only
  split_ifs
  · exact leavesApp_answered "status" [res]
  · exact fun value => trivial

theorem leavesApp_getters : ∀ getter ∈ contextGetters answer, LeavesApp getter.2 := by
  simp only [contextGetters, List.forall_mem_cons, List.not_mem_nil, false_imp_iff,
    implies_true, and_true]
  refine ⟨leavesApp_derived _ _, leavesApp_signal, leavesApp_derived _ _,
    leavesApp_memoized (by decide) _ _ _, leavesApp_memoized (by decide) _ _ _,
    leavesApp_memoized (by decide) _ _ _, leavesApp_derived _ _,
    leavesApp_memoized (by decide) _ _ _, leavesApp_derived _ _, leavesApp_derived _ _,
    leavesApp_memoized (by decide) _ _ _, leavesApp_derived _ _, leavesApp_derived _ _,
    leavesApp_ip, leavesApp_derived _ _, leavesApp_derived _ _, leavesApp_derived _ _,
    leavesApp_derived _ _, leavesApp_status, fun _ => trivial,
    leavesApp_memoized (by decide) _ _ _, leavesApp_memoized (by decide) _ _ _⟩

abbrev ChainLeavesApp (chain : ContextChain Ref) : Prop := ChainSpares (· ∈ appSlots) chain

theorem leavesApp_base : ChainLeavesApp (baseContextProto answer) := by
  intro key property hproperty
  rw [baseContextProto] at hproperty
  rcases Option.or_eq_some_iff.mp hproperty with hdata | ⟨-, hproperty⟩
  · obtain ⟨value, -, rfl⟩ := Option.map_eq_some_iff.mp hdata
    trivial
  rcases Option.or_eq_some_iff.mp hproperty with haccessor | ⟨-, hmethod⟩
  · obtain ⟨getter, hgetter, rfl⟩ := Option.map_eq_some_iff.mp haccessor
    exact ⟨leavesApp_getters getter (List.mem_of_find?_eq_some hgetter), fun _ => trivial⟩
  · obtain ⟨name, -, rfl⟩ := Option.map_eq_some_iff.mp hmethod
    trivial

theorem leavesApp_live {proto : ContextProto Ref} (h : ProtoLeavesApp proto) :
    ChainLeavesApp (liveProto answer proto) := by
  intro key property hproperty
  rcases Option.or_eq_some_iff.mp hproperty with hown | ⟨-, hbase⟩
  · exact h key property hown
  · exact leavesApp_base key property hbase

theorem leavesApp_getterOnChain {proto : ContextProto Ref} (h : ProtoLeavesApp proto)
    {key : PropertyKey} {getter : ContextProgram Ref}
    (hgetter : getterOnChain answer proto key = some getter) : LeavesApp getter := by
  rw [getterOnChain] at hgetter
  split at hgetter
  · next hown =>
    cases hgetter
    exact (h key _ hown).1
  · next hbase _ =>
    cases hgetter
    exact (leavesApp_base key _ hbase).1
  · cases hgetter

theorem leavesApp_dead {proto : ContextProto Ref} (h : ProtoLeavesApp proto) :
    ChainLeavesApp (deadProtoFor answer proto) := by
  intro key property hproperty
  rw [deadProtoFor] at hproperty
  split_ifs at hproperty
  · cases hproperty
    refine ⟨?_, fun _ => trivial⟩
    cases hgetter : getterOnChain answer proto key with
    | none => trivial
    | some getter => exact leavesApp_getterOnChain h hgetter
  · cases hproperty
    trivial
  · cases hproperty

end Spares

/-! ### The invariant of a run -/

section Runs

variable {Ref : Type}

def ContextParent.LeavesApp : ContextParent Ref → Prop
  | .live => True
  | .dead guard => ChainLeavesApp guard
  | .other chain => ChainLeavesApp chain

structure PooledContext.Kept (c : PooledContext Ref) : Prop where
  value : c.own.get? (.of "appValue") = none
  settings : c.own.get? (.of "appSettings") = none
  parent : c.parent.LeavesApp

structure ContextPool.Kept (pool : ContextPool Ref) : Prop where
  dead : ChainLeavesApp pool.deadProto
  contexts : ∀ c ∈ pool.contexts, c.Kept

structure PooledApp.Kept (env : Ref → JsString) (app : ContextApp Ref)
    (state : PooledApp Ref) : Prop where
  undecorated : Undecorated env app state.proto
  proto : ProtoLeavesApp state.proto
  active : ∀ c ∈ state.active, c.Kept
  pool : ∀ pool ∈ state.pool, pool.Kept

/-- What a request may do: its programs, its getters and the prototypes it puts in place
leave the application slots alone. -/
def ContextEvent.Admissible : ContextEvent Ref → Prop
  | .decorateLazy _ getter => LeavesApp getter
  | .work _ _ program => LeavesApp program
  | .workLate _ _ program => LeavesApp program
  | .reparent _ chain => ChainLeavesApp chain
  | .reparentLate _ chain => ChainLeavesApp chain
  | _ => True

theorem PooledContext.Kept.reparent {c : PooledContext Ref} (h : c.Kept)
    {parent : ContextParent Ref} (hparent : parent.LeavesApp) :
    PooledContext.Kept { c with parent := parent } :=
  ⟨h.value, h.settings, hparent⟩

theorem kept_workAt {contexts worked : List (PooledContext Ref)} {index : ℕ}
    {work : PooledContext Ref → Option (PooledContext Ref)} (h : ∀ c ∈ contexts, c.Kept)
    (hwork : ∀ c d, c.Kept → work c = some d → d.Kept)
    (hat : workAt contexts index work = some worked) : ∀ c ∈ worked, c.Kept := by
  obtain ⟨c, hc, hat⟩ := Option.bind_eq_some_iff.mp hat
  obtain ⟨d, hd, hat⟩ := Option.bind_eq_some_iff.mp hat
  cases hat
  intro other hother
  rcases List.mem_or_eq_of_mem_set hother with hmem | rfl
  · exact h other hmem
  · exact hwork c other (h c (List.mem_of_getElem? hc)) hd

theorem ContextPool.Kept.release {pool : ContextPool Ref} (h : pool.Kept) {c : PooledContext Ref}
    (hc : c.Kept) : (pool.release c).Kept := by
  rw [ContextPool.release]
  split_ifs
  · exact h
  · exact ⟨h.dead, List.forall_mem_cons.mpr ⟨hc.reparent h.dead, h.contexts⟩⟩

theorem ContextPool.Kept.acquire {pool rest : ContextPool Ref} (h : pool.Kept)
    {c : PooledContext Ref} (hacquire : pool.acquire = some (c, rest)) :
    c.Kept ∧ c.parent = .live ∧ rest.Kept := by
  rw [ContextPool.acquire] at hacquire
  split at hacquire
  · cases hacquire
  · next top contexts hcontexts =>
    cases hacquire
    have hall := h.contexts
    rw [hcontexts] at hall
    obtain ⟨htop, hrest⟩ := List.forall_mem_cons.mp hall
    exact ⟨htop.reparent trivial, rfl, ⟨h.dead, hrest⟩⟩

theorem kept_start (env : Ref → JsString) (app : ContextApp Ref) :
    (PooledApp.start env app).Kept env app := by
  refine ⟨fun _ _ => rfl, ?_, fun _ hmem => absurd hmem List.not_mem_nil,
    fun _ hmem => absurd hmem (Option.not_mem_none _)⟩
  intro key property hproperty
  have hentry := OrderedMap.mem_of_get? hproperty
  have hdata : ∀ entry ∈ contextProto env app, entry.2.Spares (· ∈ appSlots) := by
    simp [contextProto, Property.Spares]
  exact hdata _ hentry

variable [DecidableEq Ref] {env : Ref → JsString}
  {answer : JsString → List (Slot Ref) → Option (Slot Ref)} {app : ContextApp Ref}

theorem PooledContext.Kept.work {c d : PooledContext Ref} (h : c.Kept) {proto : ContextProto Ref}
    (hproto : ProtoLeavesApp proto) {fuel : ℕ} {program : ContextProgram Ref}
    (hprogram : LeavesApp program) (hwork : c.work answer proto fuel program = some d) :
    d.Kept := by
  obtain ⟨⟨outcome, own⟩, hrun, rfl⟩ := Option.map_eq_some_iff.mp hwork
  have hchain : ChainLeavesApp (inherited answer proto c.parent) := by
    have hparent := h.parent
    cases hkind : c.parent with
    | live => exact leavesApp_live hproto
    | dead guard =>
      rw [hkind] at hparent
      intro key property hproperty
      rcases Option.or_eq_some_iff.mp hproperty with hguard | ⟨-, hlive⟩
      · exact hparent key property hguard
      · exact leavesApp_live hproto key property hlive
    | other chain =>
      rw [hkind] at hparent
      exact hparent
  refine ⟨?_, ?_, h.parent⟩
  · exact (run_spares hchain fuel hprogram hrun (by decide)).trans h.value
  · exact (run_spares hchain fuel hprogram hrun (by decide)).trans h.settings

theorem kept_withRequest {own : ContextOwn Ref} (raw runtime : Slot Ref)
    (hvalue : own.get? (.of "appValue") = none) (hsettings : own.get? (.of "appSettings") = none) :
    PooledContext.Kept ⟨withRequest own raw runtime, .live⟩ := by
  refine ⟨?_, ?_, trivial⟩
  · exact (get?_withRequest own raw runtime (by decide) (by decide)).trans hvalue
  · exact (get?_withRequest own raw runtime (by decide) (by decide)).trans hsettings

variable (answer) in
/-- A recycled context is kept and stands for what a new one does. -/
theorem PooledContext.Kept.reset {proto : ContextProto Ref} (hproto : Undecorated env app proto)
    {c : PooledContext Ref} (h : c.Kept) (raw runtime : Slot Ref) :
    ∃ recycled fresh,
      resetContext env (liveProto answer proto) c.own raw runtime = some recycled ∧
      boundContext (liveProto answer proto) raw runtime = some fresh ∧
      Alike (liveProto answer proto) recycled fresh ∧ PooledContext.Kept ⟨recycled, .live⟩ := by
  obtain ⟨cleared, hreset, hget⟩ := resetContext_spec answer hproto h.value raw runtime
  obtain ⟨recycled, fresh, hrecycled, hfresh, halike⟩ :=
    resetContext_alike answer hproto h.value h.settings raw runtime
  refine ⟨recycled, fresh, hrecycled, hfresh, halike, ?_⟩
  cases hreset.symm.trans hrecycled
  apply kept_withRequest
  · exact (hget _).trans h.value
  · exact (hget _).trans h.settings

variable (answer) in
/-- A context that is served stands for what a new one does; the state around it is kept. -/
theorem PooledApp.Kept.serve {state : PooledApp Ref} (h : state.Kept env app)
    (raw runtime : Slot Ref) :
    ∃ (served fresh : ContextOwn Ref) (pool : Option (ContextPool Ref)),
      state.serve env answer raw runtime =
        some { state with active := state.active ++ [⟨served, .live⟩], pool := pool } ∧
      boundContext (liveProto answer state.proto) raw runtime = some fresh ∧
      Alike (liveProto answer state.proto) served fresh ∧
      PooledContext.Kept ⟨served, .live⟩ ∧ ∀ rest ∈ pool, rest.Kept := by
  cases hacquire : state.pool.bind ContextPool.acquire with
  | none =>
    refine ⟨_, _, state.pool, ?_, boundContext_spec h.undecorated raw runtime, fun _ => rfl,
      kept_withRequest raw runtime rfl rfl, h.pool⟩
    simp only [PooledApp.serve, hacquire, boundContext_spec h.undecorated]
    rfl
  | some taken =>
    obtain ⟨c, rest⟩ := taken
    obtain ⟨pool, hpool, htake⟩ := Option.bind_eq_some_iff.mp hacquire
    obtain ⟨hc, hlive, hrest⟩ := (h.pool pool hpool).acquire htake
    obtain ⟨recycled, fresh, hreset, hfresh, halike, hkept⟩ :=
      hc.reset answer h.undecorated raw runtime
    refine ⟨recycled, fresh, some rest, ?_, hfresh, halike, hkept, fun _ hmem => ?_⟩
    · simp only [PooledApp.serve, hacquire, hlive, inherited, hreset]
      rfl
    · cases hmem
      exact hrest

/-- A decoration that the guard lets through keeps the state. -/
theorem kept_decorateAs {state next : PooledApp Ref} (h : state.Kept env app) {api : JsString}
    {key : PropertyKey} {property : ContextProperty Ref}
    (hproperty : property.Spares (· ∈ appSlots))
    (hstep : (match (do
        guardKey env answer app state.proto api key
        pure (OrderedMap.set state.proto key property) : Except JsString (ContextProto Ref)) with
      | .ok proto => some { state with proto := proto }
      | .error _ => some state) = some next) : next.Kept env app := by
  cases hguard : guardKey env answer app state.proto api key with
  | error message =>
    rw [hguard] at hstep
    cases hstep
    exact h
  | ok _ =>
    rw [hguard] at hstep
    cases hstep
    exact ⟨h.undecorated.set (guardKey_foreign h.undecorated hguard) property,
      h.proto.set key hproperty, h.active, h.pool⟩

theorem PooledApp.Kept.step {state next : PooledApp Ref} (h : state.Kept env app)
    {event : ContextEvent Ref} (hevent : event.Admissible)
    (hstep : state.step env answer app event = some next) : next.Kept env app := by
  cases event with
  | decorate key value =>
    have hproperty : Property.Spares (· ∈ appSlots) (.data value : ContextProperty Ref) := trivial
    exact kept_decorateAs h hproperty hstep
  | decorateLazy key getter =>
    have hproperty : Property.Spares (· ∈ appSlots) (.accessor getter fun _ => .raise) :=
      ⟨hevent, fun _ => trivial⟩
    exact kept_decorateAs h hproperty hstep
  | openPool =>
    cases hstep
    refine ⟨h.undecorated, h.proto, h.active, ?_⟩
    rintro _ ⟨⟩
    cases hpool : state.pool with
    | none => exact ⟨leavesApp_dead h.proto, fun _ hmem => absurd hmem List.not_mem_nil⟩
    | some pool => exact h.pool pool hpool
  | serve raw runtime =>
    obtain ⟨served, _, pool, hserve, -, -, hserved, hpool⟩ := h.serve answer raw runtime
    cases hserve.symm.trans hstep
    refine ⟨h.undecorated, h.proto, ?_, hpool⟩
    exact List.forall_mem_append.mpr ⟨h.active, by simpa using hserved⟩
  | work index fuel program =>
    obtain ⟨active, hactive, hstep⟩ := Option.bind_eq_some_iff.mp hstep
    cases hstep
    exact ⟨h.undecorated, h.proto,
      kept_workAt h.active (fun c d hc => hc.work h.proto hevent) hactive, h.pool⟩
  | reparent index chain =>
    obtain ⟨active, hactive, hstep⟩ := Option.bind_eq_some_iff.mp hstep
    cases hstep
    refine ⟨h.undecorated, h.proto, kept_workAt h.active ?_ hactive, h.pool⟩
    rintro c _ hc ⟨⟩
    exact hc.reparent hevent
  | retire index =>
    obtain ⟨c, hc, hstep⟩ := Option.bind_eq_some_iff.mp hstep
    cases hstep
    have hkept := h.active c (List.mem_of_getElem? hc)
    refine ⟨h.undecorated, h.proto, fun other hother => ?_, fun pool hpool => ?_⟩
    · exact h.active other (List.mem_of_mem_eraseIdx hother)
    · obtain ⟨before, hbefore, rfl⟩ := Option.map_eq_some_iff.mp hpool
      exact (h.pool before hbefore).release hkept
  | workLate index fuel program =>
    obtain ⟨pool, hpool, hstep⟩ := Option.bind_eq_some_iff.mp hstep
    obtain ⟨contexts, hcontexts, hstep⟩ := Option.bind_eq_some_iff.mp hstep
    cases hstep
    refine ⟨h.undecorated, h.proto, h.active, ?_⟩
    rintro _ ⟨⟩
    exact ⟨(h.pool pool hpool).dead, kept_workAt (h.pool pool hpool).contexts
      (fun c d hc => hc.work h.proto hevent) hcontexts⟩
  | reparentLate index chain =>
    obtain ⟨pool, hpool, hstep⟩ := Option.bind_eq_some_iff.mp hstep
    obtain ⟨contexts, hcontexts, hstep⟩ := Option.bind_eq_some_iff.mp hstep
    cases hstep
    refine ⟨h.undecorated, h.proto, h.active, ?_⟩
    rintro _ ⟨⟩
    refine ⟨(h.pool pool hpool).dead, kept_workAt (h.pool pool hpool).contexts ?_ hcontexts⟩
    rintro c _ hc ⟨⟩
    exact hc.reparent hevent

/-- Whatever the requests so far have done to their contexts. -/
theorem PooledApp.Kept.run {events : List (ContextEvent Ref)} {state final : PooledApp Ref}
    (h : state.Kept env app) (hevents : ∀ event ∈ events, event.Admissible)
    (hrun : events.foldlM (PooledApp.step env answer app) state = some final) :
    final.Kept env app := by
  induction events generalizing state with
  | nil =>
    cases hrun
    exact h
  | cons event events ih =>
    obtain ⟨next, hstep, hrun⟩ := Option.bind_eq_some_iff.mp hrun
    obtain ⟨hevent, hevents⟩ := List.forall_mem_cons.mp hevents
    exact ih (h.step hevent hstep) hevents hrun

end Runs

/-! ### No leak -/

section NoLeak

variable {Ref : Type} [DecidableEq Ref]

/-- What a program makes of a context: its result, or none where it throws. -/
def outcomeOn (answer : JsString → List (Slot Ref) → Option (Slot Ref)) (proto : ContextProto Ref)
    (c : PooledContext Ref) (fuel : ℕ) (program : ContextProgram Ref) :
    Option (Option (Slot Ref)) :=
  (run .undefined (inherited answer proto c.parent) fuel c.own program).map Prod.fst

/-- A request that leaves a user, a branch, a status and a path on its context. -/
def leavingTraces : List (ContextEvent ℕ) :=
  [.decorateLazy (.of "cookies") (.get (.of "cookiesValue") .done), .openPool,
   .serve (.object 10) .undefined,
   .work 0 20 (.define (.of "user") (.object 11) (.set branchesKey (.object 12)
     (.set (.of "statusValue") (.number 500) (.get (.of "path") .done)))),
   .retire 0]

end NoLeak

end Keala.Pooling
