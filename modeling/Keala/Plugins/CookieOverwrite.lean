import Keala.Core.Headers
import Keala.Js.Search
import Keala.Plugins.CookieReplay

/-!
The staged "set-cookie" under header calls and calls of `set`. An overwriting
`set` replaces the cookie of its name, except where the header is staged as a
single text with that name: only a list is filtered.
-/

namespace Keala.Plugins

open Keala.Js Keala.Http Keala.Core

variable {κ σ β τ : Type}

/-! ### One call of `set` -/

def SetCall.serialized (platform : CookiePlatform κ) (call : SetCall κ) :
    Except CookieError JsString := do
  let toSet ← call.host.valueToSet platform call.value call.options
  let effective :=
    if call.options.secure = none ∧ call.requestSecure then
      { call.options with secure := some true }
    else call.options
  serializeCookie platform call.now call.name toSet effective

def SetCall.overwrites (call : SetCall κ) : Bool := decide (call.options.overwrite = some true)

theorem SetCall.set_eq (platform : CookiePlatform κ) (call : SetCall κ)
    (existing : Option HeaderValue) :
    call.host.set platform existing call.name call.value call.options =
      (call.serialized platform).map fun serialized =>
        stageCookie existing call.name serialized call.overwrites := by
  rw [CookiesHost.set, SetCall.serialized]
  cases call.host.valueToSet platform call.value call.options with
  | error e => rfl
  | ok toSet => rfl

def named (name entry : JsString) : Bool := startsWith entry (name ++ js "=")

theorem SetCall.serialized_named {platform : CookiePlatform κ} {call : SetCall κ}
    {serialized : JsString} (h : call.serialized platform = .ok serialized) :
    named call.name serialized = true := by
  obtain ⟨toSet, -, h⟩ := Except.ok_of_bind h
  obtain ⟨-, encoded, attributes, -, -, rfl⟩ := serializeCookie_ok h
  rw [named, startsWith_iff]
  exact ⟨encoded ++ attributes, by simp only [List.append_assoc]⟩

/-- The header is staged as a single text, and that has the name. -/
def LoneNamed (name : JsString) (existing : Option HeaderValue) : Prop :=
  ∃ text, existing = some (.one text) ∧ named name text = true

def keptBy (name : JsString) : Option HeaderValue → List JsString
  | some (.many list) => list.filter fun entry => !named name entry
  | existing => stagedTexts existing

theorem stageCookie_overwrite (existing : Option HeaderValue) (name serialized : JsString) :
    stageCookie existing name serialized true = .many (keptBy name existing ++ [serialized]) := by
  rcases existing with - | ⟨text⟩ | ⟨list⟩ <;> rfl

theorem stageCookie_first (existing : Option HeaderValue) (name serialized : JsString) :
    some (stageCookie existing name serialized false) =
      if (stagedTexts existing).any (named name) then existing
      else some (.many (stagedTexts existing ++ [serialized])) := by
  rcases existing with - | ⟨text⟩ | ⟨list⟩
  · rfl
  · change some (if named name text then HeaderValue.one text else .many [text, serialized]) =
      if (named name text || false) then some (HeaderValue.one text)
      else some (.many [text, serialized])
    cases named name text <;> rfl
  · exact apply_ite some _ _ _

/-- Among the entries, the new one stands for the name, and those of other
names are as they were. -/
def Replaces (name serialized : JsString) (existing after : Option HeaderValue) : Prop :=
  (stagedTexts after).filter (named name) = [serialized] ∧
    ((stagedTexts after).filter fun entry => !named name entry) =
      (stagedTexts existing).filter fun entry => !named name entry

theorem filter_keptBy_other (name : JsString) (existing : Option HeaderValue) :
    ((keptBy name existing).filter fun entry => !named name entry) =
      (stagedTexts existing).filter fun entry => !named name entry := by
  rcases existing with - | ⟨text⟩ | ⟨list⟩
  · rfl
  · rfl
  · change (list.filter _).filter _ = _
    rw [List.filter_filter, stagedTexts]
    simp only [Bool.and_self]

/-- Only a single text is kept under its own name. -/
theorem filter_keptBy_named (name : JsString) (existing : Option HeaderValue) :
    (keptBy name existing).filter (named name) = [] ↔ ¬LoneNamed name existing := by
  rw [List.filter_eq_nil_iff]
  rcases existing with - | ⟨text⟩ | ⟨list⟩
  · apply iff_of_true
    · exact fun _ h => absurd h List.not_mem_nil
    · rintro ⟨_, h, -⟩
      cases h
  · constructor
    · rintro hkept ⟨_, h, hnamed⟩
      cases h
      exact hkept text (List.mem_singleton_self text) hnamed
    · intro hlone entry hentry hnamed
      obtain rfl := List.mem_singleton.mp hentry
      exact hlone ⟨entry, rfl, hnamed⟩
  · apply iff_of_true
    · intro entry hentry hnamed
      have hother := (List.mem_filter.mp hentry).2
      rw [hnamed] at hother
      cases hother
    · rintro ⟨_, h, -⟩
      cases h

theorem replaces_overwrite_iff {existing : Option HeaderValue} {name serialized : JsString}
    (h : named name serialized = true) :
    Replaces name serialized existing (some (stageCookie existing name serialized true)) ↔
      ¬LoneNamed name existing := by
  have hnew : [serialized].filter (named name) = [serialized] := by simp [h]
  have hother : ([serialized].filter fun entry => !named name entry) = [] := by simp [h]
  rw [Replaces, stageCookie_overwrite, stagedTexts, List.filter_append, List.filter_append, hnew,
    hother, List.append_nil, ← filter_keptBy_named, List.append_left_eq_self]
  exact and_iff_left (filter_keptBy_other name existing)

/-! ### Where the entries came from -/

/-- The staged texts, each with the name that a `set` staged it under. Text of
header calls has none. -/
abbrev Origins := List (JsString × Option JsString)

def foreign (texts : List JsString) : Origins := texts.map fun text => (text, none)

/-- An append leaves the entries before its own where they are. -/
def Origins.afterHeader (origins : Origins) (call : HeaderCall)
    (before after : Option HeaderValue) : Origins :=
  if after = before then origins
  else
    match call with
    | .append _ _ => origins ++ foreign ((stagedTexts after).drop origins.length)
    | _ => foreign (stagedTexts after)

def Origins.afterSet (origins : Origins) (existing : Option HeaderValue)
    (name serialized : JsString) (overwrite : Bool) : Origins :=
  let mine := (serialized, some name)
  if overwrite then
    match existing with
    | some (.many _) => (origins.filter fun entry => !named name entry.1) ++ [mine]
    | _ => origins ++ [mine]
  else if origins.any fun entry => named name entry.1 then origins
  else origins ++ [mine]

structure Origins.Distinct (origins : Origins) : Prop where
  own : ∀ entry ∈ origins, ∀ name, entry.2 = some name → named name entry.1 = true
  nodup : (origins.filterMap Prod.snd).Nodup

/-- The origins are those of the staged texts, and a single text came from a
header call. -/
structure Origins.Sound (origins : Origins) (staged : Option HeaderValue) : Prop
    extends origins.Distinct where
  texts : origins.map Prod.fst = stagedTexts staged
  lone : ∀ text, staged = some (.one text) → ∀ entry ∈ origins, entry.2 = none

theorem snd_of_mem_foreign {texts : List JsString} {entry : JsString × Option JsString}
    (h : entry ∈ foreign texts) : entry.2 = none := by
  obtain ⟨text, -, rfl⟩ := List.mem_map.mp h
  rfl

theorem map_fst_foreign (texts : List JsString) : (foreign texts).map Prod.fst = texts := by
  rw [foreign, List.map_map]
  exact List.map_id _

theorem Origins.Distinct.append_foreign {origins : Origins} (h : origins.Distinct)
    (texts : List JsString) : Origins.Distinct (origins ++ foreign texts) where
  own entry hentry name hname := by
    rcases List.mem_append.mp hentry with hold | hnew
    · exact h.own entry hold name hname
    · rw [snd_of_mem_foreign hnew] at hname
      cases hname
  nodup := by
    have hnone : (foreign texts).filterMap Prod.snd = [] :=
      List.filterMap_eq_nil_iff.mpr fun entry => snd_of_mem_foreign
    rw [List.filterMap_append, hnone, List.append_nil]
    exact h.nodup

theorem distinct_foreign (texts : List JsString) : (foreign texts).Distinct :=
  Origins.Distinct.append_foreign ⟨fun _ h => absurd h List.not_mem_nil, List.nodup_nil⟩ texts

theorem foreign_sound (staged : Option HeaderValue) :
    (foreign (stagedTexts staged)).Sound staged where
  toDistinct := distinct_foreign _
  texts := map_fst_foreign _
  lone _ _ _ := snd_of_mem_foreign

theorem Origins.Distinct.filter {origins : Origins} (h : origins.Distinct)
    (p : JsString × Option JsString → Bool) : Origins.Distinct (List.filter p origins) where
  own entry hentry := h.own entry (List.mem_of_mem_filter hentry)
  nodup := h.nodup.sublist (List.filter_sublist.filterMap _)

theorem Origins.Distinct.add {origins : Origins} (h : origins.Distinct)
    {name serialized : JsString} (hnamed : named name serialized = true)
    (hnew : ∀ entry ∈ origins, entry.2 ≠ some name) :
    Origins.Distinct (origins ++ [(serialized, some name)]) where
  own entry hentry other hother := by
    rcases List.mem_append.mp hentry with hold | hmine
    · exact h.own entry hold other hother
    · obtain rfl := List.mem_singleton.mp hmine
      obtain rfl := Option.some.inj hother
      exact hnamed
  nodup := by
    rw [List.filterMap_append]
    refine h.nodup.append (List.nodup_singleton name) ?_
    intro other hold hmine
    obtain rfl := List.mem_singleton.mp hmine
    obtain ⟨entry, hentry, hname⟩ := List.mem_filterMap.mp hold
    exact hnew entry hentry hname

/-- Without an entry of the name there is none that came from its `set`. -/
theorem Origins.Distinct.snd_ne {origins : Origins} (h : origins.Distinct) {name : JsString}
    (hnone : ∀ entry ∈ origins, named name entry.1 = false) :
    ∀ entry ∈ origins, entry.2 ≠ some name := by
  intro entry hentry hname
  have := h.own entry hentry name hname
  rw [hnone entry hentry] at this
  cases this

theorem map_fst_filter (origins : Origins) (p : JsString → Bool) :
    (origins.filter fun entry => p entry.1).map Prod.fst = (origins.map Prod.fst).filter p := by
  rw [List.filter_map]
  rfl

/-- An overwriting `set` keeps the origins sound. -/
theorem Origins.Sound.overwrite {origins : Origins} {existing : Option HeaderValue}
    (h : origins.Sound existing) {name serialized : JsString}
    (hnamed : named name serialized = true) :
    (origins.afterSet existing name serialized true).Sound
      (some (stageCookie existing name serialized true)) := by
  have hkept : ∃ kept : Origins, origins.afterSet existing name serialized true =
      kept ++ [(serialized, some name)] ∧ kept.Distinct ∧ kept.map Prod.fst = keptBy name existing ∧
        ∀ entry ∈ kept, entry.2 ≠ some name := by
    rcases existing with - | ⟨text⟩ | ⟨list⟩
    · refine ⟨origins, rfl, h.toDistinct, h.texts, fun entry hentry => ?_⟩
      rw [List.map_eq_nil_iff.mp h.texts] at hentry
      cases hentry
    · refine ⟨origins, rfl, h.toDistinct, h.texts, fun entry hentry => ?_⟩
      simp [h.lone text rfl entry hentry]
    · refine ⟨_, rfl, h.toDistinct.filter _, ?_, ?_⟩
      · rw [map_fst_filter origins fun text => !named name text, h.texts]
        rfl
      · apply (h.toDistinct.filter _).snd_ne
        intro entry hentry
        simpa using (List.mem_filter.mp hentry).2
  obtain ⟨kept, heq, hdistinct, htexts, hnew⟩ := hkept
  rw [heq, stageCookie_overwrite]
  refine ⟨hdistinct.add hnamed hnew, ?_, ?_⟩
  · rw [List.map_append, htexts]
    rfl
  · intro text hone
    cases hone

/-- So does one that stands back for what is there. -/
theorem Origins.Sound.first {origins : Origins} {existing : Option HeaderValue}
    (h : origins.Sound existing) {name serialized : JsString}
    (hnamed : named name serialized = true) :
    (origins.afterSet existing name serialized false).Sound
      (some (stageCookie existing name serialized false)) := by
  have hany : (origins.any fun entry => named name entry.1) =
      (stagedTexts existing).any (named name) := by
    rw [← h.texts, List.any_map]
    rfl
  rw [stageCookie_first, ← hany]
  change Origins.Sound (if origins.any fun entry => named name entry.1 then origins
    else origins ++ [(serialized, some name)]) _
  split
  · exact h
  · next hnone =>
      have hnew : ∀ entry ∈ origins, named name entry.1 = false := by
        simpa using hnone
      refine ⟨h.toDistinct.add hnamed (h.toDistinct.snd_ne hnew), ?_, ?_⟩
      · rw [List.map_append, h.texts]
        rfl
      · intro text hone
        cases hone

/-! ### Header calls -/

theorem itemsOf_eq (value : HeaderValue) : itemsOf value = stagedTexts (some value) := by
  cases value <;> rfl

theorem stageHeader_add {c : Context σ β} {name : JsString} {staged : HeaderValue}
    (h : OrderedMap.get? c.record name = some staged) (next : List JsString) (n : JsString) :
    (stageHeader c name (.many (itemsOf staged ++ next))).stagedAt n = c.stagedAt n ∨
      ∃ more, (stageHeader c name (.many (itemsOf staged ++ next))).stagedAt n =
        some (.many (stagedTexts (c.stagedAt n) ++ more)) := by
  rw [stagedAt_stageHeader]
  by_cases hn : name = n
  · subst hn
    refine .inr ⟨next, ?_⟩
    rw [if_pos rfl, itemsOf_eq, Context.stagedAt, h]
  · exact .inl (if_neg hn)

theorem stageHeader_new {c : Context σ β} {name : JsString}
    (h : OrderedMap.get? c.record name = none) (value : HeaderValue) (n : JsString) :
    (stageHeader c name value).stagedAt n = c.stagedAt n ∨ c.stagedAt n = none := by
  rw [stagedAt_stageHeader]
  by_cases hn : name = n
  · subst hn
    exact .inr h
  · exact .inl (if_neg hn)

/-- What an append may do to a staged header: nothing, add to it, or stage
the first value. -/
theorem appendResponseHeader_staged {text : FieldText} {c after : Context σ β} {field : JsString}
    {value : HeaderValue}
    (h : (appendResponseHeader text c field value : Except (Thrown τ) _) = .ok after)
    (n : JsString) :
    (after.stagedAt n = c.stagedAt n ∨
      ∃ more, after.stagedAt n = some (.many (stagedTexts (c.stagedAt n) ++ more))) ∨
      c.stagedAt n = none := by
  obtain ⟨name, -, h⟩ := Except.ok_of_bind h
  obtain ⟨-, -, h⟩ := Except.ok_of_bind h
  dsimp only at h
  split at h
  · cases h
  · split at h
    · next res hres =>
        split at h
        · cases h
        · obtain ⟨headers, -, h⟩ := Except.ok_of_bind h
          split at h
          · obtain rfl := Except.ok.inj h
            exact .inl (.inl rfl)
          · next staged hstaged =>
              split at h
              · obtain rfl := Except.ok.inj h
                exact .inl (.inl rfl)
              · obtain rfl := Except.ok.inj h
                exact .inl (stageHeader_add (c := c.withRes _) hstaged _ n)
    · split at h
      · next existing hexisting =>
          split at h
          · cases h
          · obtain rfl := Except.ok.inj h
            exact .inl (stageHeader_add hexisting _ n)
      · next hnone =>
          split at h
          · obtain rfl := Except.ok.inj h
            exact (stageHeader_new hnone _ n).imp_left .inl
          · obtain rfl := Except.ok.inj h
            exact (stageHeader_new hnone _ n).imp_left .inl

theorem drop_texts {origins : Origins} {staged : Option HeaderValue} (h : origins.Sound staged)
    (more : List JsString) : (stagedTexts staged ++ more).drop origins.length = more := by
  rw [← h.texts, ← List.length_map (f := Prod.fst), List.drop_left]

/-- A header call keeps the origins sound. -/
theorem Origins.Sound.header {text : FieldText} {c : Context σ β} {origins : Origins}
    {n : JsString} (h : origins.Sound (c.stagedAt n)) (call : HeaderCall) :
    (origins.afterHeader call (c.stagedAt n) ((call.run τ text c).stagedAt n)).Sound
      ((call.run τ text c).stagedAt n) := by
  unfold Origins.afterHeader
  split
  · next hsame =>
      rw [hsame]
      exact h
  · next hdiff =>
      cases call with
      | set field value => exact foreign_sound _
      | remove field => exact foreign_sound _
      | append field value =>
          rw [HeaderCall.run, HeaderCall.outcome] at hdiff ⊢
          cases hafter : (appendResponseHeader text c field value : Except (Thrown τ) _) with
          | error e => exact absurd (by rw [hafter]) hdiff
          | ok after =>
              rw [hafter] at hdiff
              change after.stagedAt n ≠ c.stagedAt n at hdiff
              change (origins ++ foreign ((stagedTexts (after.stagedAt n)).drop
                origins.length)).Sound (after.stagedAt n)
              rcases appendResponseHeader_staged hafter n with (hsame | ⟨more, hmore⟩) | hnone
              · exact absurd hsame hdiff
              · rw [hmore]
                refine ⟨h.toDistinct.append_foreign _, ?_, ?_⟩
                · rw [List.map_append, map_fst_foreign, stagedTexts, drop_texts h, h.texts]
                · intro text hone
                  cases hone
              · -- Nothing was staged, so the entries are all new.
                rw [hnone] at h
                rw [List.map_eq_nil_iff.mp h.texts]
                exact foreign_sound _

/-! ### Runs -/

/-- `c.cookies.set(...)`: the first touch of the facade materializes the
record, and a call that throws stages nothing. -/
def SetCall.stage (platform : CookiePlatform κ) (c : Context σ β) (call : SetCall κ) :
    Context σ β :=
  let c := c.withRecord c.record
  match call.host.set platform (c.stagedAt (js "set-cookie")) call.name call.value
    call.options with
  | .ok staged => stageHeader c (js "set-cookie") staged
  | .error _ => c

theorem SetCall.stagedAt_stage {platform : CookiePlatform κ} {call : SetCall κ}
    {serialized : JsString} (h : call.serialized platform = .ok serialized) (c : Context σ β) :
    (call.stage platform c).stagedAt (js "set-cookie") =
      some (stageCookie (c.stagedAt (js "set-cookie")) call.name serialized call.overwrites) := by
  rw [stage, SetCall.set_eq, h]
  exact (stagedAt_stageHeader _ _ _ _).trans (if_pos rfl)

inductive CookieWrite (κ : Type)
  | header (call : HeaderCall)
  | cookie (call : SetCall κ)

structure Traced (σ β : Type) where
  context : Context σ β
  origins : Origins

def Traced.staged (s : Traced σ β) : Option HeaderValue := s.context.stagedAt (js "set-cookie")

/-- Before the first write no entry is known to be from `set`. -/
def Traced.start (c : Context σ β) : Traced σ β :=
  ⟨c, foreign (stagedTexts (c.stagedAt (js "set-cookie")))⟩

def CookieWrite.run (τ : Type) (text : FieldText) (platform : CookiePlatform κ)
    (s : Traced σ β) : CookieWrite κ → Traced σ β
  | header call =>
      let after := call.run τ text s.context
      ⟨after, s.origins.afterHeader call s.staged (after.stagedAt (js "set-cookie"))⟩
  | cookie call =>
      ⟨call.stage platform s.context,
        match call.serialized platform with
        | .ok serialized => s.origins.afterSet s.staged call.name serialized call.overwrites
        | .error _ => s.origins⟩

theorem CookieWrite.run_sound (text : FieldText) (platform : CookiePlatform κ) {s : Traced σ β}
    (h : s.origins.Sound s.staged) (write : CookieWrite κ) :
    (write.run τ text platform s).origins.Sound (write.run τ text platform s).staged := by
  cases write with
  | header call => exact h.header call
  | cookie call =>
      rw [CookieWrite.run, Traced.staged]
      cases hcall : call.serialized platform with
      | error e =>
          have hsame : (call.stage platform s.context).stagedAt (js "set-cookie") = s.staged := by
            rw [SetCall.stage, SetCall.set_eq, hcall]
            rfl
          change s.origins.Sound ((call.stage platform s.context).stagedAt (js "set-cookie"))
          rw [hsame]
          exact h
      | ok serialized =>
          have hnamed := SetCall.serialized_named hcall
          change (s.origins.afterSet s.staged call.name serialized call.overwrites).Sound
            ((call.stage platform s.context).stagedAt (js "set-cookie"))
          rw [SetCall.stagedAt_stage hcall]
          cases call.overwrites with
          | true => exact h.overwrite hnamed
          | false => exact h.first hnamed

theorem foldl_run_sound (text : FieldText) (platform : CookiePlatform κ)
    (writes : List (CookieWrite κ)) {s : Traced σ β} (h : s.origins.Sound s.staged) :
    (writes.foldl (CookieWrite.run τ text platform) s).origins.Sound
      (writes.foldl (CookieWrite.run τ text platform) s).staged := by
  induction writes generalizing s with
  | nil => exact h
  | cons write writes ih => exact ih (write.run_sound text platform h)

def secondCall : SetCall JsString where
  keys := none
  requestSecure := false
  now := 0
  name := js "a"
  value := js "2"
  options := { overwrite := some true }

def bareContext : Context Unit Unit where
  method := js "GET"
  allowedValue := none
  statusValue := 404
  staged := ⟨none, ()⟩
  res := none

end Keala.Plugins
