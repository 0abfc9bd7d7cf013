import Keala.Router.UrlRoundTrip

/-!
What the captures of a match are enough for: when a destination that
`assertRedirectCaptures` let through can be written from them.
-/

namespace Keala.Router

open Keala.Js

variable {host : Host}

/-! ### What a shape captures -/

def wildcardRest : List Edge → List JsString → List JsString
  | .static _ :: σ, segments | .consume _ _ :: σ, segments => wildcardRest σ segments.tail
  | .skip _ _ :: σ, segments => wildcardRest σ segments
  | .wildcard :: _, segments | [], segments => segments

/-- What a wildcard binds from the rest of a path: the empty text from the bare
path, and nothing from a blank segment. -/
def wildcardCapture (rest : List JsString) : List (JsString × JsString) :=
  if rest = [] then [(wildcardName, [])]
  else if rest = [[]] then []
  else [(wildcardName, join slash rest)]

/-- The captures of a shape: its params with the texts they consumed, then its
wildcard. -/
structure Caught (σ : List Edge) (rest : List JsString)
    (params found : List (JsString × JsString)) : Prop where
  consumed : ∀ p ∈ params, p.2 ≠ [] ∧ ∃ pattern, .consume p.1 pattern ∈ σ
  all : ∀ name pattern, .consume name pattern ∈ σ → ∃ p ∈ params, p.1 = name
  found : found = params ++ if .wildcard ∈ σ then wildcardCapture rest else []

/-- An edge that captures nothing changes nothing. -/
theorem Caught.cons {e : Edge} {σ : List Edge} {rest : List JsString}
    {params found : List (JsString × JsString)} (h : Caught σ rest params found)
    (hparam : ∀ name pattern, e ≠ .consume name pattern) (hwild : e ≠ .wildcard) :
    Caught (e :: σ) rest params found where
  consumed p hp := by
    obtain ⟨hne, pattern, hmem⟩ := h.consumed p hp
    exact ⟨hne, pattern, List.mem_cons_of_mem _ hmem⟩
  all name pattern hmem := by
    rcases List.mem_cons.mp hmem with heq | hmem
    · exact absurd heq.symm (hparam name pattern)
    · exact h.all name pattern hmem
  found := by simpa [Ne.symm hwild] using h.found

theorem captures_caught {trailing : Bool} {σ : List Edge} {segments : List JsString}
    {found : List (JsString × JsString)} (hends : WildcardEnds σ)
    (h : captures host trailing σ segments = some found) :
    ∃ params, Caught σ (wildcardRest σ segments) params found := by
  induction σ generalizing segments found with
  | nil =>
      cases segments with
      | nil =>
          cases h
          exact ⟨[], by simp, by simp, by simp⟩
      | cons d ds => cases h
  | cons e σ ih =>
      cases e with
      | static value =>
          cases segments with
          | nil => cases h
          | cons d ds =>
              simp only [captures, Option.ite_none_right_eq_some] at h
              obtain ⟨params, hcaught⟩ := ih hends h.2
              exact ⟨params, hcaught.cons (by simp) (by simp)⟩
      | consume name pattern =>
          cases segments with
          | nil => cases h
          | cons d ds =>
              simp only [captures, Option.ite_none_right_eq_some, Option.map_eq_some_iff] at h
              obtain ⟨⟨hne, -⟩, found, h, rfl⟩ := h
              obtain ⟨params, hconsumed, hall, rfl⟩ := ih hends h
              refine ⟨(name, d) :: params, ?_, ?_, ?_⟩
              · rw [List.forall_mem_cons]
                refine ⟨⟨hne, pattern, List.mem_cons_self⟩, ?_⟩
                intro p hp
                obtain ⟨hp, pattern', hmem⟩ := hconsumed p hp
                exact ⟨hp, pattern', List.mem_cons_of_mem _ hmem⟩
              · intro other pattern' hmem
                rcases List.mem_cons.mp hmem with heq | hmem
                · exact ⟨(name, d), List.mem_cons_self, (Edge.consume.inj heq).1.symm⟩
                · obtain ⟨p, hp, heq⟩ := hall other pattern' hmem
                  exact ⟨p, List.mem_cons_of_mem _ hp, heq⟩
              · simp [wildcardRest]
      | skip name pattern =>
          obtain ⟨params, hcaught⟩ := ih hends h
          exact ⟨params, hcaught.cons (by simp) (by simp)⟩
      | wildcard =>
          obtain rfl : σ = [] := hends
          refine ⟨[], by simp, by simp, ?_⟩
          cases segments with
          | nil =>
              simp only [captures, Option.ite_none_right_eq_some, Option.some.injEq] at h
              simp [wildcardRest, wildcardCapture, h.2]
          | cons d ds =>
              have hblank := join_eq_nil_iff (List.cons_ne_nil d ds)
              simp only [captures, Option.some.injEq] at h
              rw [← h]
              simp only [wildcardRest, wildcardCapture, List.mem_singleton, if_true,
                List.nil_append, ne_eq, reduceCtorEq, if_false, hblank]
              split <;> simp_all

/-! ### Texts of a request -/

/-- A request path as URLs carry it: whatever is no ASCII is escaped. -/
structure RequestPath where
  text : JsString
  units : ∀ c ∈ text, isSurrogate c.toNat = false

theorem isWellFormed_decodeSegment {segment : JsString}
    (h : ∀ c ∈ segment, isSurrogate c.toNat = false) :
    isWellFormed (decodeSegment segment) = true := by
  have hself := isWellFormed_of_units h
  rw [decodeSegment]
  split
  · cases hd : decodeURIComponent segment with
    | none => exact hself
    | some decoded => exact isWellFormed_decodeURIComponent h hd
  · exact hself

theorem RequestPath.isWellFormed_of_mem (path : RequestPath) {segment : JsString}
    (h : segment ∈ decodedSegments path.text) : isWellFormed segment = true := by
  obtain ⟨raw, hraw, rfl⟩ := List.mem_map.mp h
  apply isWellFormed_decodeSegment
  intro c hc
  have hsplit : raw ∈ split slash (normalizePath path.text) := by
    rw [splitSegments] at hraw
    split at hraw
    · cases hraw
    · exact List.mem_of_mem_tail hraw
  have hmem := mem_of_mem_split hsplit hc
  apply path.units
  rw [normalizePath] at hmem
  split at hmem
  · exact List.mem_of_mem_dropLast hmem
  · exact hmem

/-- Captures are segments, or segments joined. -/
theorem isWellFormed_captures {trailing : Bool} {σ : List Edge} {segments : List JsString}
    {found : List (JsString × JsString)}
    (hsegments : ∀ segment ∈ segments, isWellFormed segment = true)
    (h : captures host trailing σ segments = some found) :
    ∀ p ∈ found, isWellFormed p.2 = true := by
  induction σ generalizing segments found with
  | nil =>
      cases segments with
      | nil =>
          cases h
          exact fun _ hp => absurd hp List.not_mem_nil
      | cons d ds => cases h
  | cons e σ ih =>
      cases e with
      | static value =>
          cases segments with
          | nil => cases h
          | cons d ds =>
              simp only [captures, Option.ite_none_right_eq_some] at h
              exact ih (fun s hs => hsegments s (List.mem_cons_of_mem _ hs)) h.2
      | consume name pattern =>
          cases segments with
          | nil => cases h
          | cons d ds =>
              simp only [captures, Option.ite_none_right_eq_some, Option.map_eq_some_iff] at h
              obtain ⟨-, found, h, rfl⟩ := h
              rw [List.forall_mem_cons]
              exact ⟨hsegments d List.mem_cons_self,
                ih (fun s hs => hsegments s (List.mem_cons_of_mem _ hs)) h⟩
      | skip name pattern => exact ih hsegments h
      | wildcard =>
          cases segments with
          | nil =>
              simp only [captures, Option.ite_none_right_eq_some, Option.some.injEq] at h
              simp [← h.2]
          | cons d ds =>
              simp only [captures, Option.some.injEq] at h
              rw [← h]
              split
              · rw [List.forall_mem_singleton]
                exact isWellFormed_join hsegments
              · exact fun _ hp => absurd hp List.not_mem_nil

/-! ### What can be written -/

/-- What a segment of the destination needs of the captures. -/
def Written (params : JsString → Option JsString) : CompiledSegment → Prop
  | .static value => isWellFormed value = true
  | .param name _ optional => optional = false → ∃ value, params name = some value ∧ value ≠ []
  | .wildcard => ∃ value, params wildcardName = some value

theorem exists_urlPart_iff {params : JsString → Option JsString}
    (hparams : ∀ name value, params name = some value → isWellFormed value = true)
    (segment : CompiledSegment) :
    (∃ part, urlPart params segment = .ok part) ↔ Written params segment := by
  have hencoded : ∀ value, isWellFormed value = true →
      ∃ encoded, encodeComponent value = .ok encoded :=
    fun value => (exists_encodeComponent_iff value).mpr
  cases segment with
  | static value =>
      rw [Written, ← exists_encodeComponent_iff, urlPart]
      cases encodeComponent value <;> simp [Except.map]
  | param name pattern optional =>
      rw [Written, urlPart]
      cases hvalue : params name with
      | none => cases optional <;> simp
      | some value =>
          obtain ⟨encoded, hpart⟩ := hencoded value (hparams name value hvalue)
          rw [Option.filter_some]
          by_cases hne : value = []
          · rw [if_neg (by simp [hne])]
            cases optional <;> simp [hne]
          · rw [if_pos (by simpa using hne)]
            simp [hne, hpart, Except.map]
  | wildcard =>
      rw [Written, urlPart]
      cases hvalue : params wildcardName with
      | none => simp
      | some value =>
          obtain ⟨parts, hparts, -⟩ := encodePathValue_spec (hparams _ value hvalue)
          simp [hparts, Except.map]

theorem exists_urlParts_iff (params : JsString → Option JsString)
    (segments : List CompiledSegment) :
    (∃ parts, urlParts params segments = .ok parts) ↔
      ∀ segment ∈ segments, ∃ part, urlPart params segment = .ok part := by
  induction segments with
  | nil => simp [urlParts]
  | cons segment segments ih =>
      rw [List.forall_mem_cons, ← ih, urlParts]
      constructor
      · rintro ⟨parts, h⟩
        obtain ⟨part, hpart, h⟩ := Except.ok_of_bind h
        obtain ⟨rest, hrest, -⟩ := Except.ok_of_bind h
        exact ⟨⟨part, hpart⟩, rest, hrest⟩
      · rintro ⟨⟨part, hpart⟩, rest, hrest⟩
        exact ⟨part.toList ++ rest, by rw [hpart, hrest]; rfl⟩

theorem exists_redirectLocation_iff {destination : JsString} {dest : Option RedirectTarget}
    {params : JsString → Option JsString}
    (hparams : ∀ name value, params name = some value → isWellFormed value = true) :
    (∃ url, redirectLocation destination dest params = .ok url) ↔
      ∀ target, dest = some target → ∀ segment ∈ target.segments, Written params segment := by
  cases dest with
  | none => simp [redirectLocation]
  | some target =>
      have hparts := exists_urlParts_iff params target.segments
      simp only [exists_urlPart_iff hparams] at hparts
      simp only [Option.some.injEq, forall_eq']
      rw [← hparts, redirectLocation]
      constructor
      · rintro ⟨url, h⟩
        cases hbuild : buildURL target.segments params with
        | error e => simp [hbuild, Except.map] at h
        | ok built =>
            obtain ⟨parts, hurl, -⟩ := Except.ok_of_bind hbuild
            exact ⟨parts, hurl⟩
      · rintro ⟨parts, h⟩
        exact ⟨rooted parts ++ target.suffix, by rw [buildURL_eq h]; rfl⟩

/-! ### What the source guarantees -/

def Guaranteed (source dest : List CompiledSegment) : Prop :=
  ∀ segment ∈ dest, segment.isRequired = true →
    ∃ given ∈ source, given.isRequired = true ∧ given.value = segment.value

theorem assertRedirectCaptures_ok {source : JsString} {dest : List CompiledSegment}
    (h : assertRedirectCaptures host source dest = .ok ()) :
    ∃ ir, compilePattern host source = .ok ir ∧ Guaranteed ir.segments dest := by
  rw [assertRedirectCaptures] at h
  cases hir : compilePattern host source with
  | error e => simp [hir] at h
  | ok ir =>
      rw [hir] at h
      dsimp only at h
      split at h
      · cases h
      · next hnone =>
          refine ⟨ir, rfl, ?_⟩
          intro segment hmem hrequired
          have hcovered := List.find?_eq_none.mp hnone segment hmem
          simp only [hrequired, Bool.true_and, Bool.not_eq_true', Bool.not_eq_false,
            List.contains_iff_mem, List.mem_map, List.mem_filter] at hcovered
          obtain ⟨given, ⟨hgiven, hneeded⟩, hvalue⟩ := hcovered
          exact ⟨given, hgiven, hneeded, hvalue⟩

theorem checkRedirect_ok {source destination : JsString} {code : Option ℤ}
    {target : RedirectTarget} (h : checkRedirect host source destination code = .ok (some target)) :
    assertRedirectCaptures host source target.segments = .ok () := by
  unfold checkRedirect at h
  split at h
  · cases h
  · split at h
    · cases h
    · split at h
      · cases h
      · cases h
      · next dest _ =>
          cases hassert : assertRedirectCaptures host source dest.segments with
          | error e => simp [hassert, Except.map] at h
          | ok _ =>
              rw [hassert] at h
              cases h
              exact hassert

theorem exists_tail_of_mem_shapesOf {segment : CompiledSegment} {rest : List CompiledSegment}
    {σ : List Edge} (hσ : σ ∈ shapesOf (segment :: rest)) :
    ∃ e, ∃ τ ∈ shapesOf rest, σ = e :: τ := by
  cases segment with
  | static value =>
      obtain ⟨τ, hτ, rfl⟩ := List.mem_map.mp hσ
      exact ⟨_, τ, hτ, rfl⟩
  | param name pattern optional =>
      rw [shapesOf, List.mem_append] at hσ
      rcases hσ with hσ | hσ
      · obtain ⟨τ, hτ, rfl⟩ := List.mem_map.mp hσ
        exact ⟨_, τ, hτ, rfl⟩
      · cases optional with
        | false => simp at hσ
        | true =>
            obtain ⟨τ, hτ, rfl⟩ := List.mem_map.mp hσ
            exact ⟨_, τ, hτ, rfl⟩
  | wildcard =>
      obtain ⟨τ, hτ, rfl⟩ := List.mem_map.mp hσ
      exact ⟨_, τ, hτ, rfl⟩

/-- An edge that a segment adds to every shape. -/
theorem edge_mem_of_mem {segment : CompiledSegment} {e : Edge}
    (hhead : ∀ rest, ∀ σ ∈ shapesOf (segment :: rest), e ∈ σ) {segments : List CompiledSegment}
    (hmem : segment ∈ segments) {σ : List Edge} (hσ : σ ∈ shapesOf segments) : e ∈ σ := by
  induction segments generalizing σ with
  | nil => cases hmem
  | cons first rest ih =>
      rcases List.mem_cons.mp hmem with rfl | hrest
      · exact hhead rest σ hσ
      · obtain ⟨f, τ, hτ, rfl⟩ := exists_tail_of_mem_shapesOf hσ
        exact List.mem_cons_of_mem _ (ih hrest hτ)

/-- A required param is consumed in every shape. -/
theorem consume_mem_of_required {name : JsString} {pattern : Option RegExp}
    {segments : List CompiledSegment} (h : .param name pattern false ∈ segments) {σ : List Edge}
    (hσ : σ ∈ shapesOf segments) : .consume name pattern ∈ σ := by
  refine edge_mem_of_mem (fun rest σ hσ => ?_) h hσ
  obtain ⟨τ, -, rfl⟩ : ∃ τ ∈ shapesOf rest, .consume name pattern :: τ = σ := by
    simpa [shapesOf] using hσ
  exact List.mem_cons_self

theorem wildcard_mem_of_mem {segments : List CompiledSegment} (h : .wildcard ∈ segments)
    {σ : List Edge} (hσ : σ ∈ shapesOf segments) : .wildcard ∈ σ := by
  refine edge_mem_of_mem (fun rest σ hσ => ?_) h hσ
  obtain ⟨τ, -, rfl⟩ := List.mem_map.mp hσ
  exact List.mem_cons_self

/-! ### The condition -/

/-- When the captures of a shape carry a destination: its static segments can
be written, and it does not require the wildcard where the path stops at it.
The bare path captures the empty text, which a plain param cannot take; a blank
segment captures nothing. -/
structure Rebuildable (σ : List Edge) (rest : List JsString) (dest : List CompiledSegment) :
    Prop where
  statics : ∀ value, .static value ∈ dest → isWellFormed value = true
  bare : .wildcard ∈ σ → rest = [] → ∀ pattern, .param wildcardName pattern false ∉ dest
  blank : .wildcard ∈ σ → rest = [[]] →
    (∃ segment ∈ dest, segment.isRequired = true ∧ segment.value = wildcardName) →
    ∃ pattern, .consume wildcardName pattern ∈ σ

theorem lastCapture_mem {found : List (JsString × JsString)} {name value : JsString}
    (h : lastCapture found name = some value) : (name, value) ∈ found := by
  obtain ⟨p, hp, rfl⟩ := Option.map_eq_some_iff.mp h
  have hname : p.1 = name := by simpa using List.find?_some hp
  rw [← hname]
  exact List.mem_reverse.mp (List.mem_of_find?_eq_some hp)

theorem lastCapture_of_mem {found : List (JsString × JsString)} {name : JsString}
    (h : ∃ p ∈ found, p.1 = name) : ∃ value, lastCapture found name = some value := by
  obtain ⟨p, hp, rfl⟩ := h
  have hsome : (found.reverse.find? fun q => q.1 == p.1).isSome = true := by
    rw [List.find?_isSome]
    exact ⟨p, List.mem_reverse.mpr hp, by simp⟩
  obtain ⟨q, hq⟩ := Option.isSome_iff_exists.mp hsome
  exact ⟨q.2, by rw [lastCapture, hq]; rfl⟩

theorem lastCapture_concat (found : List (JsString × JsString)) (p : JsString × JsString) :
    lastCapture (found ++ [p]) p.1 = some p.2 := by
  rw [lastCapture, List.reverse_concat, List.find?_cons_of_pos (by simp)]
  rfl

/-- A param that a shape consumes is captured with some text. -/
theorem Caught.param {σ : List Edge} {rest : List JsString}
    {params found : List (JsString × JsString)} (h : Caught σ rest params found)
    {name : JsString} {pattern : Option RegExp} (hmem : .consume name pattern ∈ σ) :
    ∃ value, lastCapture params name = some value ∧ value ≠ [] := by
  obtain ⟨value, hvalue⟩ := lastCapture_of_mem (h.all name pattern hmem)
  exact ⟨value, hvalue, (h.consumed _ (lastCapture_mem hvalue)).1⟩

theorem Caught.other {σ : List Edge} {rest : List JsString}
    {params found : List (JsString × JsString)} (h : Caught σ rest params found) {name : JsString}
    (hne : name ≠ wildcardName) : lastCapture found name = lastCapture params name := by
  rw [h.found]
  apply lastCapture_append_other
  intro p hp
  rw [wildcardCapture] at hp
  split at hp
  · split at hp
    · exact List.mem_singleton.mp hp ▸ hne.symm
    · split at hp
      · cases hp
      · exact List.mem_singleton.mp hp ▸ hne.symm
  · cases hp

/-- Without a wildcard, and on a blank segment, only params capture. -/
theorem Caught.params_only {σ : List Edge} {rest : List JsString}
    {params found : List (JsString × JsString)} (h : Caught σ rest params found)
    (hnone : .wildcard ∉ σ ∨ rest = [[]]) : found = params := by
  rw [h.found]
  rcases hnone with hnone | rfl
  · rw [if_neg hnone, List.append_nil]
  · simp [wildcardCapture]

theorem Caught.bare {σ : List Edge} {rest : List JsString}
    {params found : List (JsString × JsString)} (h : Caught σ rest params found)
    (hwild : .wildcard ∈ σ) (hrest : rest = []) :
    lastCapture found wildcardName = some [] := by
  rw [h.found, if_pos hwild, wildcardCapture, if_pos hrest]
  exact lastCapture_concat params (wildcardName, [])

/-- Where the wildcard stands for more than the bare path or a blank segment it
captures a text, and elsewhere a param of its name has to. -/
theorem Caught.wildcard_value {σ : List Edge} {rest : List JsString}
    {params found : List (JsString × JsString)} (h : Caught σ rest params found)
    (hcaptures : .wildcard ∈ σ ∨ ∃ pattern, .consume wildcardName pattern ∈ σ)
    (hblank : .wildcard ∈ σ → rest = [[]] → ∃ pattern, .consume wildcardName pattern ∈ σ) :
    ∃ value, lastCapture found wildcardName = some value ∧
      (value = [] → .wildcard ∈ σ ∧ rest = []) := by
  by_cases hwild : .wildcard ∈ σ
  · by_cases hbare : rest = []
    · exact ⟨[], h.bare hwild hbare, fun _ => ⟨hwild, hbare⟩⟩
    · by_cases hrest : rest = [[]]
      · obtain ⟨pattern, hmem⟩ := hblank hwild hrest
        obtain ⟨value, hvalue, hne⟩ := h.param hmem
        rw [h.params_only (.inr hrest)]
        exact ⟨value, hvalue, fun heq => absurd heq hne⟩
      · refine ⟨join slash rest, ?_, fun heq => absurd ((join_eq_nil_iff hbare).mp heq) hrest⟩
        rw [h.found, if_pos hwild, wildcardCapture, if_neg hbare, if_neg hrest]
        exact lastCapture_concat params (wildcardName, join slash rest)
  · obtain ⟨pattern, hmem⟩ := hcaptures.resolve_left hwild
    obtain ⟨value, hvalue, hne⟩ := h.param hmem
    rw [h.params_only (.inl hwild)]
    exact ⟨value, hvalue, fun heq => absurd heq hne⟩

structure Captures (source : List CompiledSegment) (σ : List Edge) : Prop where
  params : ∀ name pattern, .param name pattern false ∈ source → .consume name pattern ∈ σ
  wildcard : .wildcard ∈ source → .wildcard ∈ σ

theorem Captures.required {source : List CompiledSegment} {σ : List Edge} (h : Captures source σ)
    {segment : CompiledSegment} (hmem : segment ∈ source) (hrequired : segment.isRequired = true) :
    (∃ pattern, .consume segment.value pattern ∈ σ) ∨
      segment.value = wildcardName ∧ .wildcard ∈ σ := by
  cases segment with
  | static value => cases hrequired
  | param name pattern optional =>
      obtain rfl : optional = false := by simpa [CompiledSegment.isRequired,
        CompiledSegment.isStatic, CompiledSegment.optional] using hrequired
      exact .inl ⟨pattern, h.params name pattern hmem⟩
  | wildcard => exact .inr ⟨rfl, h.wildcard hmem⟩

/-- A destination that passed the checks is written exactly on the condition. -/
theorem written_iff_rebuildable {source dest : List CompiledSegment} {σ : List Edge}
    {rest : List JsString} {params found : List (JsString × JsString)}
    (hcaught : Caught σ rest params found) (hcaptures : Captures source σ)
    (hguaranteed : Guaranteed source dest) :
    (∀ segment ∈ dest, Written (lastCapture found) segment) ↔ Rebuildable σ rest dest := by
  constructor
  · intro h
    refine ⟨fun value hmem => h _ hmem, ?_, ?_⟩
    · intro hwild hbare pattern hmem
      obtain ⟨value, hvalue, hne⟩ := h _ hmem rfl
      rw [hcaught.bare hwild hbare] at hvalue
      exact hne (Option.some.inj hvalue).symm
    · rintro hwild hblank ⟨segment, hmem, hrequired, hname⟩
      have hvalue : ∃ value, lastCapture found wildcardName = some value := by
        have hwritten := h segment hmem
        cases segment with
        | static value => cases hrequired
        | param name pattern optional =>
            obtain rfl : name = wildcardName := hname
            obtain ⟨value, hvalue, -⟩ := hwritten (by simpa [CompiledSegment.isRequired,
              CompiledSegment.isStatic, CompiledSegment.optional] using hrequired)
            exact ⟨value, hvalue⟩
        | wildcard => exact hwritten
      obtain ⟨value, hvalue⟩ := hvalue
      rw [hcaught.params_only (.inr hblank)] at hvalue
      exact (hcaught.consumed _ (lastCapture_mem hvalue)).2
  · intro h segment hmem
    -- A required name is captured, the wildcard's own on the condition.
    have hvalue : segment.isRequired = true → ∃ value,
        lastCapture found segment.value = some value ∧
          (value = [] → segment.value = wildcardName ∧ .wildcard ∈ σ ∧ rest = []) := by
      intro hrequired
      obtain ⟨given, hgiven, hneeded, hname⟩ := hguaranteed segment hmem hrequired
      have hkept := hcaptures.required hgiven hneeded
      rw [hname] at hkept
      by_cases hwn : segment.value = wildcardName
      · rw [hwn] at hkept ⊢
        have hsource : .wildcard ∈ σ ∨ ∃ pattern, .consume wildcardName pattern ∈ σ := by
          rcases hkept with hparam | ⟨-, hwild⟩
          · exact .inr hparam
          · exact .inl hwild
        obtain ⟨value, hvalue, hempty⟩ := hcaught.wildcard_value hsource fun hwild hblank =>
          h.blank hwild hblank ⟨segment, hmem, hrequired, hwn⟩
        exact ⟨value, hvalue, fun heq => ⟨rfl, hempty heq⟩⟩
      · obtain ⟨pattern, hparam⟩ := hkept.resolve_right fun hwild => hwn hwild.1
        obtain ⟨value, hvalue, hne⟩ := hcaught.param hparam
        exact ⟨value, (hcaught.other hwn).trans hvalue, fun heq => absurd heq hne⟩
    cases segment with
    | static value => exact h.statics value hmem
    | param name pattern optional =>
        rintro rfl
        obtain ⟨value, hvalue, hempty⟩ := hvalue rfl
        refine ⟨value, hvalue, fun heq => ?_⟩
        obtain ⟨hname, hwild, hbare⟩ := hempty heq
        obtain rfl : name = wildcardName := hname
        exact h.bare hwild hbare pattern hmem
    | wildcard =>
        obtain ⟨value, hvalue, -⟩ := hvalue rfl
        exact ⟨value, hvalue⟩

end Keala.Router
