import Keala.Router.TrieMatch

/-!
The trie against the grammar of patterns: which patterns match a path, which
of them the matcher answers with, and what it captures.
-/

namespace Keala.Router

open Keala.Js

/-- A pattern matches decoded segments with these captures, oldest first. -/
inductive Matches (host : Host) (trailing : Bool) :
    List CompiledSegment → List JsString → List (JsString × JsString) → Prop
  | done : Matches host trailing [] [] []
  | static {value : JsString} {rest : List CompiledSegment} {segments : List JsString}
      {found : List (JsString × JsString)} (h : Matches host trailing rest segments found) :
      Matches host trailing (.static value :: rest) (value :: segments) found
  | consume {name text : JsString} {pattern : Option RegExp} {optional : Bool}
      {rest : List CompiledSegment} {segments : List JsString}
      {found : List (JsString × JsString)} (hne : text ≠ []) (hsat : satisfies host pattern text)
      (h : Matches host trailing rest segments found) :
      Matches host trailing (.param name pattern optional :: rest) (text :: segments)
        ((name, text) :: found)
  | skip {name : JsString} {pattern : Option RegExp} {rest : List CompiledSegment}
      {segments : List JsString} {found : List (JsString × JsString)}
      (h : Matches host trailing rest segments found) :
      Matches host trailing (.param name pattern true :: rest) segments found
  | wildcard {segments : List JsString} (hne : segments ≠ []) (hrest : join slash segments ≠ []) :
      Matches host trailing [.wildcard] segments [(wildcardName, join slash segments)]
  | blank {segments : List JsString} (hne : segments ≠ []) (hrest : join slash segments = []) :
      Matches host trailing [.wildcard] segments []
  | slash (h : trailing = true) : Matches host trailing [.wildcard] [] [(wildcardName, [])]

/-- A pattern matches when one of its shapes does. -/
theorem matches_iff {host : Host} {trailing : Bool} {pattern : List CompiledSegment}
    (hlast : WildcardLast pattern) (segments : List JsString)
    (found : List (JsString × JsString)) :
    Matches host trailing pattern segments found ↔
      ∃ σ ∈ shapesOf pattern, captures host trailing σ segments = some found := by
  constructor
  · intro h
    induction h with
    | done => exact ⟨[], by simp [shapesOf], rfl⟩
    | @static value rest segments found _ ih =>
        obtain ⟨σ, hσ, hc⟩ := ih hlast
        exact ⟨.static value :: σ, List.mem_map_of_mem hσ, by simp [captures, hc]⟩
    | @consume name text pattern optional rest segments found hne hsat _ ih =>
        obtain ⟨σ, hσ, hc⟩ := ih hlast
        exact ⟨.consume name pattern :: σ, by simp [shapesOf, hσ],
          by simp [captures, hne, hsat, hc]⟩
    | @skip name pattern rest segments found _ ih =>
        obtain ⟨σ, hσ, hc⟩ := ih hlast
        exact ⟨.skip name pattern :: σ, by simp [shapesOf, hσ], hc⟩
    | @wildcard segments hne hrest =>
        obtain ⟨d, ds, rfl⟩ := List.exists_cons_of_ne_nil hne
        exact ⟨[.wildcard], by simp [shapesOf], by simp [captures, hrest]⟩
    | @blank segments hne hrest =>
        obtain ⟨d, ds, rfl⟩ := List.exists_cons_of_ne_nil hne
        exact ⟨[.wildcard], by simp [shapesOf], by simp [captures, hrest]⟩
    | slash h => exact ⟨[.wildcard], by simp [shapesOf], by simp [captures, h]⟩
  · rintro ⟨σ, hσ, hc⟩
    induction pattern generalizing σ segments found with
    | nil =>
        obtain rfl : σ = [] := by simpa [shapesOf] using hσ
        cases segments with
        | nil =>
            obtain rfl : [] = found := by simpa [captures] using hc
            exact .done
        | cons d ds => simp [captures] at hc
    | cons segment rest ih =>
        cases segment with
        | static value =>
            obtain ⟨τ, hτ, rfl⟩ := List.mem_map.mp hσ
            cases segments with
            | nil => simp [captures] at hc
            | cons d ds =>
                simp only [captures, Option.ite_none_right_eq_some] at hc
                obtain ⟨rfl, hc⟩ := hc
                exact .static (ih hlast ds found τ hτ hc)
        | param name pattern optional =>
            -- The shapes that consume the param come first, then those that skip it.
            rw [shapesOf, List.mem_append] at hσ
            rcases hσ with hσ | hσ
            · obtain ⟨τ, hτ, rfl⟩ := List.mem_map.mp hσ
              cases segments with
              | nil => simp [captures] at hc
              | cons d ds =>
                  simp only [captures, Option.ite_none_right_eq_some, Option.map_eq_some_iff] at hc
                  obtain ⟨⟨hne, hsat⟩, found, hc, rfl⟩ := hc
                  exact .consume hne hsat (ih hlast ds found τ hτ hc)
            · cases optional with
              | false => simp at hσ
              | true =>
                  obtain ⟨τ, hτ, rfl⟩ := List.mem_map.mp hσ
                  exact .skip (ih hlast segments found τ hτ hc)
        | wildcard =>
            -- Nothing follows a wildcard; it takes all segments, or the slash at the end of the
            -- path.
            obtain rfl : rest = [] := hlast
            obtain rfl : σ = [.wildcard] := by simpa [shapesOf] using hσ
            cases segments with
            | nil =>
                simp only [captures, Option.ite_none_right_eq_some, Option.some.injEq] at hc
                obtain ⟨htrail, rfl⟩ := hc
                exact .slash htrail
            | cons d ds =>
                simp only [captures, Option.some.injEq] at hc
                by_cases hrest : join slash (d :: ds) = []
                · simp only [hrest, ne_eq, not_true_eq_false, if_false] at hc
                  exact hc ▸ .blank (by simp) hrest
                · simp only [ne_eq, hrest, not_false_eq_true, if_true] at hc
                  exact hc ▸ .wildcard (by simp) hrest

theorem compileParam_eq {host : Host} {path raw : JsString} {segment : CompiledSegment}
    (h : compileParam host path raw = .ok segment) :
    ∃ name pattern optional, segment = .param name pattern optional := by
  have hnamed : ∀ {optional : Bool} {name : JsString} {pattern : Option RegExp},
      namedParam path optional name pattern = .ok segment →
      ∃ name pattern optional, segment = .param name pattern optional := by
    intro optional name pattern h
    rw [namedParam] at h
    split at h
    · cases h
    · exact ⟨_, _, _, (Except.ok.inj h).symm⟩
  rw [compileParam] at h
  generalize (if (raw.drop 1).getLast? = some 63 then (raw.drop 1).dropLast else raw.drop 1) =
    body at h
  split at h
  · exact hnamed h
  · split at h
    · cases h
    · split at h
      · cases h
      · dsimp only at h
        split at h
        · cases h
        · split at h
          · cases h
          · exact hnamed h

theorem compileSegment_wildcard {host : Host} {path raw : JsString} {last : Bool}
    (h : compileSegment host path raw last = .ok .wildcard) : last = true := by
  rw [compileSegment] at h
  split at h
  · cases h
  · split at h
    · split at h
      · assumption
      · cases h
    · split at h
      · obtain ⟨_, _, _, hparam⟩ := compileParam_eq h
        cases hparam
      · split at h <;> cases h

theorem compileParts_wildcardLast {host : Host} {path : JsString} {parts : List JsString}
    {segments : List CompiledSegment} (h : compileParts host path parts = .ok segments) :
    WildcardLast segments := by
  induction parts generalizing segments with
  | nil =>
      cases h
      trivial
  | cons raw parts ih =>
      rw [compileParts] at h
      cases hs : compileSegment host path raw parts.isEmpty with
      | error e => simp [hs, bind, Except.bind] at h
      | ok segment =>
          cases hp : compileParts host path parts with
          | error e => simp [hs, hp, bind, Except.bind] at h
          | ok rest =>
              simp only [hs, hp, bind, Except.bind, pure, Except.pure, Except.ok.injEq] at h
              subst h
              have hrest := ih hp
              cases segment with
              | static value => exact hrest
              | param name pattern optional => exact hrest
              | wildcard =>
                  have hnil : parts = [] := List.isEmpty_iff.mp (compileSegment_wildcard hs)
                  subst hnil
                  cases hp
                  trivial

theorem compilePattern_wildcardLast {host : Host} {path : JsString} {ir : PatternIR}
    (h : compilePattern host path = .ok ir) : WildcardLast ir.segments := by
  rw [compilePattern] at h
  split at h
  · cases h
  · cases hp : compileParts host path (splitSegments path) with
    | error e => simp [hp, bind, Except.bind] at h
    | ok segments =>
        simp only [hp, bind, Except.bind, pure, Except.pure, Except.ok.injEq] at h
        subst h
        exact compileParts_wildcardLast hp

/-! ### Targets -/

theorem WildcardLast.ends {pattern : List CompiledSegment} (h : WildcardLast pattern) :
    ∀ σ ∈ shapesOf pattern, WildcardEnds σ := by
  induction pattern with
  | nil =>
      intro σ hσ
      obtain rfl : σ = [] := by simpa [shapesOf] using hσ
      trivial
  | cons segment rest ih =>
      intro σ hσ
      cases segment with
      | static value =>
          obtain ⟨τ, hτ, rfl⟩ := List.mem_map.mp hσ
          exact ih h τ hτ
      | param name pattern optional =>
          rw [shapesOf, List.mem_append] at hσ
          rcases hσ with hσ | hσ
          · obtain ⟨τ, hτ, rfl⟩ := List.mem_map.mp hσ
            exact ih h τ hτ
          · cases optional with
            | false => simp at hσ
            | true =>
                obtain ⟨τ, hτ, rfl⟩ := List.mem_map.mp hσ
                exact ih h τ hτ
      | wildcard =>
          obtain rfl : rest = [] := h
          obtain rfl : σ = [.wildcard] := by simpa [shapesOf] using hσ
          rfl

/-- The references a trie holds: one for each shape, none for two, all of them
created. -/
structure Assigned (shapes : List (List Edge)) (targets : List Edge → Option TargetRef)
    (next : TargetRef) : Prop where
  total : ∀ σ ∈ shapes, targets σ ≠ none
  created : ∀ σ t, targets σ = some t → t < next
  injective : ∀ σ τ t, targets σ = some t → targets τ = some t → σ = τ

theorem Represents.target_at {n : TrieNode} {shapes : List (List Edge)}
    {targets : List Edge → Option TargetRef} {names : List JsString}
    (h : Represents n shapes targets names) {σ : List Edge} (hσ : σ ∈ shapes) :
    (n.at? σ).bind TrieNode.target = targets σ := by
  induction σ generalizing n shapes targets names with
  | nil =>
      obtain ⟨-, -, -, htarget, -, -⟩ := h
      exact htarget
  | cons e σ ih =>
      obtain ⟨-, edges, -, -, -, below⟩ := h
      have hmem : σ ∈ after shapes e := mem_after.mpr hσ
      obtain ⟨m, hm⟩ := Option.ne_none_iff_exists'.mp ((edges e).mpr (List.ne_nil_of_mem hmem))
      rw [TrieNode.at?, hm, Option.bind_some]
      exact ih (below e m hm) hmem

theorem Holds.assign {n : TrieNode} {shapes : List (List Edge)}
    {targets : List Edge → Option TargetRef} {names : List JsString} {σ : List Edge}
    (h : Holds n shapes targets names) (hσ : σ ∈ shapes) (t : TargetRef) :
    Holds (n.assign σ t) shapes (Function.update targets σ (some t)) names := by
  refine ⟨h.represents.assign hσ t, ?_, h.ends⟩
  intro τ hτ
  by_cases heq : τ = σ
  · exact heq ▸ hσ
  · rw [Function.update_of_ne heq] at hτ
    exact h.within τ hτ

/-- Every terminal gets a target, the ones that had one keep it, and no two
share one. -/
theorem assignTargets_spec (addresses : List (List Edge)) {root : TrieNode}
    {shapes : List (List Edge)} {targets : List Edge → Option TargetRef} {names : List JsString}
    {next : TargetRef} (h : Holds root shapes targets names) (hmem : ∀ σ ∈ addresses, σ ∈ shapes)
    (hcreated : ∀ σ t, targets σ = some t → t < next)
    (hinj : ∀ σ τ t, targets σ = some t → targets τ = some t → σ = τ) :
    ∃ targets', Holds (assignTargets addresses root next).1 shapes targets' names ∧
      (∀ σ t, targets σ = some t → targets' σ = some t) ∧
      (∀ σ t, targets' σ = some t → t < (assignTargets addresses root next).2.2) ∧
      (∀ σ τ t, targets' σ = some t → targets' τ = some t → σ = τ) ∧
      addresses.map targets' = (assignTargets addresses root next).2.1.map some := by
  induction addresses generalizing root targets next with
  | nil => exact ⟨targets, h, fun _ _ ht => ht, hcreated, hinj, rfl⟩
  | cons σ addresses ih =>
      have hσ := hmem σ List.mem_cons_self
      have hrest : ∀ τ ∈ addresses, τ ∈ shapes := fun τ hτ => hmem τ (List.mem_cons_of_mem _ hτ)
      have hat := h.represents.target_at hσ
      cases ht : targets σ with
      | some t =>
          -- The shape has its target: the terminal keeps it.
          obtain ⟨targets', hholds, hext, hnext, hinj', hmap⟩ := ih h hrest hcreated hinj
          have hstep : assignTargets (σ :: addresses) root next =
              ((assignTargets addresses root next).1,
                t :: (assignTargets addresses root next).2.1,
                (assignTargets addresses root next).2.2) := by
            simp [assignTargets, hat, ht]
          rw [hstep]
          refine ⟨targets', hholds, hext, hnext, hinj', ?_⟩
          rw [List.map_cons, List.map_cons, hmap, hext σ t ht]
      | none =>
          -- A new target is no shape's yet, and the next reference comes behind it.
          have hcreated' : ∀ τ t, Function.update targets σ (some next) τ = some t →
              t < next + 1 := by
            intro τ t hτ
            by_cases heq : τ = σ
            · subst heq
              rw [Function.update_self, Option.some.injEq] at hτ
              exact hτ ▸ Nat.lt_succ_self next
            · rw [Function.update_of_ne heq] at hτ
              exact Nat.lt_succ_of_lt (hcreated τ t hτ)
          have hinj' : ∀ τ υ t, Function.update targets σ (some next) τ = some t →
              Function.update targets σ (some next) υ = some t → τ = υ := by
            intro τ υ t hτ hυ
            by_cases hτσ : τ = σ
            · by_cases hυσ : υ = σ
              · rw [hτσ, hυσ]
              · rw [hτσ, Function.update_self, Option.some.injEq] at hτ
                rw [Function.update_of_ne hυσ] at hυ
                exact absurd (hcreated υ t hυ) (hτ ▸ Nat.lt_irrefl next)
            · by_cases hυσ : υ = σ
              · rw [hυσ, Function.update_self, Option.some.injEq] at hυ
                rw [Function.update_of_ne hτσ] at hτ
                exact absurd (hcreated τ t hτ) (hυ ▸ Nat.lt_irrefl next)
              · rw [Function.update_of_ne hτσ] at hτ
                rw [Function.update_of_ne hυσ] at hυ
                exact hinj τ υ t hτ hυ
          obtain ⟨targets', hholds, hext, hnext, hinj'', hmap⟩ :=
            ih (h.assign hσ next) hrest hcreated' hinj'
          have hstep : assignTargets (σ :: addresses) root next =
              ((assignTargets addresses (root.assign σ next) (next + 1)).1,
                next :: (assignTargets addresses (root.assign σ next) (next + 1)).2.1,
                (assignTargets addresses (root.assign σ next) (next + 1)).2.2) := by
            simp [assignTargets, hat, ht]
          rw [hstep]
          refine ⟨targets', hholds, ?_, hnext, hinj'', ?_⟩
          · intro τ t hτ
            refine hext τ t ?_
            by_cases heq : τ = σ
            · rw [heq, ht] at hτ
              cases hτ
            · rw [Function.update_of_ne heq]
              exact hτ
          · rw [List.map_cons, List.map_cons, hmap, hext σ next (Function.update_self ..)]

/-- Inserting one more pattern and assigning its targets. -/
theorem insertPattern_spec {root root' : TrieNode} {shapes addresses : List (List Edge)}
    {targets : List Edge → Option TargetRef} {next : TargetRef} {segments : List CompiledSegment}
    (h : Holds root shapes targets []) (ha : Assigned shapes targets next)
    (hlast : WildcardLast segments)
    (hins : insertPattern root segments = (root', .ok addresses)) :
    ∃ targets', Holds (assignTargets addresses root' next).1 (shapes ++ shapesOf segments)
        targets' [] ∧
      Assigned (shapes ++ shapesOf segments) targets' (assignTargets addresses root' next).2.2 ∧
      (∀ σ t, targets σ = some t → targets' σ = some t) ∧
      addresses = shapesOf segments ∧
      (shapesOf segments).map targets' = (assignTargets addresses root' next).2.1.map some := by
  obtain ⟨rfl, hrep⟩ := insertSegments_represents segments h.represents h.within hins
  have hholds : Holds root' (shapes ++ shapesOf segments) targets [] := by
    refine ⟨hrep, fun σ hσ => List.mem_append_left _ (h.within σ hσ), ?_⟩
    intro σ hσ
    rcases List.mem_append.mp hσ with hσ | hσ
    · exact h.ends σ hσ
    · exact hlast.ends σ hσ
  obtain ⟨targets', hholds', hext, hcreated, hinj, hmap⟩ :=
    assignTargets_spec (shapesOf segments) hholds (fun σ hσ => List.mem_append_right _ hσ)
      ha.created ha.injective
  refine ⟨targets', hholds', ⟨?_, hcreated, hinj⟩, hext, rfl, hmap⟩
  intro σ hσ
  rcases List.mem_append.mp hσ with hσ | hσ
  · obtain ⟨t, ht⟩ := Option.ne_none_iff_exists'.mp (ha.total σ hσ)
    rw [hext σ t ht]
    simp
  · have hmem : targets' σ ∈ (shapesOf segments).map targets' := List.mem_map_of_mem hσ
    rw [hmap] at hmem
    obtain ⟨t, -, ht⟩ := List.mem_map.mp hmem
    rw [← ht]
    simp

/-- The trie of a list of patterns: its shapes are theirs in order, and every
pattern gets the targets of its shapes. -/
theorem insertAll_spec (patterns : List (List CompiledSegment)) {root root' : TrieNode}
    {shapes : List (List Edge)} {targets : List Edge → Option TargetRef} {next last : TargetRef}
    {assigned : List (List TargetRef)} (h : Holds root shapes targets [])
    (ha : Assigned shapes targets next) (hlast : ∀ segments ∈ patterns, WildcardLast segments)
    (hins : insertAll patterns root next = .ok (root', assigned, last)) :
    ∃ targets', Holds root' (shapes ++ patterns.flatMap shapesOf) targets' [] ∧
      Assigned (shapes ++ patterns.flatMap shapesOf) targets' last ∧
      (∀ σ t, targets σ = some t → targets' σ = some t) ∧
      patterns.map (fun segments => (shapesOf segments).map targets') =
        assigned.map (List.map some) := by
  induction patterns generalizing root shapes targets next assigned with
  | nil =>
      simp only [insertAll, Except.ok.injEq, Prod.mk.injEq] at hins
      obtain ⟨rfl, rfl, rfl⟩ := hins
      exact ⟨targets, by simpa using h, by simpa using ha, fun _ _ ht => ht, rfl⟩
  | cons segments patterns ih =>
      rw [insertAll] at hins
      cases hp : insertPattern root segments with
      | mk root₁ outcome =>
          cases outcome with
          | error e => simp [hp] at hins
          | ok addresses =>
              obtain ⟨targets₁, hholds, hassigned, hext, rfl, hmap⟩ :=
                insertPattern_spec h ha (hlast segments List.mem_cons_self) hp
              simp only [hp] at hins
              cases hr : insertAll patterns
                  (assignTargets (shapesOf segments) root₁ next).1
                  (assignTargets (shapesOf segments) root₁ next).2.2 with
              | error e => simp [hr] at hins
              | ok result =>
                  obtain ⟨root₂, rest, last₂⟩ := result
                  simp only [hr, Except.ok.injEq, Prod.mk.injEq] at hins
                  obtain ⟨rfl, rfl, rfl⟩ := hins
                  obtain ⟨targets', hholds', hassigned', hext', hmap'⟩ := ih hholds hassigned
                    (fun s hs => hlast s (List.mem_cons_of_mem _ hs)) hr
                  refine ⟨targets', ?_, ?_, fun σ t ht => hext' σ t (hext σ t ht), ?_⟩
                  · simpa [List.append_assoc] using hholds'
                  · simpa [List.append_assoc] using hassigned'
                  · rw [List.map_cons, List.map_cons, hmap', ← hmap]
                    congr 1
                    refine List.map_congr_left fun σ hσ => ?_
                    obtain ⟨t, ht⟩ := Option.ne_none_iff_exists'.mp
                      (hassigned.total σ (List.mem_append_right _ hσ))
                    rw [ht, hext' σ t ht]

theorem holds_createNode : Holds createNode [] (fun _ => none) [] :=
  ⟨represents_createNode (fun _ h => absurd rfl h), fun _ h => absurd rfl h, by simp⟩

theorem assigned_nil : Assigned [] (fun _ => none) 0 :=
  ⟨by simp, by simp, by simp⟩

/-! ### Captured values -/

def lastCapture (found : List (JsString × JsString)) (name : JsString) : Option JsString :=
  (found.reverse.find? fun p => p.1 == name).map Prod.snd

/-- A product reads these captures: every name has the text some capture of it
consumed, and `c.params` gives the latest one. -/
structure Reads (m : RouteMatch) (found : List (JsString × JsString)) : Prop where
  pairs : ∀ i name, m.names[i]? = some name →
    ∃ text, m.values[i + m.offset]? = some (some text) ∧ (name, text) ∈ found
  params : ∀ name, m.params name = lastCapture found name

theorem findIdx?_values (ps : List (JsString × JsString)) (name : JsString) :
    (match (ps.map Prod.fst).findIdx? (· == name) with
      | none => none
      | some i => ((ps.map fun p => some p.2)[i]?).join) =
      (ps.find? fun p => p.1 == name).map Prod.snd := by
  induction ps with
  | nil => rfl
  | cons p ps ih =>
      rw [List.map_cons, List.findIdx?_cons, List.find?_cons]
      by_cases h : p.1 = name
      · simp [h]
      · have hne : (p.1 == name) = false := by simpa using h
        rw [hne, ← ih]
        cases (ps.map Prod.fst).findIdx? (· == name) <;> simp

/-- Names and values side by side. -/
theorem params_aligned (target : TargetRef) (ps : List (JsString × JsString)) (name : JsString) :
    RouteMatch.params ⟨target, ps.map Prod.fst, ps.map fun p => some p.2, 0⟩ name =
      lastCapture ps name := by
  rw [lastCapture, ← findIdx?_values, RouteMatch.params]
  simp only [List.map_reverse, List.length_map, Nat.add_zero]
  cases hi : (ps.map Prod.fst).reverse.findIdx? (· == name) with
  | none => rfl
  | some i =>
      have hlt : i < ps.length := by
        have hlt := (List.findIdx?_eq_some_iff_findIdx_eq.mp hi).1
        simpa using hlt
      change ((ps.map fun p => some p.2)[ps.length - 1 - i]?).join =
        ((ps.map fun p => some p.2).reverse[i]?).join
      rw [List.getElem?_reverse (by simpa using hlt), List.length_map]

theorem reads_aligned (target : TargetRef) (ps : List (JsString × JsString))
    {found : List (JsString × JsString)} (hsub : ∀ p ∈ ps, p ∈ found)
    (hlast : ∀ name, lastCapture ps name = lastCapture found name) :
    Reads ⟨target, ps.map Prod.fst, ps.map fun p => some p.2, 0⟩ found where
  pairs i name hi := by
    rw [List.getElem?_map, Option.map_eq_some_iff] at hi
    obtain ⟨p, hp, rfl⟩ := hi
    refine ⟨p.2, ?_, hsub p (List.mem_of_getElem? hp)⟩
    rw [Nat.add_zero, List.getElem?_map, hp]
    rfl
  params name := (params_aligned target ps name).trans (hlast name)

theorem find?_latest (name : JsString) (link : List (JsString × JsString)) (seen : List JsString) :
    (latest seen link).reverse.find? (fun p => p.1 == name) =
      if name ∈ seen then none else link.find? fun p => p.1 == name := by
  induction link generalizing seen with
  | nil => simp [latest]
  | cons p link ih =>
      obtain ⟨n, v⟩ := p
      rw [latest]
      by_cases hseen : n ∈ seen
      · rw [if_pos hseen, ih]
        by_cases hn : n = name
        · subst hn
          simp [hseen]
        · rw [List.find?_cons_of_neg (by simpa using hn)]
      · rw [if_neg hseen, List.reverse_cons, List.find?_append, ih]
        by_cases hn : n = name
        · subst hn
          simp [hseen]
        · by_cases hname : name ∈ seen
          · simp [hn, hname]
          · simp [hn, Ne.symm hn, hname]

theorem mem_latest (link : List (JsString × JsString)) (seen : List JsString)
    (p : JsString × JsString) (h : p ∈ latest seen link) : p ∈ link := by
  induction link generalizing seen with
  | nil => simp [latest] at h
  | cons q link ih =>
      obtain ⟨n, v⟩ := q
      rw [latest] at h
      split at h
      · exact List.mem_cons_of_mem _ (ih seen h)
      · rcases List.mem_cons.mp h with rfl | h
        · exact List.mem_cons_self
        · exact List.mem_cons_of_mem _ (ih _ h)

theorem reads_matchOf (target : TargetRef) (found : List (JsString × JsString)) :
    Reads (matchOf target found.reverse) found := by
  refine reads_aligned target _ (fun p hp => List.mem_reverse.mp (mem_latest _ _ _ hp)) ?_
  intro name
  rw [lastCapture, lastCapture, find?_latest, if_neg List.not_mem_nil]

/-- The names of what a shape captures: all of its names, but for the wildcard
when it consumed an empty rest. -/
theorem captures_names {host : Host} {trailing : Bool} {σ : List Edge} {segments : List JsString}
    {found : List (JsString × JsString)} (hends : WildcardEnds σ)
    (h : captures host trailing σ segments = some found) :
    found.map Prod.fst = namesOf σ ∨ found.map Prod.fst ++ [wildcardName] = namesOf σ := by
  induction σ generalizing segments found with
  | nil =>
      cases segments with
      | nil =>
          cases h
          exact .inl rfl
      | cons d ds => cases h
  | cons e σ ih =>
      cases e with
      | static value =>
          cases segments with
          | nil => cases h
          | cons d ds =>
              simp only [captures, Option.ite_none_right_eq_some] at h
              exact ih hends h.2
      | consume name pattern =>
          cases segments with
          | nil => cases h
          | cons d ds =>
              simp only [captures, Option.ite_none_right_eq_some, Option.map_eq_some_iff] at h
              obtain ⟨-, found, h, rfl⟩ := h
              rcases ih hends h with hnames | hnames
              · exact .inl (congrArg (name :: ·) hnames)
              · exact .inr (congrArg (name :: ·) hnames)
      | skip name pattern => exact ih hends h
      | wildcard =>
          obtain rfl : σ = [] := hends
          cases segments with
          | nil =>
              simp only [captures, Option.ite_none_right_eq_some, Option.some.injEq] at h
              obtain ⟨-, rfl⟩ := h
              exact .inl rfl
          | cons d ds =>
              simp only [captures, Option.some.injEq] at h
              split at h
              · exact .inl (h ▸ rfl)
              · exact .inr (h ▸ rfl)

/-- The product at a terminal reads the captures of its shape. -/
theorem reads_matchAt {host : Host} {trailing : Bool} {σ : List Edge} {segments : List JsString}
    {found : List (JsString × JsString)} (target : TargetRef) (hends : WildcardEnds σ)
    (h : captures host trailing σ segments = some found) :
    Reads (matchAt target (some (namesOf σ)) found.reverse) found := by
  have hnames := captures_names hends h
  simp only [matchAt]
  split
  · next hlen =>
      have hnil : found = [] := by
        have hσ : namesOf σ = [] := List.length_eq_zero_iff.mp hlen
        rcases hnames with hnames | hnames
        · exact List.map_eq_nil_iff.mp (hnames.trans hσ)
        · exact absurd (hnames.trans hσ) (by simp)
      subst hnil
      exact reads_aligned target [] (fun _ hp => hp) fun _ => rfl
  · split
    · exact reads_matchOf target found
    · next hlen =>
        have heq : found.map Prod.fst = namesOf σ := by
          rcases hnames with hnames | hnames
          · exact hnames
          · have hlength := congrArg List.length hnames
            rw [List.length_append, List.length_map, List.length_singleton] at hlength
            rw [List.length_reverse] at hlen
            omega
        rw [← heq, List.reverse_reverse]
        exact reads_aligned target _ (fun _ hp => hp) fun _ => rfl

/-- When nothing is left out, names and values are the captures in order. -/
theorem matchAt_aligned (target : TargetRef) {names : List JsString}
    {found : List (JsString × JsString)} (h : found.map Prod.fst = names) :
    matchAt target (some names) found.reverse =
      ⟨target, found.map Prod.fst, found.map fun p => some p.2, 0⟩ := by
  subst h
  cases found with
  | nil => rfl
  | cons p found => simp [matchAt]

/-! ### The first match -/

theorem Edge.before_asymm {shapes : List (List Edge)} {e f : Edge} (h : e.before shapes f) :
    ¬f.before shapes e := by
  cases e <;> cases f <;> simp only [Edge.before, Edge.rank] at h ⊢ <;> grind

/-- Of two shapes only one comes first. -/
theorem Precedes.asymm {shapes : List (List Edge)} {σ τ : List Edge} (h : Precedes shapes σ τ) :
    ¬Precedes shapes τ σ := by
  induction σ generalizing shapes τ with
  | nil =>
      cases τ with
      | nil => exact fun hτ => hτ
      | cons f τ => exact fun hτ => hτ
  | cons e σ ih =>
      cases τ with
      | nil => exact absurd h (by simp [Precedes])
      | cons f τ =>
          rw [Precedes] at h ⊢
          by_cases hef : e = f
          · subst hef
            rw [if_pos rfl] at h ⊢
            exact ih h
          · rw [if_neg hef] at h
            rw [if_neg (Ne.symm hef)]
            exact Edge.before_asymm h

/-- A param a shape consumes was captured with a non-empty segment of the path
that satisfies its custom pattern. -/
theorem captures_consume {host : Host} {trailing : Bool} {σ : List Edge}
    {segments : List JsString} {found : List (JsString × JsString)} (hends : WildcardEnds σ)
    (h : captures host trailing σ segments = some found) {name : JsString}
    {pattern : Option RegExp} (hmem : .consume name pattern ∈ σ) :
    ∃ text ∈ segments, text ≠ [] ∧ satisfies host pattern text ∧ (name, text) ∈ found := by
  induction σ generalizing segments found with
  | nil => cases hmem
  | cons e σ ih =>
      cases e with
      | static value =>
          cases segments with
          | nil => cases h
          | cons d ds =>
              simp only [captures, Option.ite_none_right_eq_some] at h
              obtain ⟨text, htext, hrest⟩ := ih hends h.2 (by simpa using hmem)
              exact ⟨text, List.mem_cons_of_mem _ htext, hrest⟩
      | consume name' pattern' =>
          cases segments with
          | nil => cases h
          | cons d ds =>
              simp only [captures, Option.ite_none_right_eq_some, Option.map_eq_some_iff] at h
              obtain ⟨⟨hne, hsat⟩, found, h, rfl⟩ := h
              rcases List.mem_cons.mp hmem with heq | hmem
              · cases heq
                exact ⟨d, List.mem_cons_self, hne, hsat, List.mem_cons_self⟩
              · obtain ⟨text, htext, hne, hsat, hfound⟩ := ih hends h hmem
                exact ⟨text, List.mem_cons_of_mem _ htext, hne, hsat, List.mem_cons_of_mem _ hfound⟩
      | skip name' pattern' => exact ih hends h (by simpa using hmem)
      | wildcard =>
          obtain rfl : σ = [] := hends
          simp at hmem

section Search

variable (host : Host) (path : JsString)

abbrev capturesPath (σ : List Edge) : Option (List (JsString × JsString)) :=
  captures host (trailingSlash path) σ (decodedSegments path)

variable {host path} {root : TrieNode} {shapes : List (List Edge)}
  {targets : List Edge → Option TargetRef} {next : TargetRef}

theorem matchPattern_none_iff (h : Holds root shapes targets [])
    (ha : Assigned shapes targets next) :
    matchPattern host root path = none ↔ ∀ σ ∈ shapes, capturesPath host path σ = none := by
  rw [matchPattern_eq host path h, List.head?_eq_none_iff, List.filterMap_eq_nil_iff]
  constructor
  · intro hnone σ hσ
    obtain ⟨t, ht⟩ := Option.ne_none_iff_exists'.mp (ha.total σ hσ)
    have hread := hnone ⟨σ, t, some (namesOf σ)⟩ ((h.mem_terminals_iff _).mpr ⟨ht, rfl⟩)
    exact Option.map_eq_none_iff.mp hread
  · intro hnone t ht
    have hsome := ((h.mem_terminals_iff t).mp ht).1
    exact Option.map_eq_none_iff.mpr (hnone t.shape (h.within _ (by simp [hsome])))

/-- The matcher answers with the first shape that matches the path. -/
theorem matchPattern_some (h : Holds root shapes targets []) (ha : Assigned shapes targets next)
    {m : RouteMatch} (hm : matchPattern host root path = some m) :
    ∃ σ ∈ shapes, ∃ found, capturesPath host path σ = some found ∧
      targets σ = some m.target ∧ m = matchAt m.target (some (namesOf σ)) found.reverse ∧
      ∀ τ ∈ shapes, capturesPath host path τ ≠ none → τ = σ ∨ Precedes shapes σ τ := by
  rw [matchPattern_eq host path h, List.head?_filterMap, List.findSome?_eq_some_iff] at hm
  obtain ⟨before, t, behind, hterminals, hread, hbefore⟩ := hm
  have hmem : ∀ u, u ∈ root.terminals ↔ u ∈ before ∨ u = t ∨ u ∈ behind := by
    intro u
    rw [hterminals, List.mem_append, List.mem_cons]
  obtain ⟨htarget, hnames⟩ := (h.mem_terminals_iff t).mp ((hmem t).mpr (.inr (.inl rfl)))
  rw [List.nil_append] at hnames
  obtain ⟨found, hfound, hproduct⟩ := Option.map_eq_some_iff.mp hread
  have hm : m.target = t.target := by
    rw [← hproduct, hnames]
    simp only [matchAt]
    split
    · rfl
    · split <;> rfl
  refine ⟨t.shape, h.within _ (by simp [htarget]), found, hfound, hm ▸ htarget, ?_, ?_⟩
  · rw [hm, ← hnames, ← hproduct, List.append_nil]
  · intro τ hτ hcap
    obtain ⟨r, hr⟩ := Option.ne_none_iff_exists'.mp (ha.total τ hτ)
    have hu := (h.mem_terminals_iff ⟨τ, r, some (namesOf τ)⟩).mpr ⟨hr, rfl⟩
    rcases (hmem _).mp hu with hu | hu | hu
    · exact absurd (Option.map_eq_none_iff.mp (hbefore _ hu)) hcap
    · exact .inl (congrArg Terminal.shape hu)
    · have hpairs := h.represents.pairwise_terminals host (trailingSlash path) h.within
        h.ends
      rw [hterminals] at hpairs
      have hcons := (List.pairwise_append.mp hpairs).2.1
      exact .inr ((List.pairwise_cons.mp hcons).1 _ hu _ (by simp [hfound]) hcap)

end Search

theorem mem_zip_of_map_eq {α β γ : Type} {xs : List α} {ys : List β} {f : α → γ} {g : β → γ}
    (h : xs.map f = ys.map g) {x : α} {y : β} (hmem : (x, y) ∈ xs.zip ys) : f x = g y := by
  induction xs generalizing ys with
  | nil => simp at hmem
  | cons x' xs ih =>
      cases ys with
      | nil => simp at hmem
      | cons y' ys =>
          simp only [List.map_cons, List.cons.injEq] at h
          rcases List.mem_cons.mp hmem with heq | hmem
          · cases heq
            exact h.1
          · exact ih h.2 hmem

theorem exists_mem_zip_of_map_eq {α β γ : Type} {xs : List α} {ys : List β} {f : α → γ}
    {g : β → γ} (h : xs.map f = ys.map g) {x : α} (hmem : x ∈ xs) :
    ∃ y, (x, y) ∈ xs.zip ys ∧ f x = g y := by
  induction xs generalizing ys with
  | nil => cases hmem
  | cons x' xs ih =>
      cases ys with
      | nil => simp at h
      | cons y' ys =>
          simp only [List.map_cons, List.cons.injEq] at h
          rcases List.mem_cons.mp hmem with rfl | hmem
          · exact ⟨y', List.mem_cons_self, h.1⟩
          · obtain ⟨y, hy, hxy⟩ := ih h.2 hmem
            exact ⟨y, List.mem_cons_of_mem _ hy, hxy⟩

def Owns (patterns : List (List CompiledSegment)) (assigned : List (List TargetRef))
    (σ : List Edge) (t : TargetRef) : Prop :=
  ∃ e ∈ patterns.zip assigned, (σ, t) ∈ (shapesOf e.1).zip e.2

theorem owns_iff {patterns : List (List CompiledSegment)} {assigned : List (List TargetRef)}
    {targets : List Edge → Option TargetRef}
    (h : patterns.map (fun segments => (shapesOf segments).map targets) =
      assigned.map (List.map some)) (σ : List Edge) (t : TargetRef) :
    Owns patterns assigned σ t ↔ σ ∈ patterns.flatMap shapesOf ∧ targets σ = some t := by
  constructor
  · rintro ⟨⟨segments, ts⟩, he, hσ⟩
    have hseg := (List.of_mem_zip he).1
    exact ⟨List.mem_flatMap.mpr ⟨segments, hseg, (List.of_mem_zip hσ).1⟩,
      mem_zip_of_map_eq (mem_zip_of_map_eq h he) hσ⟩
  · rintro ⟨hσ, ht⟩
    obtain ⟨segments, hseg, hσ⟩ := List.mem_flatMap.mp hσ
    obtain ⟨ts, he, hts⟩ := exists_mem_zip_of_map_eq h hseg
    obtain ⟨u, hu, htu⟩ := exists_mem_zip_of_map_eq hts hσ
    rw [ht, Option.some.injEq] at htu
    exact ⟨(segments, ts), he, htu ▸ hu⟩

/-- The product `m` answers a path with the shape `σ` of one of the patterns,
which captured `found`. -/
structure FirstMatch (host : Host) (patterns : List (List CompiledSegment))
    (assigned : List (List TargetRef)) (path : JsString) (m : RouteMatch) (σ : List Edge)
    (found : List (JsString × JsString)) : Prop where
  owns : Owns patterns assigned σ m.target
  captures : capturesPath host path σ = some found
  /-- Every other shape that matches comes later, position by position. -/
  first : ∀ segments ∈ patterns, ∀ τ ∈ shapesOf segments, capturesPath host path τ ≠ none →
    τ = σ ∨ Precedes (patterns.flatMap shapesOf) σ τ
  /-- The target stands for no other shape. -/
  only : ∀ τ, Owns patterns assigned τ m.target → τ = σ
  required : ∀ name pattern, .consume name pattern ∈ σ →
    ∃ text ∈ decodedSegments path, text ≠ [] ∧ satisfies host pattern text ∧ (name, text) ∈ found
  reads : Reads m found
  aligned : found.map Prod.fst = namesOf σ →
    m.names = found.map Prod.fst ∧ (m.values = found.map fun p => some p.2) ∧ m.offset = 0

/-- The trie matcher implements the grammar of patterns. -/
theorem matchPattern_grammar (host : Host) {patterns : List PatternIR}
    (hcompiled : ∀ ir ∈ patterns, ∃ path, compilePattern host path = .ok ir) {root : TrieNode}
    {assigned : List (List TargetRef)} {last : TargetRef}
    (hins : insertAll (patterns.map PatternIR.segments) createNode 0 = .ok (root, assigned, last))
    (path : JsString) :
    (matchPattern host root path = none ↔ ∀ ir ∈ patterns, ∀ found,
      ¬Matches host (trailingSlash path) ir.segments (decodedSegments path) found) ∧
    ∀ m, matchPattern host root path = some m → ∃ σ found,
      FirstMatch host (patterns.map PatternIR.segments) assigned path m σ found := by
  have hlast : ∀ segments ∈ patterns.map PatternIR.segments, WildcardLast segments := by
    intro segments hs
    obtain ⟨ir, hir, rfl⟩ := List.mem_map.mp hs
    obtain ⟨p, hp⟩ := hcompiled ir hir
    exact compilePattern_wildcardLast hp
  obtain ⟨targets, hholds, hassigned, -, hmap⟩ :=
    insertAll_spec _ holds_createNode assigned_nil hlast hins
  rw [List.nil_append] at hholds hassigned
  constructor
  · rw [matchPattern_none_iff hholds hassigned]
    constructor
    · intro h ir hir found hmatch
      have hseg : ir.segments ∈ patterns.map PatternIR.segments := List.mem_map_of_mem hir
      obtain ⟨σ, hσ, hcap⟩ := (matches_iff (hlast _ hseg) _ _).mp hmatch
      have hnone := h σ (List.mem_flatMap.mpr ⟨_, hseg, hσ⟩)
      exact absurd (hnone.symm.trans hcap) (by simp)
    · intro h σ hσ
      obtain ⟨segments, hseg, hσ⟩ := List.mem_flatMap.mp hσ
      obtain ⟨ir, hir, rfl⟩ := List.mem_map.mp hseg
      cases hcap : capturesPath host path σ with
      | none => rfl
      | some found =>
          have hmatch := (matches_iff (hlast _ hseg) _ _).mpr ⟨σ, hσ, hcap⟩
          exact absurd hmatch (h ir hir found)
  · intro m hm
    obtain ⟨σ, hσ, found, hcap, htarget, hproduct, hfirst⟩ :=
      matchPattern_some hholds hassigned hm
    have hends := hholds.ends σ hσ
    refine ⟨σ, found, (owns_iff hmap σ m.target).mpr ⟨hσ, htarget⟩, hcap, ?_, ?_, ?_, ?_, ?_⟩
    · intro segments hseg τ hτ
      exact hfirst τ (List.mem_flatMap.mpr ⟨segments, hseg, hτ⟩)
    · intro τ howns
      exact hassigned.injective τ σ m.target ((owns_iff hmap τ m.target).mp howns).2 htarget
    · intro name pattern hmem
      exact captures_consume hends hcap hmem
    · rw [hproduct]
      exact reads_matchAt m.target hends hcap
    · intro hnames
      rw [hproduct, matchAt_aligned m.target hnames]
      exact ⟨rfl, rfl, rfl⟩

def digitsHost : Host where
  newRegExp source := some ⟨source⟩
  test _ text := text.all fun c => 48 ≤ c && c ≤ 57
  toUpperCase text := text

def digits : RegExp := ⟨js "^(?:\\d+)$"⟩

def digitsPatterns : List PatternIR :=
  [⟨[.static (js "a"), .param (js "id") (some digits) false], false, false⟩,
   ⟨[.static (js "a"), .param (js "id") none true], false, false⟩,
   ⟨[.wildcard], false, false⟩]

theorem digitsPatterns_compiled :
    ∀ ir ∈ digitsPatterns, ∃ path, compilePattern digitsHost path = .ok ir := by
  intro ir hir
  simp only [digitsPatterns, List.mem_cons, List.not_mem_nil, or_false] at hir
  rcases hir with rfl | rfl | rfl
  · exact ⟨js "/a/:id(\\d+)", by decide +kernel⟩
  · exact ⟨js "/a/:id?", by decide +kernel⟩
  · exact ⟨js "/*", by decide +kernel⟩

theorem matchPattern_grammar_digits : ∃ root assigned last,
    insertAll (digitsPatterns.map PatternIR.segments) createNode 0 = .ok (root, assigned, last) ∧
    matchPattern digitsHost root (js "/a/7") ≠ none ∧
    ∀ m, matchPattern digitsHost root (js "/a/7") = some m → ∃ σ found,
      FirstMatch digitsHost (digitsPatterns.map PatternIR.segments) assigned (js "/a/7") m σ
        found := by
  have hmatch : ((insertAll (digitsPatterns.map PatternIR.segments) createNode 0).map
      fun r => (matchPattern digitsHost r.1 (js "/a/7")).isSome).toOption = some true := by
    decide +kernel
  cases hins : insertAll (digitsPatterns.map PatternIR.segments) createNode 0 with
  | error e => simp [hins, Except.map, Except.toOption] at hmatch
  | ok result =>
      obtain ⟨root, assigned, last⟩ := result
      refine ⟨root, assigned, last, rfl, ?_, ?_⟩
      · intro hnone
        simp [hins, Except.map, Except.toOption, hnone] at hmatch
      · exact (matchPattern_grammar digitsHost digitsPatterns_compiled hins (js "/a/7")).2

end Keala.Router
