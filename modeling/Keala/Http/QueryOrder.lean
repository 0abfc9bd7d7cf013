import Keala.Http.QueryPairs

/-!
The order of repeated keys: a lookup takes the raw spelling first, then the
percent-encoded one, then the one with `+`, whatever order the pairs have.
-/

namespace Keala.Http

open Keala.Js Grouping

variable {input name : JsString} {pairs : List JsString}

/-- How a pair spells the name: 0 raw, 1 percent-encoded, 2 with `+`. -/
def spellingOf (name pair : JsString) : ℕ :=
  if pairKey pair = name then 0 else if encodeURIComponent name = some (pairKey pair) then 1 else 2

def bySpelling (name : JsString) (pairs : List JsString) : List JsString :=
  grouped (spellingOf name) [0, 1, 2] pairs

/-- No earlier spelling stands behind a later one. -/
def SpelledInOrder (name : JsString) (pairs : List JsString) : Prop :=
  pairs.Pairwise fun p q => spellingOf name p ≤ spellingOf name q

/-- Spelling by spelling the pairs of the name have the values they have in the
query string. -/
def SpellingHarmless (input name : JsString) : Prop :=
  (bySpelling name (pairsNamed input name)).map valueOf = (pairsNamed input name).map valueOf

/-- The values of the pairs of a name in wire order, and the first of them. -/
structure LookupOrdered (cache : WireFormsCache) (input name : JsString) : Prop where
  all : (findAllQueryValues cache input name).1 = some ((pairsNamed input name).map valueOf)
  first : (findQueryValue cache input name).1 =
    some ((pairsNamed input name).map valueOf).head?

/-! ### Sorting by spelling -/

theorem spellingOf_mem (name pair : JsString) : spellingOf name pair ∈ [0, 1, 2] := by
  unfold spellingOf
  split
  · simp
  · split <;> simp

theorem ranks_increasing : [0, 1, 2].Pairwise (· < ·) := by decide

theorem bySpelling_of_inOrder (h : SpelledInOrder name pairs) : bySpelling name pairs = pairs :=
  grouped_eq_self ranks_increasing (fun pair _ => spellingOf_mem name pair) h

theorem bySpelling_inOrder (name : JsString) (pairs : List JsString) :
    SpelledInOrder name (bySpelling name pairs) :=
  grouped_sorted ranks_increasing pairs

theorem mem_bySpelling {pair : JsString} : pair ∈ bySpelling name pairs ↔ pair ∈ pairs := by
  rw [bySpelling, mem_grouped, and_iff_left (spellingOf_mem name pair)]

/-- Different values tell the pairs apart. -/
theorem eq_of_map_eq {left right : List JsString} (hmem : ∀ pair ∈ left, pair ∈ right)
    (hvalues : (right.map valueOf).Nodup) (h : left.map valueOf = right.map valueOf) :
    left = right := by
  have hinj := List.inj_on_of_nodup_map hvalues
  have hlength : left.length = right.length := by
    have hmap := congrArg List.length h
    rwa [List.length_map, List.length_map] at hmap
  refine List.ext_getElem hlength fun i hleft hright => ?_
  have hvalue : valueOf left[i] = valueOf right[i] := by
    rw [← List.getElem_map valueOf, ← List.getElem_map valueOf]
    · simp only [h]
    · simpa using hright
    · simpa using hleft
  exact hinj (hmem _ (List.getElem_mem hleft)) (List.getElem_mem hright) hvalue

theorem inOrder_of_harmless (hvalues : ((pairsNamed input name).map valueOf).Nodup)
    (h : SpellingHarmless input name) : SpelledInOrder name (pairsNamed input name) := by
  have hsame := eq_of_map_eq (fun pair hpair => mem_bySpelling.mp hpair) hvalues h
  rw [← hsame]
  exact bySpelling_inOrder name (pairsNamed input name)

/-! ### Form by form is spelling by spelling -/

/-- The pairs of one spelling are those of one form, if no earlier form is the same. -/
theorem spelled_iff {encoded : JsString} (hencoded : encodeURIComponent name = some encoded)
    (pair : JsString) :
    (spellingOf name pair = 0 ∧ Spells name (pairKey pair) ↔ pairKey pair = name) ∧
      (spellingOf name pair = 1 ∧ Spells name (pairKey pair) ↔
        pairKey pair = encoded ∧ encoded ≠ name) ∧
      (spellingOf name pair = 2 ∧ Spells name (pairKey pair) ↔
        pairKey pair = replaceUnit 32 43 name ∧ replaceUnit 32 43 name ≠ name ∧
          replaceUnit 32 43 name ≠ encoded) := by
  simp only [spellingOf, Spells, hencoded, Option.some.injEq]
  generalize pairKey pair = key
  generalize replaceUnit 32 43 name = plus
  by_cases hname : key = name
  · subst hname
    refine ⟨by simp, by simp [eq_comm], ?_⟩
    simp only [if_true]
    constructor
    · intro h
      cases h.1
    · rintro ⟨rfl, hother, -⟩
      exact absurd rfl hother
  · rw [if_neg hname]
    by_cases hkey : encoded = key
    · subst hkey
      refine ⟨by simp [hname], by simp [hname], ?_⟩
      simp only [if_true]
      constructor
      · intro h
        cases h.1
      · rintro ⟨rfl, -, hother⟩
        exact absurd rfl hother
    · rw [if_neg hkey]
      refine ⟨by simp [hname], by simp [Ne.symm hkey], ?_⟩
      simp only [hname, hkey, false_or, true_and]
      constructor
      · rintro rfl
        exact ⟨rfl, hname, Ne.symm hkey⟩
      · exact fun h => h.1

theorem filter_spelling (hne : name ≠ []) (input : JsString) (rank : ℕ) :
    ((pairsNamed input name).filter fun pair => spellingOf name pair = rank) =
      (split 38 input).filter fun pair =>
        spellingOf name pair = rank ∧ Spells name (pairKey pair) := by
  rw [pairsNamed, List.filter_filter]
  simp [hne]

theorem grouped_forms {forms : List JsString} (hne : name ≠ []) (h : FormsShape name forms)
    (input : JsString) :
    grouped pairKey forms (split 38 input) = bySpelling name (pairsNamed input name) := by
  rw [bySpelling, grouped_cons, grouped_cons, grouped_cons, grouped_nil, filter_spelling hne,
    filter_spelling hne, filter_spelling hne]
  cases h with
  | raw hencoded hplus =>
      simp [grouped_cons, (spelled_iff hencoded _).1, (spelled_iff hencoded _).2.1,
        (spelled_iff hencoded _).2.2, hplus]
  | encoded hencoded hplus hother =>
      simp [grouped_cons, (spelled_iff hencoded _).1, (spelled_iff hencoded _).2.1,
        (spelled_iff hencoded _).2.2, hplus, hother]
  | plus hencoded hother hname hplus =>
      simp [grouped_cons, (spelled_iff hencoded _).1, (spelled_iff hencoded _).2.1,
        (spelled_iff hencoded _).2.2, hother, hname, hplus]

/-! ### Wire order -/

theorem findAllQueryValues_legible {cache : WireFormsCache} (hcache : FormsSound cache)
    (hne : name ≠ []) (h : Legible input name) :
    (findAllQueryValues cache input name).1 =
      some ((bySpelling name (pairsNamed input name)).map valueOf) := by
  by_cases hinput : input = []
  · subst hinput
    rw [pairsNamed_nil hne]
    rfl
  · obtain ⟨forms, hcompute⟩ := (exists_forms_iff name).mpr (h.encodes hinput)
    rw [findAllQueryValues_eq hcache hinput hne, hcompute, Option.map_some,
      allValues_legible h (formsOf_computeWireForms hne hcompute),
      grouped_forms hne (formsShape_of_compute hcompute)]

theorem findQueryValue_head? {cache : WireFormsCache} (hcache : FormsSound cache)
    (hne : name ≠ []) :
    (findQueryValue cache input name).1 =
      ((findAllQueryValues cache input name).1).map List.head? := by
  by_cases hinput : input = []
  · subst hinput
    rfl
  · rw [findQueryValue_eq hcache hinput hne, findAllQueryValues_eq hcache hinput hne,
      Option.map_map]
    rfl

theorem lookupOrdered_iff {cache : WireFormsCache} (hcache : FormsSound cache) (hne : name ≠ []) :
    LookupOrdered cache input name ↔ Legible input name ∧ SpellingHarmless input name := by
  constructor
  · intro h
    have hexact : LookupExact cache input name := by
      refine ⟨⟨_, h.all, List.Perm.refl _⟩, ⟨_, h.first, ?_⟩⟩
      rw [List.head?_eq_none_iff, List.map_eq_nil_iff]
    have hlegible := hexact.legible hcache hne
    have hall := h.all
    rw [findAllQueryValues_legible hcache hne hlegible] at hall
    exact ⟨hlegible, Option.some.inj hall⟩
  · rintro ⟨hlegible, hharmless⟩
    have hall : (findAllQueryValues cache input name).1 =
        some ((pairsNamed input name).map valueOf) := by
      rw [findAllQueryValues_legible hcache hne hlegible]
      exact congrArg some hharmless
    refine ⟨hall, ?_⟩
    rw [findQueryValue_head? hcache hne, hall, Option.map_some]

/-- The empty name is refused by both readers and names no pair. -/
theorem lookupOrdered_empty (cache : WireFormsCache) (input : JsString) :
    LookupOrdered cache input [] ∧ Legible input [] ∧ SpellingHarmless input [] := by
  have hpairs : pairsNamed input [] = [] := by
    rw [pairsNamed, List.filter_eq_nil_iff]
    simp
  have hmisread : ¬ Misread input [] := by
    rintro ⟨hsep, -⟩
    simp at hsep
  have hrefused : input.length = 0 ∨ ([] : JsString).length = 0 := .inr rfl
  refine ⟨⟨?_, ?_⟩, ⟨fun _ => rfl, hmisread, hmisread⟩, ?_⟩
  · rw [findAllQueryValues, if_pos hrefused, hpairs, List.map_nil]
  · rw [findQueryValue, if_pos hrefused, hpairs]
    rfl
  · rw [SpellingHarmless, hpairs]
    rfl

/-- After every history of lookups the values come in wire order where the name
is legible and its spellings do no harm: where no earlier spelling stands behind
a later one, and with different values only there. -/
theorem lookup_ordered_iff_harmless (history : List (JsString × JsString))
    (input name : JsString) :
    (LookupOrdered (cacheAfter history) input name ↔
        Legible input name ∧ SpellingHarmless input name) ∧
      (SpelledInOrder name (pairsNamed input name) → SpellingHarmless input name) ∧
      (((pairsNamed input name).map valueOf).Nodup → SpellingHarmless input name →
        SpelledInOrder name (pairsNamed input name)) := by
  refine ⟨?_, fun h => congrArg (List.map valueOf) (bySpelling_of_inOrder h), inOrder_of_harmless⟩
  by_cases hne : name = []
  · subst hne
    obtain ⟨hordered, hcondition⟩ := lookupOrdered_empty (cacheAfter history) input
    exact ⟨fun _ => hcondition, fun _ => hordered⟩
  · exact lookupOrdered_iff (cacheAfter_sound history) hne

/-- The raw spelling behind an encoded one is listed first. -/
theorem lookup_raw_first :
    ¬ LookupOrdered (cacheAfter []) (js "user+name=1&user%20name=2") (js "user name") := by
  intro h
  have hread : (findAllQueryValues (cacheAfter []) (js "user+name=1&user%20name=2")
      (js "user name")).1 = some [js "2", js "1"] := by
    decide +kernel
  have hpairs : (pairsNamed (js "user+name=1&user%20name=2") (js "user name")).map valueOf =
      [js "1", js "2"] := by
    decide +kernel
  have hall := h.all
  rw [hread, hpairs] at hall
  exact absurd hall (by decide)

end Keala.Http
