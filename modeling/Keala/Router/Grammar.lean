import Keala.Router.Trie

/-!
What a pattern means, without the trie: its shapes, what a shape captures from
a list of decoded segments, and which of two shapes comes first. A shape is a
pattern with its optional params decided one by one, so it reads as the
address of a terminal.
-/

namespace Keala.Router

open Keala.Js

/-- The shapes of a pattern, consuming an optional param before skipping it. -/
def shapesOf : List CompiledSegment → List (List Edge)
  | [] => [[]]
  | .static value :: rest => (shapesOf rest).map (.static value :: ·)
  | .param name pattern optional :: rest =>
      (shapesOf rest).map (.consume name pattern :: ·) ++
        if optional then (shapesOf rest).map (.skip name pattern :: ·) else []
  | .wildcard :: rest => (shapesOf rest).map (.wildcard :: ·)

/-- What a shape captures from decoded segments, in order; `none` when it does
not match. `slash` says whether the raw path ends in the separator, which is
what lets a wildcard stand for no segment at all. -/
def captures (host : Host) (slash : Bool) :
    List Edge → List JsString → Option (List (JsString × JsString))
  | [], [] => some []
  | [], _ :: _ => none
  | .static _ :: _, [] => none
  | .static value :: shape, segment :: segments =>
      if value = segment then captures host slash shape segments else none
  | .consume _ _ :: _, [] => none
  | .consume name pattern :: shape, segment :: segments =>
      if segment ≠ [] ∧ satisfies host pattern segment then
        (captures host slash shape segments).map ((name, segment) :: ·)
      else none
  | .skip _ _ :: shape, segments => captures host slash shape segments
  | .wildcard :: _, [] => if slash then some [(wildcardName, [])] else none
  | .wildcard :: _, segment :: segments =>
      let rest := join Js.slash (segment :: segments)
      -- An empty rest ("/w//") matches but binds nothing.
      some (if rest ≠ [] then [(wildcardName, rest)] else [])

def after (shapes : List (List Edge)) (e : Edge) : List (List Edge) :=
  shapes.filterMap fun
    | f :: shape => if f = e then some shape else none
    | [] => none

def headPatterns (shapes : List (List Edge)) : List (Option RegExp) :=
  shapes.filterMap fun
    | .consume _ pattern :: _ => some pattern
    | .skip _ pattern :: _ => some pattern
    | _ => none

def Edge.rank : Edge → ℕ
  | static _ => 0
  | consume _ _ | skip _ _ => 1
  | wildcard => 2

/-- The order of two different edges at one position: static, then param
variants in the order in which `shapes` introduces them (consume before skip),
then the wildcard. -/
def Edge.before (shapes : List (List Edge)) : Edge → Edge → Prop
  | consume _ p, skip _ q =>
      p = q ∨ (headPatterns shapes).idxOf p < (headPatterns shapes).idxOf q
  | consume _ p, consume _ q | skip _ p, consume _ q | skip _ p, skip _ q =>
      (headPatterns shapes).idxOf p < (headPatterns shapes).idxOf q
  | e, f => e.rank < f.rank

/-- Position by position, the first of two shapes among all `shapes`; a shape
that ends comes before one that goes on. -/
def Precedes : List (List Edge) → List Edge → List Edge → Prop
  | _, [], _ :: _ => True
  | _, _, [] => False
  | shapes, e :: shape, f :: other =>
      if e = f then Precedes (after shapes e) shape other else e.before shapes f

def namesOf : List Edge → List JsString
  | [] => []
  | .consume name _ :: shape => name :: namesOf shape
  | .wildcard :: shape => wildcardName :: namesOf shape
  | _ :: shape => namesOf shape

def WildcardLast : List CompiledSegment → Prop
  | [] => True
  | .wildcard :: rest => rest = []
  | _ :: rest => WildcardLast rest

/-! ### Shapes -/

theorem shapesOf_ne_nil (segments : List CompiledSegment) : shapesOf segments ≠ [] := by
  induction segments with
  | nil => simp [shapesOf]
  | cons segment rest ih => cases segment <;> simp [shapesOf, ih]

def edgesOf : CompiledSegment → List Edge
  | .static value => [.static value]
  | .param name pattern optional =>
      .consume name pattern :: if optional then [.skip name pattern] else []
  | .wildcard => [.wildcard]

/-- A shape has an edge for each segment. -/
theorem mem_shapesOf_iff {segments : List CompiledSegment} {σ : List Edge} :
    σ ∈ shapesOf segments ↔ List.Forall₂ (fun e segment => e ∈ edgesOf segment) σ segments := by
  induction segments generalizing σ with
  | nil => rw [shapesOf, List.mem_singleton, List.forall₂_nil_right_iff]
  | cons segment rest ih =>
      rw [List.forall₂_cons_right_iff]
      simp only [← ih]
      cases segment with
      | static value => simp [shapesOf, edgesOf, and_comm, eq_comm]
      | param name pattern optional =>
          cases optional <;>
            simp [shapesOf, edgesOf, or_and_right, exists_or, and_comm, eq_comm]
      | wildcard => simp [shapesOf, edgesOf, and_comm, eq_comm]

theorem mem_after {shapes : List (List Edge)} {e : Edge} {shape : List Edge} :
    shape ∈ after shapes e ↔ e :: shape ∈ shapes := by
  rw [after, List.mem_filterMap]
  constructor
  · rintro ⟨σ, hσ, h⟩
    cases σ with
    | nil => simp at h
    | cons f τ =>
        by_cases hf : f = e
        · simp only [hf, if_true, Option.some.injEq] at h
          exact h ▸ hf ▸ hσ
        · simp [hf] at h
  · intro h
    exact ⟨e :: shape, h, by simp⟩

@[simp] theorem after_nil (e : Edge) : after [] e = [] := rfl

theorem after_append (s t : List (List Edge)) (e : Edge) :
    after (s ++ t) e = after s e ++ after t e := List.filterMap_append ..

theorem after_map_cons (s : List (List Edge)) (f e : Edge) :
    after (s.map (f :: ·)) e = if f = e then s else [] := by
  induction s with
  | nil => simp
  | cons σ s ih =>
      rw [List.map_cons, after, List.filterMap_cons]
      by_cases h : f = e
      · simp only [h, if_true] at ih ⊢
        exact congrArg (σ :: ·) ih
      · simp only [h, if_false] at ih ⊢
        exact ih

theorem headPatterns_append (s t : List (List Edge)) :
    headPatterns (s ++ t) = headPatterns s ++ headPatterns t := List.filterMap_append ..

theorem mem_headPatterns {shapes : List (List Edge)} {p : Option RegExp} :
    p ∈ headPatterns shapes ↔
      ∃ name, after shapes (.consume name p) ≠ [] ∨ after shapes (.skip name p) ≠ [] := by
  simp only [headPatterns, List.mem_filterMap, List.ne_nil_iff_exists_cons]
  constructor
  · rintro ⟨σ, hσ, h⟩
    match σ, h with
    | .consume name q :: τ, h =>
        cases h
        exact ⟨name, .inl (List.ne_nil_iff_exists_cons.mp (List.ne_nil_of_mem (mem_after.mpr hσ)))⟩
    | .skip name q :: τ, h =>
        cases h
        exact ⟨name, .inr (List.ne_nil_iff_exists_cons.mp (List.ne_nil_of_mem (mem_after.mpr hσ)))⟩
  · rintro ⟨name, ⟨σ, τ, h⟩ | ⟨σ, τ, h⟩⟩
    · exact ⟨_, mem_after.mp (h ▸ List.mem_cons_self), rfl⟩
    · exact ⟨_, mem_after.mp (h ▸ List.mem_cons_self), rfl⟩

end Keala.Router
