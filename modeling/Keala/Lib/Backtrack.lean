import Mathlib.Data.List.Basic
import Mathlib.Algebra.GroupWithZero.Nat

/-!
Depth-first search over an explicit stack. Expanding the top frame either
answers or replaces the frame by the list of frames to try next, the first of
them on top. A frame denotes the list of all answers below it in the order of
the search; the loop returns the first answer denoted by the stack.
-/

namespace Backtrack

universe u v

variable {φ : Type u} {ρ : Type v}

/-- The loop, with a bound on the number of frames it pops. -/
def run (expand : φ → ρ ⊕ List φ) : ℕ → List φ → Option ρ
  | _, [] => none
  | 0, _ :: _ => none
  | fuel + 1, frame :: stack =>
      match expand frame with
      | .inl answer => some answer
      | .inr pushed => run expand fuel (pushed ++ stack)

/-- `answers` is what a frame denotes and `weight` bounds the pops it causes,
for the frames `ok` admits. -/
structure Denotes (expand : φ → ρ ⊕ List φ) (ok : φ → Prop) (answers : φ → List ρ)
    (weight : φ → ℕ) : Prop where
  pos : ∀ f, 0 < weight f
  answer : ∀ f r, ok f → expand f = .inl r → (answers f).head? = some r
  push : ∀ f fs, ok f → expand f = .inr fs →
    (∀ g ∈ fs, ok g) ∧ answers f = fs.flatMap answers ∧ (fs.map weight).sum < weight f

/-- With enough fuel the loop returns the first answer its stack denotes. -/
theorem run_eq_head? {expand : φ → ρ ⊕ List φ} {ok : φ → Prop} {answers : φ → List ρ}
    {weight : φ → ℕ} (h : Denotes expand ok answers weight) (fuel : ℕ) (stack : List φ)
    (hok : ∀ f ∈ stack, ok f) (hfuel : (stack.map weight).sum ≤ fuel) :
    run expand fuel stack = (stack.flatMap answers).head? := by
  induction fuel generalizing stack with
  | zero =>
      cases stack with
      | nil => rfl
      | cons f stack =>
          have hpos := h.pos f
          simp only [List.map_cons, List.sum_cons] at hfuel
          omega
  | succ fuel ih =>
      cases stack with
      | nil => rfl
      | cons f stack =>
          have hf : ok f := hok f List.mem_cons_self
          have hpos := h.pos f
          simp only [List.map_cons, List.sum_cons] at hfuel
          rw [List.flatMap_cons]
          cases hexp : expand f with
          | inl r =>
              have hhead := h.answer f r hf hexp
              simp [run, hexp, List.head?_append, hhead]
          | inr fs =>
              obtain ⟨hfs, hans, hw⟩ := h.push f fs hf hexp
              have hstack : ∀ g ∈ fs ++ stack, ok g := by
                intro g hg
                rcases List.mem_append.mp hg with hg | hg
                · exact hfs g hg
                · exact hok g (List.mem_cons_of_mem _ hg)
              have hsum : ((fs ++ stack).map weight).sum ≤ fuel := by
                rw [List.map_append, List.sum_append]
                omega
              simp only [run, hexp]
              rw [ih (fs ++ stack) hstack hsum, List.flatMap_append, hans]

end Backtrack
