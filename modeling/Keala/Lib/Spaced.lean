import Mathlib.Algebra.Order.Group.Nat
import Mathlib.Algebra.Order.Group.Int
import Mathlib.Algebra.Order.Group.Basic
import Mathlib.Algebra.Order.Monoid.Unbundled.Basic
import Mathlib.Data.List.Pairwise

/-!
Times that keep a distance: how many of them a span of time can hold.
-/

namespace Spaced

universe u

variable {τ : Type u} [AddCommGroup τ] [LinearOrder τ] [IsOrderedAddMonoid τ]

/-- Each time comes at least `gap` after the ones before. -/
def Apart (gap : τ) (ts : List τ) : Prop := ts.Pairwise fun t t' => gap ≤ t' - t

variable {gap a b : τ} {ts : List τ}

omit [IsOrderedAddMonoid τ] in
theorem Apart.sublist {ts' : List τ} (h : Apart gap ts) (hsub : ts'.Sublist ts) :
    Apart gap ts' := List.Pairwise.sublist hsub h

/-- A time that is apart from the last one is apart from all of them. -/
theorem Apart.concat (h : Apart gap ts) (hgap : 0 ≤ gap) {t : τ}
    (hlast : ∀ t' ∈ ts.getLast?, gap ≤ t - t') : Apart gap (ts ++ [t]) := by
  refine List.pairwise_append.mpr ⟨h, List.pairwise_singleton _ t, fun t' ht' s hs => ?_⟩
  rw [List.mem_singleton] at hs
  subst hs
  obtain ⟨front, last, rfl⟩ : ∃ front last, ts = front ++ [last] :=
    ⟨_, _, (List.dropLast_concat_getLast (List.ne_nil_of_mem ht')).symm⟩
  have hend : gap ≤ s - last := hlast last (by simp)
  rcases List.mem_append.mp ht' with hfront | hself
  · have hbefore : gap ≤ last - t' :=
      (List.pairwise_append.mp h).2.2 t' hfront last List.mem_cons_self
    calc gap ≤ s - last := hend
      _ ≤ s - t' := sub_le_sub_left (sub_nonneg.mp (hgap.trans hbefore)) s
  · rwa [List.mem_singleton.mp hself]

/-- Times apart from each other fill the span that they lie in. -/
theorem Apart.length_le (h : Apart gap (a :: ts)) (hb : ∀ t ∈ a :: ts, t ≤ b) :
    ts.length • gap ≤ b - a := by
  induction ts generalizing a with
  | nil =>
      rw [List.length_nil, zero_nsmul]
      exact sub_nonneg.mpr (hb a List.mem_cons_self)
  | cons t ts ih =>
      obtain ⟨hhead, hrest⟩ := List.pairwise_cons.mp h
      have hfill := ih hrest fun t' ht' => hb t' (List.mem_cons_of_mem a ht')
      rw [List.length_cons, succ_nsmul]
      calc ts.length • gap + gap ≤ (b - t) + (t - a) :=
            add_le_add hfill (hhead t List.mem_cons_self)
        _ = b - a := sub_add_sub_cancel b t a

/-- How many of the times lie in a span. -/
theorem Apart.count_le (h : Apart gap ts) (hab : a ≤ b) :
    ((ts.filter fun t => decide (a ≤ t ∧ t ≤ b)).length - 1) • gap ≤ b - a := by
  have hsub := h.sublist (List.filter_sublist (p := fun t => decide (a ≤ t ∧ t ≤ b)))
  cases hin : ts.filter fun t => decide (a ≤ t ∧ t ≤ b) with
  | nil =>
      rw [List.length_nil, zero_nsmul]
      exact sub_nonneg.mpr hab
  | cons t rest =>
      have hmem : ∀ t' ∈ t :: rest, a ≤ t' ∧ t' ≤ b := by
        intro t' ht'
        rw [← hin, List.mem_filter] at ht'
        exact of_decide_eq_true ht'.2
      rw [hin] at hsub
      calc ((t :: rest).length - 1) • gap = rest.length • gap := rfl
        _ ≤ b - t := hsub.length_le fun t' ht' => (hmem t' ht').2
        _ ≤ b - a := sub_le_sub_left (hmem t List.mem_cons_self).1 b

end Spaced
