import Mathlib.Data.List.Basic
import Mathlib.Order.Lattice

/-!
Sorting by a comparator that orders the elements of a list as their keys.
-/

namespace Sorting

universe u v

variable {α : Type u} {κ : Type v} [LinearOrder κ] (key : α → κ)

/-- A sort by keys puts them in order. -/
theorem pairwise_mergeSort_key (l : List α) :
    (l.mergeSort fun x y => key x ≤ key y).Pairwise fun x y => key x ≤ key y := by
  have htrans : ∀ x y z : α, decide (key x ≤ key y) = true → decide (key y ≤ key z) = true →
      decide (key x ≤ key z) = true := by
    simp only [decide_eq_true_eq]
    exact fun x y z => le_trans
  have htotal : ∀ x y : α, (decide (key x ≤ key y) || decide (key y ≤ key x)) = true := by
    simp only [Bool.or_eq_true, decide_eq_true_eq]
    exact fun x y => le_total _ _
  exact (List.pairwise_mergeSort htrans htotal l).imp fun hle => of_decide_eq_true hle

variable {key}

/-- The comparator need not be an order on what is not in the list. -/
theorem pairwise_mergeSort {le : α → α → Bool} {l : List α}
    (h : ∀ x ∈ l, ∀ y ∈ l, le x y = decide (key x ≤ key y)) :
    (l.mergeSort le).Pairwise fun x y => key x ≤ key y := by
  have hmap := List.map_mergeSort (f := id) (r := le) (s := fun x y => decide (key x ≤ key y)) h
  rw [List.map_id, List.map_id] at hmap
  rw [hmap]
  exact pairwise_mergeSort_key key l

end Sorting
