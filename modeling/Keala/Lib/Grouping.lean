import Mathlib.Data.List.Basic
import Mathlib.Order.Lattice

/-!
A list taken group by group: for each of some keys the elements with that key,
in their order.
-/

namespace Grouping

universe u v

variable {α : Type u} {κ : Type v} [DecidableEq κ]

def grouped (key : α → κ) (keys : List κ) (l : List α) : List α :=
  keys.flatMap fun k => l.filter fun a => key a = k

variable {key : α → κ} {keys : List κ} {l : List α}

@[simp] theorem grouped_nil (key : α → κ) (l : List α) : grouped key [] l = [] := rfl

theorem grouped_cons (key : α → κ) (k : κ) (keys : List κ) (l : List α) :
    grouped key (k :: keys) l = (l.filter fun a => key a = k) ++ grouped key keys l :=
  List.flatMap_cons

theorem mem_grouped {a : α} : a ∈ grouped key keys l ↔ a ∈ l ∧ key a ∈ keys := by
  simp only [grouped, List.mem_flatMap, List.mem_filter, decide_eq_true_eq]
  constructor
  · rintro ⟨k, hk, ha, rfl⟩
    exact ⟨ha, hk⟩
  · rintro ⟨ha, hk⟩
    exact ⟨key a, hk, ha, rfl⟩

/-- Only the order of the elements changes. -/
theorem grouped_perm (hnodup : keys.Nodup) (l : List α) :
    (grouped key keys l).Perm (l.filter fun a => key a ∈ keys) := by
  induction keys with
  | nil => simp
  | cons k keys ih =>
      rw [List.nodup_cons] at hnodup
      have hsplit := List.filter_append_perm (fun a => decide (key a = k))
        (l.filter fun a => key a ∈ k :: keys)
      have hfirst : (l.filter fun a => decide (key a = k) && decide (key a ∈ k :: keys)) =
          l.filter fun a => key a = k := by
        refine List.filter_congr fun a _ => ?_
        by_cases ha : key a = k
        · simp [ha]
        · simp [ha]
      have hrest : (l.filter fun a => !decide (key a = k) && decide (key a ∈ k :: keys)) =
          l.filter fun a => key a ∈ keys := by
        refine List.filter_congr fun a _ => ?_
        by_cases ha : key a = k
        · simp [ha, hnodup.1]
        · simp [ha]
      rw [List.filter_filter, List.filter_filter, hfirst, hrest] at hsplit
      rw [grouped_cons]
      exact (List.Perm.append_left _ (ih hnodup.2)).trans hsplit

/-- A key that no element has adds nothing. -/
theorem filter_key_eq_nil {k : κ} (h : ∀ a ∈ l, key a ≠ k) :
    (l.filter fun a => key a = k) = [] := by
  rw [List.filter_eq_nil_iff]
  intro a ha
  simpa using h a ha

end Grouping

namespace Grouping

universe u v

variable {α : Type u} {κ : Type v} [LinearOrder κ] {key : α → κ} {keys : List κ} {l : List α}

/-- Grouped by increasing keys the elements are sorted. -/
theorem grouped_sorted (hkeys : keys.Pairwise (· < ·)) (l : List α) :
    (grouped key keys l).Pairwise fun a b => key a ≤ key b := by
  rw [grouped, List.pairwise_flatMap]
  constructor
  · intro k _
    refine List.pairwise_of_forall_mem_list fun a ha b hb => ?_
    simp only [List.mem_filter, decide_eq_true_eq] at ha hb
    rw [ha.2, hb.2]
  · refine hkeys.imp fun hlt a ha b hb => ?_
    simp only [List.mem_filter, decide_eq_true_eq] at ha hb
    rw [ha.2, hb.2]
    exact le_of_lt hlt

/-- A sorted list is left as it is. -/
theorem grouped_eq_self (hkeys : keys.Pairwise (· < ·)) (hall : ∀ a ∈ l, key a ∈ keys)
    (h : l.Pairwise fun a b => key a ≤ key b) : grouped key keys l = l := by
  induction l with
  | nil => simp [grouped]
  | cons a l ih =>
      obtain ⟨hfirst, hrest⟩ := List.pairwise_cons.mp h
      have hsame := ih (fun b hb => hall b (List.mem_cons_of_mem _ hb)) hrest
      obtain ⟨smaller, larger, rfl⟩ := List.append_of_mem (hall a List.mem_cons_self)
      obtain ⟨-, hlarger, hbetween⟩ := List.pairwise_append.mp hkeys
      have hsmall : ∀ m : List α, (∀ b ∈ m, key a ≤ key b) → grouped key smaller m = [] := by
        intro m hm
        rw [grouped, List.flatMap_eq_nil_iff]
        intro k hk
        refine filter_key_eq_nil fun b hb => ne_of_gt ?_
        exact lt_of_lt_of_le (hbetween k hk (key a) List.mem_cons_self) (hm b hb)
      have hlarge : grouped key larger (a :: l) = grouped key larger l := by
        refine List.flatMap_congr fun k hk => ?_
        rw [List.filter_cons_of_neg]
        simpa using ne_of_lt ((List.pairwise_cons.mp hlarger).1 k hk)
      have happend : ∀ m : List α, grouped key (smaller ++ key a :: larger) m =
          grouped key smaller m ++ ((m.filter fun b => key b = key a) ++ grouped key larger m) := by
        intro m
        rw [← grouped_cons, grouped, List.flatMap_append]
        rfl
      rw [happend, hsmall l hfirst, List.nil_append] at hsame
      rw [happend, hlarge, hsmall (a :: l), List.filter_cons_of_pos (by simp), List.nil_append,
        List.cons_append, hsame]
      intro b hb
      rcases List.mem_cons.mp hb with rfl | hb
      · exact le_refl _
      · exact hfirst b hb

end Grouping
