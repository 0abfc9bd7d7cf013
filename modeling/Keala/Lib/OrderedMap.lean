import Mathlib.Data.List.Basic
import Mathlib.Data.List.Nodup
import Mathlib.Algebra.BigOperators.Group.List.Basic
import Mathlib.Order.Lattice
import Mathlib.Tactic.Abel

/-!
Insertion-ordered maps: association lists in which overwriting a key keeps
its place and a new key goes to the end. Iterating over the map is iterating
over the list.
-/

namespace OrderedMap

universe u v

variable {κ : Type u} {α : Type v}

def keys (m : List (κ × α)) : List κ := m.map Prod.fst

@[simp] theorem keys_nil : keys ([] : List (κ × α)) = [] := rfl

@[simp] theorem keys_cons (p : κ × α) (m : List (κ × α)) :
    keys (p :: m) = p.1 :: keys m := rfl

theorem mem_keys {m : List (κ × α)} {k : κ} {a : α} (h : (k, a) ∈ m) : k ∈ keys m :=
  List.mem_map_of_mem h

variable [DecidableEq κ]

def get? : List (κ × α) → κ → Option α
  | [], _ => none
  | (k', a) :: m, k => if k' = k then some a else get? m k

def set : List (κ × α) → κ → α → List (κ × α)
  | [], k, a => [(k, a)]
  | (k', a') :: m, k, a => if k' = k then (k, a) :: m else (k', a') :: set m k a

def delete : List (κ × α) → κ → List (κ × α)
  | [], _ => []
  | (k', a) :: m, k => if k' = k then m else (k', a) :: delete m k

@[simp] theorem get?_nil (k : κ) : get? ([] : List (κ × α)) k = none := rfl

theorem get?_cons (k' : κ) (a : α) (m : List (κ × α)) (k : κ) :
    get? ((k', a) :: m) k = if k' = k then some a else get? m k := rfl

@[simp] theorem get?_set_self (m : List (κ × α)) (k : κ) (a : α) :
    get? (set m k a) k = some a := by
  induction m with
  | nil => simp [set, get?]
  | cons p m ih =>
      obtain ⟨k', a'⟩ := p
      by_cases h : k' = k
      · simp [set, get?, h]
      · simp [set, get?, h, ih]

theorem get?_set_ne (m : List (κ × α)) {k j : κ} (a : α) (h : k ≠ j) :
    get? (set m k a) j = get? m j := by
  induction m with
  | nil => simp [set, get?, h]
  | cons p m ih =>
      obtain ⟨k', a'⟩ := p
      by_cases hk : k' = k
      · subst hk
        simp [set, get?, h]
      · simp [set, get?, hk, ih]

theorem get?_set (m : List (κ × α)) (k j : κ) (a : α) :
    get? (set m k a) j = if k = j then some a else get? m j := by
  split
  · next h => subst h; exact get?_set_self m k a
  · next h => exact get?_set_ne m a h

theorem mem_of_get? {m : List (κ × α)} {k : κ} {a : α} (h : get? m k = some a) :
    (k, a) ∈ m := by
  induction m with
  | nil => simp at h
  | cons p m ih =>
      obtain ⟨k', a'⟩ := p
      rw [get?_cons] at h
      split at h
      · next hk => subst hk; cases h; exact List.mem_cons_self
      · exact List.mem_cons_of_mem _ (ih h)

theorem get?_eq_none_iff (m : List (κ × α)) (k : κ) :
    get? m k = none ↔ k ∉ keys m := by
  induction m with
  | nil => simp
  | cons p m ih =>
      obtain ⟨k', a'⟩ := p
      rw [get?_cons]
      by_cases h : k' = k
      · simp [h]
      · simp [h, ih, Ne.symm h]

theorem get?_eq_some_iff {m : List (κ × α)} (hm : (keys m).Nodup) (k : κ) (a : α) :
    get? m k = some a ↔ (k, a) ∈ m := by
  refine ⟨mem_of_get?, fun h => ?_⟩
  induction m with
  | nil => simp at h
  | cons p m ih =>
      obtain ⟨k', a'⟩ := p
      rw [keys_cons, List.nodup_cons] at hm
      rw [get?_cons]
      rcases List.mem_cons.mp h with heq | hmem
      · cases heq
        simp
      · have hne : k' ≠ k := by
          rintro rfl
          exact hm.1 (mem_keys hmem)
        simp [hne, ih hm.2 hmem]

/-- Overwriting keeps the order of the keys; a new key comes last. -/
theorem keys_set (m : List (κ × α)) (k : κ) (a : α) :
    keys (set m k a) = if k ∈ keys m then keys m else keys m ++ [k] := by
  induction m with
  | nil => simp [set]
  | cons p m ih =>
      obtain ⟨k', a'⟩ := p
      by_cases h : k' = k
      · simp [set, h]
      · rw [set, if_neg h, keys_cons, ih, keys_cons]
        by_cases hm : k ∈ keys m
        · simp [hm]
        · simp [hm, Ne.symm h]

theorem nodup_set {m : List (κ × α)} (hm : (keys m).Nodup) (k : κ) (a : α) :
    (keys (set m k a)).Nodup := by
  rw [keys_set]
  split
  · exact hm
  · next h =>
      rw [List.nodup_append]
      refine ⟨hm, List.nodup_singleton k, ?_⟩
      rintro x hx y hy rfl
      rw [List.mem_singleton] at hy
      exact h (hy ▸ hx)

theorem mem_set_iff {m : List (κ × α)} (hm : (keys m).Nodup) (k j : κ) (a b : α) :
    (j, b) ∈ set m k a ↔ if k = j then a = b else (j, b) ∈ m := by
  rw [← get?_eq_some_iff (nodup_set hm k a), get?_set]
  split
  · simp
  · rw [get?_eq_some_iff hm]

theorem set_set (m : List (κ × α)) (k : κ) (a b : α) : set (set m k a) k b = set m k b := by
  induction m with
  | nil => simp [set]
  | cons p m ih =>
      obtain ⟨k', a'⟩ := p
      by_cases h : k' = k
      · simp [set, h]
      · simp [set, h, ih]

theorem set_eq_self {m : List (κ × α)} {k : κ} {a : α} (h : get? m k = some a) :
    set m k a = m := by
  induction m with
  | nil => simp at h
  | cons p m ih =>
      obtain ⟨k', a'⟩ := p
      rw [get?_cons] at h
      split at h
      · next hk => cases h; simp [set, hk]
      · next hk => simp [set, hk, ih h]

theorem get?_delete_ne (m : List (κ × α)) {k j : κ} (h : k ≠ j) :
    get? (delete m k) j = get? m j := by
  induction m with
  | nil => rfl
  | cons p m ih =>
      obtain ⟨k', a'⟩ := p
      rw [delete]
      split
      · next heq => rw [get?_cons, if_neg (heq ▸ h)]
      · rw [get?_cons, get?_cons, ih]

theorem get?_delete_self {m : List (κ × α)} (hm : (keys m).Nodup) (k : κ) :
    get? (delete m k) k = none := by
  induction m with
  | nil => rfl
  | cons p m ih =>
      obtain ⟨k', a'⟩ := p
      rw [keys_cons, List.nodup_cons] at hm
      rw [delete]
      split
      · next heq =>
          rw [get?_eq_none_iff, ← heq]
          exact hm.1
      · next hne => rw [get?_cons, if_neg hne, ih hm.2]

theorem delete_sublist (m : List (κ × α)) (k : κ) : (delete m k).Sublist m := by
  induction m with
  | nil => exact List.Sublist.refl _
  | cons p m ih =>
      obtain ⟨k', a'⟩ := p
      rw [delete]
      split
      · exact List.sublist_cons_self _ _
      · exact ih.cons_cons _

theorem keys_delete_sublist (m : List (κ × α)) (k : κ) :
    (keys (delete m k)).Sublist (keys m) := (delete_sublist m k).map Prod.fst

theorem get?_foldl_delete {m : List (κ × α)} (hm : (keys m).Nodup) (ks : List κ) (k : κ) :
    get? (ks.foldl delete m) k = if k ∈ ks then none else get? m k := by
  induction ks generalizing m with
  | nil => simp
  | cons k' ks ih =>
      rw [List.foldl_cons, ih (hm.sublist (keys_delete_sublist m k'))]
      by_cases heq : k' = k
      · subst heq
        rw [get?_delete_self hm]
        simp
      · rw [get?_delete_ne _ heq]
        simp [Ne.symm heq]

theorem nodup_foldl_delete {m : List (κ × α)} (hm : (keys m).Nodup) (ks : List κ) :
    (keys (ks.foldl delete m)).Nodup := by
  induction ks generalizing m with
  | nil => exact hm
  | cons k ks ih => exact ih (hm.sublist (keys_delete_sublist m k))

/-- Deleting a key undoes the insertion that brought it. -/
theorem delete_set {m : List (κ × α)} {k : κ} (h : get? m k = none) (a : α) :
    delete (set m k a) k = m := by
  induction m with
  | nil => simp [set, delete]
  | cons p m ih =>
      obtain ⟨k', a'⟩ := p
      rw [get?_cons] at h
      split at h
      · exact absurd h (by simp)
      · next hk => simp [set, delete, hk, ih h]

/-! ### The order of the entries -/

def behind (m : List (κ × α)) (k : κ) : List (κ × α) := (m.dropWhile fun e => e.1 ≠ k).tail

theorem set_of_get?_eq_none {m : List (κ × α)} {k : κ} (h : get? m k = none) (a : α) :
    set m k a = m ++ [(k, a)] := by
  induction m with
  | nil => rfl
  | cons p m ih =>
      obtain ⟨k', a'⟩ := p
      rw [get?_cons] at h
      split at h
      · cases h
      · next hk => rw [set, if_neg hk, ih h, List.cons_append]

/-- Around an entry: what stands before it, what `set` and `delete` make of it. -/
theorem split_of_get? {m : List (κ × α)} {k : κ} {b : α} (h : get? m k = some b) :
    ∃ front, m = front ++ (k, b) :: behind m k ∧
      (∀ a, set m k a = front ++ (k, a) :: behind m k) ∧ delete m k = front ++ behind m k := by
  induction m with
  | nil => cases h
  | cons p m ih =>
      obtain ⟨k', a'⟩ := p
      rw [get?_cons] at h
      by_cases hk : k' = k
      · subst hk
        rw [if_pos rfl] at h
        cases h
        have hbehind : behind ((k', b) :: m) k' = m := by simp [behind]
        rw [hbehind]
        exact ⟨[], rfl, fun a => by simp [set], by simp [delete]⟩
      · rw [if_neg hk] at h
        obtain ⟨front, hm, hset, hdelete⟩ := ih h
        have hbehind : behind ((k', a') :: m) k = behind m k := by
          rw [behind, List.dropWhile_cons_of_pos (by simpa using hk), behind]
        rw [hbehind]
        refine ⟨(k', a') :: front, ?_, ?_, ?_⟩
        · rw [List.cons_append, ← hm]
        · intro a
          rw [set, if_neg hk, hset a, List.cons_append]
        · rw [delete, if_neg hk, hdelete, List.cons_append]

section Age

variable {τ : Type*} [LinearOrder τ] (age : α → τ)

def Aged (m : List (κ × α)) : Prop := m.Pairwise fun e f => age e.2 ≤ age f.2

variable {age}

/-- Dropping entries from the front drops the oldest. -/
theorem Aged.oldest {m rest : List (κ × α)} (h : Aged age m) (hrest : rest <:+ m)
    (hm : (keys m).Nodup) {k : κ} {b : α} (hk : get? m k = some b) (hdropped : k ∉ keys rest)
    {e : κ × α} (he : e ∈ rest) : age b ≤ age e.2 := by
  obtain ⟨front, rfl⟩ := hrest
  have hmem : (k, b) ∈ front := by
    rcases List.mem_append.mp (mem_of_get? hk) with hfront | hback
    · exact hfront
    · exact absurd (mem_keys hback) hdropped
  exact (List.pairwise_append.mp h).2.2 (k, b) hmem e he

/-- An entry may be overwritten by one of its age. -/
theorem Aged.set_same {m : List (κ × α)} (h : Aged age m) {k : κ} {a b : α}
    (hk : get? m k = some b) (ha : age a = age b) : Aged age (set m k a) := by
  obtain ⟨front, hm, hset, -⟩ := split_of_get? hk
  rw [hset a, Aged, List.pairwise_append, List.pairwise_cons]
  rw [hm, Aged, List.pairwise_append, List.pairwise_cons] at h
  refine ⟨h.1, ⟨fun e he => ?_, h.2.1.2⟩, ?_⟩
  · rw [ha]
    exact h.2.1.1 e he
  · intro e he f hf
    rcases List.mem_cons.mp hf with rfl | hf
    · rw [ha]
      exact h.2.2 e he (k, b) List.mem_cons_self
    · exact h.2.2 e he f (List.mem_cons_of_mem _ hf)

/-- A new key may be as young as any. -/
theorem Aged.set_new {m : List (κ × α)} (h : Aged age m) {k : κ} (hk : get? m k = none) {a : α}
    (ha : ∀ e ∈ m, age e.2 ≤ age a) : Aged age (set m k a) := by
  rw [set_of_get?_eq_none hk, Aged, List.pairwise_append]
  refine ⟨h, List.pairwise_singleton _ _, ?_⟩
  intro e he f hf
  rw [List.mem_singleton] at hf
  subst hf
  exact ha e he

/-- An overwritten entry keeps its place, and fits there while none behind it is older. -/
theorem Aged.set_old {m : List (κ × α)} (h : Aged age m) {k : κ} {b : α} (hk : get? m k = some b)
    {a : α} (ha : ∀ e ∈ m, age e.2 ≤ age a) (hbehind : ∀ e ∈ behind m k, age a ≤ age e.2) :
    Aged age (set m k a) := by
  obtain ⟨front, hm, hset, -⟩ := split_of_get? hk
  rw [hset a, Aged, List.pairwise_append, List.pairwise_cons]
  rw [hm, Aged, List.pairwise_append, List.pairwise_cons] at h
  refine ⟨h.1, ⟨fun e he => hbehind e he, h.2.1.2⟩, ?_⟩
  intro e he f hf
  rcases List.mem_cons.mp hf with rfl | hf
  · apply ha
    rw [hm]
    exact List.mem_append_left _ he
  · exact h.2.2 e he f (List.mem_cons_of_mem _ hf)

theorem Aged.delete {m : List (κ × α)} (h : Aged age m) (k : κ) : Aged age (delete m k) :=
  h.sublist (delete_sublist m k)

end Age

section Weight

variable {G : Type*} [AddCommGroup G] (f : α → G)

def weight (m : List (κ × α)) : G := (m.map fun e => f e.2).sum

omit [DecidableEq κ] in
@[simp] theorem weight_nil : weight f ([] : List (κ × α)) = 0 := rfl

omit [DecidableEq κ] in
@[simp] theorem weight_cons (e : κ × α) (m : List (κ × α)) :
    weight f (e :: m) = f e.2 + weight f m := List.sum_cons

omit [DecidableEq κ] in
@[simp] theorem weight_append (m n : List (κ × α)) :
    weight f (m ++ n) = weight f m + weight f n := by
  rw [weight, List.map_append, List.sum_append, weight, weight]

theorem weight_set_new {m : List (κ × α)} {k : κ} (h : get? m k = none) (a : α) :
    weight f (set m k a) = weight f m + f a := by
  rw [set_of_get?_eq_none h]
  simp

theorem weight_set_old {m : List (κ × α)} {k : κ} {b : α} (h : get? m k = some b) (a : α) :
    weight f (set m k a) = weight f m - f b + f a := by
  obtain ⟨front, hm, hset, -⟩ := split_of_get? h
  rw [hset a]
  nth_rewrite 2 [hm]
  simp only [weight_append, weight_cons]
  abel

theorem weight_delete {m : List (κ × α)} {k : κ} {b : α} (h : get? m k = some b) :
    weight f (delete m k) = weight f m - f b := by
  obtain ⟨front, hm, -, hdelete⟩ := split_of_get? h
  rw [hdelete]
  nth_rewrite 2 [hm]
  simp only [weight_append, weight_cons]
  abel

end Weight

end OrderedMap
