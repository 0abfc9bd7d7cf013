import Mathlib.Data.List.Nodup
import Mathlib.Data.Nat.Notation
import Mathlib.Logic.Function.Basic

/-!
One listener for each key, shared by the subscribers of the key: the first of
them attaches it, and it leaves with the last.
-/

namespace SharedListener

universe u v

/-- The shared objects by their numbers, the table that finds the one of a key,
and the listeners that the key has. -/
structure Heap (κ : Type u) (α : Type v) where
  entry : κ → Option ℕ
  attached : κ → List ℕ
  members : ℕ → List α
  made : ℕ

variable {κ : Type u} {α : Type v} [DecidableEq κ] [DecidableEq α]

def Heap.empty : Heap κ α := ⟨fun _ => none, fun _ => [], fun _ => [], 0⟩

namespace Heap

def add (members : List α) (a : α) : List α := if a ∈ members then members else members ++ [a]

def subscribe (h : Heap κ α) (k : κ) (a : α) : Heap κ α × ℕ :=
  match h.entry k with
  | some f => ({ h with members := Function.update h.members f (add (h.members f) a) }, f)
  | none =>
      ({ entry := Function.update h.entry k (some h.made)
         attached := Function.update h.attached k (h.attached k ++ [h.made])
         members := Function.update h.members h.made [a]
         made := h.made + 1 }, h.made)

def unsubscribe (h : Heap κ α) (k : κ) (f : ℕ) (a : α) : Heap κ α :=
  let rest := (h.members f).erase a
  if rest = [] then
    { h with
      entry := Function.update h.entry k none
      attached := Function.update h.attached k ((h.attached k).erase f)
      members := Function.update h.members f rest }
  else { h with members := Function.update h.members f rest }

def live (h : Heap κ α) (k : κ) : List α :=
  match h.entry k with
  | some f => h.members f
  | none => []

end Heap

structure Registered (h : Heap κ α) (k : κ) (f : ℕ) (a : α) : Prop where
  entry : h.entry k = some f
  mem : a ∈ h.members f

/-- A key has its listener while it has subscribers. -/
structure Coherent (h : Heap κ α) : Prop where
  attached : ∀ k, h.attached k = (h.entry k).toList
  entry : ∀ k f, h.entry k = some f → f < h.made ∧ h.members f ≠ [] ∧ (h.members f).Nodup
  owner : ∀ k k' f, h.entry k = some f → h.entry k' = some f → k = k'

omit [DecidableEq κ] [DecidableEq α] in
theorem coherent_empty : Coherent (Heap.empty : Heap κ α) where
  attached _ := rfl
  entry _ _ h := by cases h
  owner _ _ _ h := by cases h

variable {h : Heap κ α} {k : κ} {f : ℕ} {a : α}

namespace Heap

theorem mem_add {members : List α} {b : α} : b ∈ add members a ↔ b ∈ members ∨ b = a := by
  rw [add]
  split
  · next hmem =>
      refine ⟨.inl, ?_⟩
      rintro (hb | rfl)
      · exact hb
      · exact hmem
  · rw [List.mem_append, List.mem_singleton]

theorem nodup_add {members : List α} (hnodup : members.Nodup) (a : α) : (add members a).Nodup := by
  rw [add]
  split
  · exact hnodup
  · next hmem => exact List.nodup_append.mpr ⟨hnodup, List.nodup_singleton a, fun b hb c hc => by
      rw [List.mem_singleton] at hc
      rintro rfl
      exact hmem (hc ▸ hb)⟩

omit [DecidableEq κ] [DecidableEq α] in
theorem live_of_entry (hf : h.entry k = some f) : h.live k = h.members f := by rw [live, hf]

omit [DecidableEq κ] [DecidableEq α] in
theorem mem_live : a ∈ h.live k ↔ ∃ f, Registered h k f a := by
  rw [live]
  cases hentry : h.entry k with
  | none =>
      refine ⟨fun hmem => absurd hmem List.not_mem_nil, ?_⟩
      rintro ⟨f, hf⟩
      cases hentry.symm.trans hf.entry
  | some f =>
      refine ⟨fun hmem => ⟨f, hentry, hmem⟩, ?_⟩
      rintro ⟨f', hf⟩
      obtain rfl := Option.some.inj (hentry.symm.trans hf.entry)
      exact hf.mem

end Heap

namespace Coherent

omit [DecidableEq κ] [DecidableEq α] in
/-- Keys without subscribers have no listener, the others have one. -/
theorem attached_length (hh : Coherent h) (k : κ) :
    (h.attached k).length = if h.live k = [] then 0 else 1 := by
  rw [hh.attached, Heap.live]
  cases hentry : h.entry k with
  | none => simp
  | some f => simp [(hh.entry k f hentry).2.1]

theorem subscribe (hh : Coherent h) (k : κ) (a : α) : Coherent (h.subscribe k a).1 := by
  rw [Heap.subscribe]
  cases hentry : h.entry k with
  | some f =>
      refine ⟨hh.attached, fun k' f' hf' => ?_, hh.owner⟩
      obtain ⟨hmade, hne, hnodup⟩ := hh.entry k' f' hf'
      refine ⟨hmade, ?_⟩
      by_cases heq : f' = f
      · subst heq
        show Function.update h.members f' _ f' ≠ [] ∧ (Function.update h.members f' _ f').Nodup
        rw [Function.update_self]
        refine ⟨?_, Heap.nodup_add hnodup a⟩
        exact List.ne_nil_of_mem (Heap.mem_add.mpr (.inr rfl))
      · show Function.update h.members f _ f' ≠ [] ∧ (Function.update h.members f _ f').Nodup
        rw [Function.update_of_ne heq]
        exact ⟨hne, hnodup⟩
  | none =>
      refine ⟨fun k' => ?_, fun k' f' hf' => ?_, fun k₁ k₂ f' h₁ h₂ => ?_⟩
      · show Function.update h.attached k _ k' = (Function.update h.entry k _ k').toList
        by_cases heq : k' = k
        · subst heq
          rw [Function.update_self, Function.update_self, hh.attached, hentry]
          rfl
        · rw [Function.update_of_ne heq, Function.update_of_ne heq]
          exact hh.attached k'
      · change Function.update h.entry k _ k' = some f' at hf'
        show f' < h.made + 1 ∧ Function.update h.members h.made [a] f' ≠ [] ∧
          (Function.update h.members h.made [a] f').Nodup
        by_cases heq : k' = k
        · subst heq
          rw [Function.update_self] at hf'
          obtain rfl := Option.some.inj hf'
          rw [Function.update_self]
          exact ⟨Nat.lt_succ_self _, List.cons_ne_nil _ _, List.nodup_singleton a⟩
        · rw [Function.update_of_ne heq] at hf'
          obtain ⟨hmade, hkept⟩ := hh.entry k' f' hf'
          rw [Function.update_of_ne (Nat.ne_of_lt hmade)]
          exact ⟨Nat.lt_succ_of_lt hmade, hkept⟩
      · change Function.update h.entry k _ k₁ = some f' at h₁
        change Function.update h.entry k _ k₂ = some f' at h₂
        -- The new object has a number that no other key knows.
        have hold : ∀ k', k' ≠ k → Function.update h.entry k (some h.made) k' = some f' →
            h.entry k' = some f' ∧ f' ≠ h.made := by
          intro k' hne hk'
          rw [Function.update_of_ne hne] at hk'
          exact ⟨hk', Nat.ne_of_lt (hh.entry k' f' hk').1⟩
        by_cases heq₁ : k₁ = k
        · by_cases heq₂ : k₂ = k
          · exact heq₁.trans heq₂.symm
          · rw [heq₁, Function.update_self] at h₁
            exact absurd (Option.some.inj h₁).symm (hold k₂ heq₂ h₂).2
        · by_cases heq₂ : k₂ = k
          · rw [heq₂, Function.update_self] at h₂
            exact absurd (Option.some.inj h₂).symm (hold k₁ heq₁ h₁).2
          · exact hh.owner k₁ k₂ f' (hold k₁ heq₁ h₁).1 (hold k₂ heq₂ h₂).1

theorem unsubscribe (hh : Coherent h) (hf : h.entry k = some f) (a : α) :
    Coherent (h.unsubscribe k f a) := by
  have hsame : ∀ k' f', h.entry k' = some f' → k' ≠ k → f' ≠ f := by
    rintro k' f' hf' hne rfl
    exact hne (hh.owner k' k f' hf' hf)
  have hother : ∀ k' f', h.entry k' = some f' → k' ≠ k →
      f' < h.made ∧ Function.update h.members f ((h.members f).erase a) f' ≠ [] ∧
        (Function.update h.members f ((h.members f).erase a) f').Nodup := by
    intro k' f' hf' hne
    rw [Function.update_of_ne (hsame k' f' hf' hne)]
    exact hh.entry k' f' hf'
  rw [Heap.unsubscribe]
  split
  · refine ⟨fun k' => ?_, fun k' f' hf' => ?_, fun k₁ k₂ f' h₁ h₂ => ?_⟩
    · show Function.update h.attached k _ k' = (Function.update h.entry k none k').toList
      by_cases heq : k' = k
      · subst heq
        rw [Function.update_self, Function.update_self, hh.attached, hf]
        simp
      · rw [Function.update_of_ne heq, Function.update_of_ne heq]
        exact hh.attached k'
    · change Function.update h.entry k none k' = some f' at hf'
      have hne : k' ≠ k := by
        rintro rfl
        rw [Function.update_self] at hf'
        cases hf'
      rw [Function.update_of_ne hne] at hf'
      exact hother k' f' hf' hne
    · change Function.update h.entry k none k₁ = some f' at h₁
      change Function.update h.entry k none k₂ = some f' at h₂
      have hold : ∀ k', Function.update h.entry k none k' = some f' → h.entry k' = some f' := by
        intro k' hk'
        by_cases heq : k' = k
        · rw [heq, Function.update_self] at hk'
          cases hk'
        · rwa [Function.update_of_ne heq] at hk'
      exact hh.owner k₁ k₂ f' (hold k₁ h₁) (hold k₂ h₂)
  · next hne =>
      refine ⟨hh.attached, fun k' f' hf' => ?_, hh.owner⟩
      by_cases heq : k' = k
      · subst heq
        obtain rfl := Option.some.inj (hf.symm.trans hf')
        obtain ⟨hmade, -, hnodup⟩ := hh.entry k' f hf
        show f < h.made ∧ Function.update h.members f _ f ≠ [] ∧
          (Function.update h.members f _ f).Nodup
        rw [Function.update_self]
        exact ⟨hmade, hne, hnodup.erase a⟩
      · exact hother k' f' hf' heq

/-! ### The subscribers -/

theorem mem_live_subscribe (hh : Coherent h) {k' : κ} {b : α} :
    b ∈ (h.subscribe k a).1.live k' ↔ b ∈ h.live k' ∨ k' = k ∧ b = a := by
  rw [Heap.subscribe]
  cases hentry : h.entry k with
  | some f =>
      by_cases heq : k' = k
      · subst heq
        simp [Heap.live, hentry, Heap.mem_add]
      · simp only [Heap.live]
        cases hentry' : h.entry k' with
        | none => simp [heq]
        | some f' =>
            have hne : f' ≠ f := by
              rintro rfl
              exact heq (hh.owner k' k f' hentry' hentry)
            simp [Function.update_of_ne hne, heq]
  | none =>
      by_cases heq : k' = k
      · subst heq
        simp [Heap.live, hentry]
      · simp only [Heap.live, Function.update_of_ne heq]
        cases hentry' : h.entry k' with
        | none => simp [heq]
        | some f' =>
            have hne : f' ≠ h.made := Nat.ne_of_lt (hh.entry k' f' hentry').1
            simp [Function.update_of_ne hne, heq]

theorem mem_live_unsubscribe (hh : Coherent h) (hf : h.entry k = some f) {k' : κ} {b : α} :
    b ∈ (h.unsubscribe k f a).live k' ↔ b ∈ h.live k' ∧ ¬(k' = k ∧ b = a) := by
  obtain ⟨-, -, hnodup⟩ := hh.entry k f hf
  rw [Heap.unsubscribe]
  by_cases heq : k' = k
  · subst heq
    have hmem : b ∈ (h.members f).erase a ↔ b ∈ h.members f ∧ b ≠ a := by
      rw [hnodup.mem_erase_iff, and_comm]
    rw [Heap.live_of_entry hf]
    split
    · next hnil =>
        rw [hnil] at hmem
        simp [Heap.live, ← hmem]
    · simp [Heap.live, hf, hmem]
  · have hlive : (Function.update h.entry k none k').elim [] (Function.update h.members f
        ((h.members f).erase a)) = h.live k' := by
      rw [Function.update_of_ne heq, Heap.live]
      cases hentry' : h.entry k' with
      | none => rfl
      | some f' =>
          have hne : f' ≠ f := by
            rintro rfl
            exact heq (hh.owner k' k f' hentry' hf)
          exact Function.update_of_ne hne ..
    simp only [heq, false_and, not_false_eq_true, and_true]
    rw [← hlive, Function.update_of_ne heq]
    split
    · simp only [Heap.live, Function.update_of_ne heq]
      cases h.entry k' <;> rfl
    · simp only [Heap.live]
      cases h.entry k' <;> rfl

end Coherent

namespace Registered

/-- The subscription that `subscribe` makes. -/
theorem subscribe (h : Heap κ α) (k : κ) (a : α) :
    Registered (h.subscribe k a).1 k (h.subscribe k a).2 a := by
  rw [Heap.subscribe]
  cases hentry : h.entry k with
  | some f =>
      refine ⟨hentry, ?_⟩
      show a ∈ Function.update h.members f _ f
      rw [Function.update_self]
      exact Heap.mem_add.mpr (.inr rfl)
  | none =>
      refine ⟨Function.update_self .., ?_⟩
      show a ∈ Function.update h.members h.made [a] h.made
      rw [Function.update_self]
      exact List.mem_cons_self

/-- Subscribing keeps the other subscriptions. -/
theorem after_subscribe (hr : Registered h k f a) (hh : Coherent h) (k' : κ) (a' : α) :
    Registered (h.subscribe k' a').1 k f a := by
  rw [Heap.subscribe]
  cases hentry : h.entry k' with
  | some f' =>
      refine ⟨hr.entry, ?_⟩
      show a ∈ Function.update h.members f' _ f
      by_cases heq : f = f'
      · subst heq
        rw [Function.update_self]
        exact Heap.mem_add.mpr (.inl hr.mem)
      · rw [Function.update_of_ne heq]
        exact hr.mem
  | none =>
      have hne : k ≠ k' := by
        rintro rfl
        cases hentry.symm.trans hr.entry
      have hmade : f ≠ h.made := Nat.ne_of_lt (hh.entry k f hr.entry).1
      refine ⟨(Function.update_of_ne hne ..).trans hr.entry, ?_⟩
      show a ∈ Function.update h.members h.made _ f
      rw [Function.update_of_ne hmade]
      exact hr.mem

/-- Giving back one subscription keeps the others. -/
theorem after_unsubscribe (hr : Registered h k f a) (hh : Coherent h) {k' : κ} {f' : ℕ} {a' : α}
    (hf' : h.entry k' = some f') (hne : ¬(k = k' ∧ a = a')) :
    Registered (h.unsubscribe k' f' a') k f a := by
  have hlive : a ∈ (h.unsubscribe k' f' a').live k :=
    (hh.mem_live_unsubscribe hf').mpr ⟨Heap.mem_live.mpr ⟨f, hr⟩, hne⟩
  obtain ⟨f'', hr''⟩ := Heap.mem_live.mp hlive
  have hentry : h.entry k = some f'' := by
    have hafter := hr''.entry
    rw [Heap.unsubscribe] at hafter
    split at hafter
    · change Function.update h.entry k' none k = some f'' at hafter
      by_cases heq : k = k'
      · rw [heq, Function.update_self] at hafter
        cases hafter
      · rwa [Function.update_of_ne heq] at hafter
    · exact hafter
  obtain rfl := Option.some.inj (hr.entry.symm.trans hentry)
  exact hr''

end Registered

end SharedListener
