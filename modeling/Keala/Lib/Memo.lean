import Keala.Lib.OrderedMap

/-!
A table that keeps answers by their question, up to a bound: what it holds
stays right through every run of questions, full or not.
-/

namespace Memo

universe u v

variable {κ : Type u} {ν : Type v} [DecidableEq κ]

def remember (cap : ℕ) (memo : List (κ × ν)) (key : κ) (answer : ν) : List (κ × ν) :=
  if memo.length < cap then OrderedMap.set memo key answer else memo

/-- The table is within its bound and every answer in it is a right one. -/
structure Sound (cap : ℕ) (right : κ → ν → Prop) (memo : List (κ × ν)) : Prop where
  bounded : memo.length ≤ cap
  answers : ∀ {key : κ} {answer : ν}, OrderedMap.get? memo key = some answer → right key answer

variable {cap : ℕ} {right : κ → ν → Prop} {memo : List (κ × ν)}

theorem Sound.nil : Sound cap right ([] : List (κ × ν)) := by
  refine ⟨Nat.zero_le cap, fun h => ?_⟩
  cases h

theorem length_set_le (memo : List (κ × ν)) (key : κ) (answer : ν) :
    (OrderedMap.set memo key answer).length ≤ memo.length + 1 := by
  have hlength : ∀ m : List (κ × ν), (OrderedMap.keys m).length = m.length :=
    fun m => List.length_map _
  rw [← hlength, ← hlength, OrderedMap.keys_set]
  by_cases hkey : key ∈ OrderedMap.keys memo
  · rw [if_pos hkey]
    exact Nat.le_succ _
  · rw [if_neg hkey, List.length_append, List.length_singleton]

theorem Sound.remember (h : Sound cap right memo) {key : κ} {answer : ν}
    (hright : right key answer) : Sound cap right (remember cap memo key answer) := by
  unfold Memo.remember
  split
  · next hroom =>
      refine ⟨Nat.le_trans (length_set_le memo key answer) hroom, ?_⟩
      intro other found hfound
      rw [OrderedMap.get?_set] at hfound
      split at hfound
      · next heq =>
          cases hfound
          exact heq ▸ hright
      · exact h.answers hfound
  · exact h

/-- A run keeps the table right when each of its steps does. -/
theorem Sound.foldl {ask : List (κ × ν) → κ → List (κ × ν)}
    (hstep : ∀ memo, Sound cap right memo → ∀ key, Sound cap right (ask memo key))
    (h : Sound cap right memo) (keys : List κ) : Sound cap right (keys.foldl ask memo) := by
  induction keys generalizing memo with
  | nil => exact h
  | cons key keys ih => exact ih (hstep memo h key)

end Memo
