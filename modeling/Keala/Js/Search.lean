import Keala.Js.Split

/-!
The first occurrence of a text in another, and of a unit behind a text without it.
-/

namespace Keala.Js

variable {pattern text : JsString} {i : ℕ}

theorem indexOfText_none (h : indexOfText pattern text = none) (j : ℕ) :
    startsWith (text.drop j) pattern = false := by
  induction text generalizing j with
  | nil =>
      rw [List.drop_nil]
      cases pattern with
      | nil => cases h
      | cons c pattern => rfl
  | cons c text ih =>
      rw [indexOfText] at h
      split at h
      · cases h
      · next hstart =>
          rw [Option.map_eq_none_iff] at h
          cases j with
          | zero => exact Bool.eq_false_iff.mpr hstart
          | succ j => exact ih h j

theorem indexOfText_some (h : indexOfText pattern text = some i) :
    startsWith (text.drop i) pattern = true ∧
      ∀ j < i, startsWith (text.drop j) pattern = false := by
  induction text generalizing i with
  | nil =>
      rw [indexOfText] at h
      split at h
      · next hempty =>
          cases h
          subst hempty
          exact ⟨rfl, fun j hj => absurd hj (Nat.not_lt_zero j)⟩
      · cases h
  | cons c text ih =>
      rw [indexOfText] at h
      split at h
      · next hstart =>
          cases h
          exact ⟨hstart, fun j hj => absurd hj (Nat.not_lt_zero j)⟩
      · next hstart =>
          obtain ⟨k, hk, rfl⟩ := Option.map_eq_some_iff.mp h
          obtain ⟨hfound, hbefore⟩ := ih hk
          refine ⟨hfound, fun j hj => ?_⟩
          cases j with
          | zero => exact Bool.eq_false_iff.mpr hstart
          | succ j => exact hbefore j (Nat.lt_of_succ_lt_succ hj)

theorem startsWith_iff {text pre : JsString} :
    startsWith text pre = true ↔ ∃ rest, text = pre ++ rest := by
  rw [startsWith, List.isPrefixOf_iff_prefix]
  exact ⟨fun ⟨rest, h⟩ => ⟨rest, h.symm⟩, fun ⟨rest, h⟩ => ⟨rest, h.symm⟩⟩

/-- One unit behind a text without it. -/
theorem indexOfText_unit {c : CodeUnit} (h : c ∉ text) (rest : JsString) :
    indexOfText [c] (text ++ c :: rest) = some text.length := by
  induction text with
  | nil => simp [indexOfText, startsWith]
  | cons d text ih =>
      rw [List.mem_cons, not_or] at h
      rw [List.cons_append, indexOfText, if_neg (by simp [startsWith, h.1]), ih h.2]
      rfl

theorem indexOfText_unit_none {c : CodeUnit} (h : c ∉ text) : indexOfText [c] text = none := by
  induction text with
  | nil => rfl
  | cons d text ih =>
      rw [List.mem_cons, not_or] at h
      rw [indexOfText, if_neg (by simp [startsWith, h.1]), ih h.2]
      rfl

theorem length_split_le (sep : CodeUnit) (text : JsString) :
    (split sep text).length ≤ text.length + 1 := by
  induction text with
  | nil => exact Nat.le_refl 1
  | cons c text ih =>
      rw [split, List.splitOn_cons_eq_if_modifyHead]
      split
      · exact Nat.succ_le_succ ih
      · rw [List.length_modifyHead]
        exact Nat.le_succ_of_le ih

theorem indexOf_append_cons {c : CodeUnit} (h : c ∉ text) (rest : JsString) :
    indexOf (text ++ c :: rest) c = some text.length := by
  rw [indexOf, List.findIdx?_eq_some_iff_getElem]
  refine ⟨by simp, by simp, fun j hj => ?_⟩
  rw [List.getElem_append_left hj]
  have hmem := List.getElem_mem hj
  simp only [beq_iff_eq]
  intro heq
  exact h (heq ▸ hmem)

theorem indexOf_none {c : CodeUnit} (h : c ∉ text) : indexOf text c = none := by
  rw [indexOf, List.findIdx?_eq_none_iff]
  intro d hd
  rw [beq_eq_false_iff_ne]
  rintro rfl
  exact h hd

theorem lastIndexOf_append_cons {rest : JsString} {c : CodeUnit} (text : JsString) (h : c ∉ rest) :
    lastIndexOf (text ++ c :: rest) c = some text.length := by
  have hreverse : (text ++ c :: rest).reverse = rest.reverse ++ c :: text.reverse := by simp
  have hfirst := indexOf_append_cons (List.mem_reverse.not.mpr h) text.reverse
  rw [indexOf] at hfirst
  rw [lastIndexOf, hreverse, hfirst, Option.map_some]
  simp

end Keala.Js
