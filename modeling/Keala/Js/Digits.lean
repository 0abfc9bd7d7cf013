import Keala.Js.Text
import Mathlib.Data.Nat.Digits.Lemmas

/-!
Numbers written in decimal and hexadecimal digits.
-/

namespace Keala.Js

def isDigit (c : CodeUnit) : Bool := 48 ≤ c && c ≤ 57

def isHexDigit (c : CodeUnit) : Bool := (hexValue c).isSome

def decimalValue (text : JsString) : ℕ := text.foldl (fun value c => 10 * value + (c.toNat - 48)) 0

def hexadecimalValue (text : JsString) : ℕ :=
  text.foldl (fun value c => 16 * value + (hexValue c).getD 0) 0

def hexDigitLower (n : ℕ) : CodeUnit := if n < 10 then (48 + n).toUInt16 else (87 + n).toUInt16

/-- `toString(16)`. -/
def hexText (n : ℕ) : JsString :=
  if n = 0 then js "0" else ((Nat.digits 16 n).map hexDigitLower).reverse

example : hexText 0x1a2 = js "1a2" := by decide +kernel

theorem hexValue_hexDigitLower {n : ℕ} (h : n < 16) : hexValue (hexDigitLower n) = some n := by
  revert n
  decide

theorem hexadecimalValue_hexText (n : ℕ) : hexadecimalValue (hexText n) = n := by
  rw [hexText]
  split
  · next hzero =>
      subst hzero
      decide
  · rw [hexadecimalValue, List.foldl_reverse, List.foldr_map]
    have hdigits : ∀ d ∈ Nat.digits 16 n, d < 16 := fun d hd => Nat.digits_lt_base (by decide) hd
    nth_rewrite 2 [← Nat.ofDigits_digits 16 n]
    generalize Nat.digits 16 n = digits at hdigits
    induction digits with
    | nil => rfl
    | cons d ds ih =>
        have hd := hexValue_hexDigitLower (hdigits d List.mem_cons_self)
        have hrest := ih fun e he => hdigits e (List.mem_cons_of_mem _ he)
        rw [List.foldr_cons, hrest, Nat.ofDigits_cons, hd]
        exact Nat.add_comm _ _

theorem isHexDigit_of_mem_hexText {n : ℕ} {c : CodeUnit} (h : c ∈ hexText n) :
    isHexDigit c = true := by
  rw [hexText] at h
  split at h
  · obtain rfl : c = 48 := List.mem_singleton.mp h
    decide
  · rw [List.mem_reverse, List.mem_map] at h
    obtain ⟨d, hd, rfl⟩ := h
    rw [isHexDigit, hexValue_hexDigitLower (Nat.digits_lt_base (by decide) hd)]
    rfl

theorem length_hexText {n : ℕ} (h : n < 16 ^ 4) :
    1 ≤ (hexText n).length ∧ (hexText n).length ≤ 4 := by
  rw [hexText]
  split
  · decide
  · next hne =>
      rw [List.length_reverse, List.length_map]
      refine ⟨?_, (Nat.digits_length_le_iff (by decide) n).mpr h⟩
      exact List.length_pos_iff.mpr (Nat.digits_ne_nil_iff_ne_zero.mpr hne)

/-- A text of k hexadecimal digits is below 16 to the k. -/
theorem hexadecimalValue_lt (text : JsString) : hexadecimalValue text < 16 ^ text.length := by
  induction text using List.reverseRecOn with
  | nil => decide
  | append_singleton text c ih =>
      have hdigit : (hexValue c).getD 0 < 16 := by
        rw [hexValue]
        split_ifs with h₁ h₂ h₃ <;> simp only [Option.getD_some, Option.getD_none]
        · have := UInt16.le_iff_toNat_le.mp h₁.2
          simp at this
          omega
        · have := UInt16.le_iff_toNat_le.mp h₂.2
          simp at this
          omega
        · have := UInt16.le_iff_toNat_le.mp h₃.2
          simp at this
          omega
        · omega
      rw [hexadecimalValue, List.foldl_append, List.foldl_cons, List.foldl_nil,
        List.length_append, List.length_singleton, Nat.pow_succ]
      change 16 * hexadecimalValue text + _ < _
      omega

/-! ### Decimal text -/

def decimalDigit (n : ℕ) : CodeUnit := (48 + n).toUInt16

def decimalText (n : ℕ) : JsString :=
  if n = 0 then js "0" else ((Nat.digits 10 n).map decimalDigit).reverse

theorem decimalDigit_spec {n : ℕ} (h : n < 10) :
    (decimalDigit n).toNat = 48 + n ∧ isDigit (decimalDigit n) = true := by
  revert n
  decide

theorem decimalText_lone {d : ℕ} (h : d < 10) : decimalText d = [decimalDigit d] := by
  rcases Nat.eq_zero_or_pos d with rfl | hd
  · rfl
  · rw [decimalText, if_neg (by omega), Nat.digits_of_lt 10 d (by omega) h]
    rfl

/-- The last digit of a number of several. -/
theorem decimalText_concat {n d : ℕ} (hn : 0 < n) (hd : d < 10) :
    decimalText (10 * n + d) = decimalText n ++ [decimalDigit d] := by
  rw [decimalText, decimalText, if_neg (by omega), if_neg (by omega), Nat.add_comm,
    Nat.digits_add 10 (by decide) d n hd (.inr (by omega)), List.map_cons, List.reverse_cons]

theorem decimalValue_concat (text : JsString) (c : CodeUnit) :
    decimalValue (text ++ [c]) = 10 * decimalValue text + (c.toNat - 48) := by
  rw [decimalValue, List.foldl_append]
  rfl

theorem decimalValue_decimalText (n : ℕ) : decimalValue (decimalText n) = n := by
  induction n using Nat.strong_induction_on with
  | _ n ih =>
      have hdigit := (decimalDigit_spec (Nat.mod_lt n (by decide : 0 < 10))).1
      by_cases h : n < 10
      · rw [decimalText_lone h]
        rw [Nat.mod_eq_of_lt h] at hdigit
        simp [decimalValue, hdigit]
      · rw [← Nat.div_add_mod n 10, decimalText_concat (by omega) (Nat.mod_lt n (by decide)),
          decimalValue_concat, ih (n / 10) (by omega), hdigit]
        omega

theorem isDigit_of_mem_decimalText {n : ℕ} {c : CodeUnit} (h : c ∈ decimalText n) :
    isDigit c = true := by
  rw [decimalText] at h
  split at h
  · obtain rfl : c = 48 := List.mem_singleton.mp h
    decide
  · rw [List.mem_reverse, List.mem_map] at h
    obtain ⟨d, hd, rfl⟩ := h
    exact (decimalDigit_spec (Nat.digits_lt_base (by decide) hd)).2

theorem length_decimalText {n : ℕ} (h : n ≠ 0) : (decimalText n).length = Nat.log 10 n + 1 := by
  rw [decimalText, if_neg h, List.length_reverse, List.length_map,
    Nat.length_digits 10 n (by decide) h]

theorem decimalText_ne_nil (n : ℕ) : decimalText n ≠ [] := by
  rcases Nat.eq_zero_or_pos n with rfl | hn
  · decide
  · intro hnil
    have hlength := length_decimalText (Nat.ne_of_gt hn)
    rw [hnil] at hlength
    cases hlength

/-- A power of ten puts zeros behind the digits. -/
theorem decimalText_mul_pow {n : ℕ} (h : 0 < n) (e : ℕ) :
    decimalText (n * 10 ^ e) = decimalText n ++ List.replicate e 48 := by
  induction e with
  | zero => rw [Nat.pow_zero, Nat.mul_one, List.replicate_zero, List.append_nil]
  | succ e ih =>
      have hstep := decimalText_concat (n := n * 10 ^ e) (d := 0)
        (Nat.mul_pos h (Nat.pow_pos (by decide))) (by decide)
      rw [show n * 10 ^ (e + 1) = 10 * (n * 10 ^ e) + 0 by rw [Nat.pow_succ]; ring, hstep, ih,
        List.replicate_succ', List.append_assoc]
      rfl

theorem decimalValue_zeros (text : JsString) (e : ℕ) :
    decimalValue (text ++ List.replicate e 48) = decimalValue text * 10 ^ e := by
  induction e with
  | zero => rw [List.replicate_zero, List.append_nil, Nat.pow_zero, Nat.mul_one]
  | succ e ih =>
      rw [List.replicate_succ', ← List.append_assoc, decimalValue_concat, ih, Nat.pow_succ]
      change 10 * _ + 0 = _
      ring

end Keala.Js
