import Keala.Js.ParseFloat
import Mathlib.Data.List.DropRight

/-!
The text of a number: the shortest decimal that rounds to it. The whole
numbers of up to 53 bits are written out digit by digit.
-/

namespace Keala.Js

/-! ### Rounding whole numbers -/

theorem roundHalfEven_intCast (z : ℤ) : roundHalfEven z = z := by
  rw [roundHalfEven]
  simp

/-- Rounding stays above a whole number. -/
theorem le_roundHalfEven {m : ℤ} {x : ℚ} (h : (m : ℚ) ≤ x) : m ≤ roundHalfEven x := by
  have hfloor : m ≤ ⌊x⌋ := Int.le_floor.mpr h
  rw [roundHalfEven]
  split_ifs <;> omega

theorem not_le_neg_pow {x : ℚ} (h : 0 ≤ x) : ¬x ≤ -(2 : ℚ) ^ 1024 :=
  not_le.mpr ((neg_neg_of_pos (by positivity)).trans_le h)

/-- The whole numbers of up to 53 bits are doubles. -/
theorem roundDouble_natCast {m : ℕ} (h : m < 2 ^ 53) : roundDouble m = .finite m := by
  have hlog : Int.log 2 |(m : ℚ)| ≤ 52 := by
    rw [Nat.abs_cast, Int.log_natCast]
    rcases Nat.eq_zero_or_pos m with rfl | hm
    · decide
    · have := Nat.log_lt_of_lt_pow (by omega) h
      omega
  obtain ⟨j, hj⟩ : ∃ j : ℕ, max (Int.log 2 |(m : ℚ)| - 52) (-1074) = -(j : ℤ) :=
    ⟨(-max (Int.log 2 |(m : ℚ)| - 52) (-1074)).toNat, by omega⟩
  have hunit : (m : ℚ) / 2 ^ (-(j : ℤ)) = ((m * 2 ^ j : ℤ) : ℚ) := by
    rw [zpow_neg, div_inv_eq_mul, zpow_natCast]
    norm_cast
  have hlt : (m : ℚ) < 2 ^ 1024 := by
    calc (m : ℚ) < 2 ^ 53 := by exact_mod_cast h
      _ ≤ 2 ^ 1024 := pow_le_pow_right₀ (by norm_num) (by omega)
  have hback : ((m * 2 ^ j : ℤ) : ℚ) * 2 ^ (-(j : ℤ)) = m := by
    rw [← hunit]
    exact div_mul_cancel₀ _ (zpow_ne_zero _ (by norm_num))
  rw [roundDouble]
  rw [hj, hunit, roundHalfEven_intCast, hback, if_neg (not_le.mpr hlt),
    if_neg (not_le_neg_pow (Nat.cast_nonneg m))]

/-- What is beyond them stays beyond them. -/
theorem roundDouble_large {x : ℚ} (h : 2 ^ 53 ≤ x) :
    roundDouble x = .infinity ∨ ∃ y, roundDouble x = .finite y ∧ 2 ^ 53 ≤ y := by
  have hpos : 0 < x := lt_of_lt_of_le (by norm_num) h
  have hlog : 53 ≤ Int.log 2 x := by
    apply (Int.zpow_le_iff_le_log (by decide) hpos).mp
    exact_mod_cast h
  have hmax : max (Int.log 2 |x| - 52) (-1074) = Int.log 2 x - 52 := by
    rw [abs_of_pos hpos]
    omega
  have hunit : (2 : ℚ) ≤ 2 ^ (Int.log 2 x - 52) := by
    calc (2 : ℚ) = 2 ^ (1 : ℤ) := by norm_num
      _ ≤ 2 ^ (Int.log 2 x - 52) := zpow_le_zpow_right₀ (by norm_num) (by omega)
  have hquotient : (((2 ^ 52 : ℕ) : ℤ) : ℚ) ≤ x / 2 ^ (Int.log 2 x - 52) := by
    rw [le_div_iff₀ (by positivity)]
    calc (((2 ^ 52 : ℕ) : ℤ) : ℚ) * 2 ^ (Int.log 2 x - 52)
        = 2 ^ (52 : ℤ) * 2 ^ (Int.log 2 x - 52) := by norm_num
      _ = 2 ^ Int.log 2 x := by rw [← zpow_add₀ (by norm_num)]; congr 1; omega
      _ ≤ x := Int.zpow_log_le_self (by decide) hpos
  have hrounded := le_roundHalfEven hquotient
  have hlarge : (2 : ℚ) ^ 53 ≤
      roundHalfEven (x / 2 ^ (Int.log 2 x - 52)) * 2 ^ (Int.log 2 x - 52) := by
    calc (2 : ℚ) ^ 53 = ((2 ^ 52 : ℕ) : ℤ) * 2 := by norm_num
      _ ≤ _ := mul_le_mul (by exact_mod_cast hrounded) hunit (by norm_num) ?_
    exact_mod_cast le_trans (Int.natCast_nonneg _) hrounded
  rw [roundDouble]
  rw [hmax]
  split
  · exact .inl rfl
  · rw [if_neg (not_le_neg_pow (le_trans (by norm_num) hlarge))]
    exact .inr ⟨_, rfl, hlarge⟩

def isSafeInteger : Number → Bool
  | .finite x => x.isInt && decide (|x| ≤ 2 ^ 53 - 1)
  | _ => false

/-! ### The shortest decimal -/

/-- The whole numbers beside a value, the nearer first and on a tie the even one. -/
def neighbours (y : ℚ) : List ℤ := [roundHalfEven y, 2 * ⌊y⌋ + 1 - roundHalfEven y]

/-- A decimal of k digits that rounds to a positive number, as the digits and
the exponent of their last one. -/
def decimalOf (x : ℚ) (k : ℕ) : Option (ℕ × ℤ) :=
  let e := Int.log 10 x + 1 - k
  ((neighbours (x / 10 ^ e)).find? fun s => roundDouble ((s : ℤ) * 10 ^ e) = .finite x).map
    fun s => (s.toNat, e)

/-- Seventeen digits tell any two doubles apart. -/
def shortestDecimal (x : ℚ) : Option (ℕ × ℤ) :=
  (List.range 17).findSome? fun k => decimalOf x (k + 1)

/-- The digits with the point behind the n-th of them, or with an exponent. -/
def placePoint (digits : JsString) (n : ℤ) : JsString :=
  if digits.length ≤ n ∧ n ≤ 21 then
    digits ++ List.replicate (n - digits.length).toNat 48
  else if 0 < n ∧ n ≤ 21 then digits.take n.toNat ++ js "." ++ digits.drop n.toNat
  else if -6 < n ∧ n ≤ 0 then js "0." ++ List.replicate (-n).toNat 48 ++ digits
  else
    digits.take 1 ++ (if digits.length ≤ 1 then [] else js "." ++ digits.drop 1) ++ js "e" ++
      (if n - 1 < 0 then js "-" else js "+") ++ decimalText (n - 1).natAbs

def positiveText (x : ℚ) : JsString :=
  match shortestDecimal x with
  | none => []
  | some (s, e) =>
      placePoint ((decimalText s).rdropWhile (· = 48)) ((decimalText s).length + e)

def numberText : Number → JsString
  | .nan => js "NaN"
  | .negInfinity => js "-Infinity"
  | .infinity => js "Infinity"
  | .finite x =>
      if x = 0 then js "0" else if x < 0 then js "-" ++ positiveText (-x) else positiveText x

example : ["1500.5", "1e+21", "0.1", "1152921504606847000", "1.5e-7", "5e-324"].all fun text =>
    numberText (parseFloat (js text)) = js text := by decide +kernel

/-! ### Reading the text back -/

theorem mem_neighbours {y : ℚ} {s : ℤ} (h : s ∈ neighbours y) : s = ⌊y⌋ ∨ s = ⌊y⌋ + 1 := by
  have hrounded : roundHalfEven y = ⌊y⌋ ∨ roundHalfEven y = ⌊y⌋ + 1 := by
    rw [roundHalfEven]
    split_ifs <;> omega
  rcases List.mem_cons.mp h with rfl | hother
  · exact hrounded
  · obtain rfl := List.mem_singleton.mp hother
    omega

theorem decimalOf_spec {x : ℚ} (hx : 0 < x) {k s : ℕ} {e : ℤ}
    (h : decimalOf x k = some (s, e)) :
    e = Int.log 10 x + 1 - k ∧ roundDouble (s * 10 ^ e) = .finite x := by
  obtain ⟨z, hz, heq⟩ := Option.map_eq_some_iff.mp h
  obtain ⟨rfl, rfl⟩ := Prod.mk.inj heq
  have hrounds := List.find?_some hz
  have hfloor : 0 ≤ ⌊x / 10 ^ (Int.log 10 x + 1 - k)⌋ :=
    Int.floor_nonneg.mpr (div_nonneg hx.le (zpow_nonneg (by norm_num) _))
  have hnonneg : 0 ≤ z := by
    rcases mem_neighbours (List.mem_of_find?_eq_some hz) with h | h <;> omega
  refine ⟨rfl, ?_⟩
  rw [show ((z.toNat : ℕ) : ℚ) = ((z : ℤ) : ℚ) by
    exact_mod_cast Int.toNat_of_nonneg hnonneg]
  exact of_decide_eq_true hrounds

/-- A decimal with no more digits than any other of them. -/
theorem shortestDecimal_spec {x : ℚ} (hx : 0 < x) {s : ℕ} {e : ℤ}
    (h : shortestDecimal x = some (s, e)) :
    roundDouble (s * 10 ^ e) = .finite x ∧
      ∀ k, 1 ≤ k → k ≤ 17 → decimalOf x k ≠ none → Int.log 10 x + 1 - k ≤ e := by
  obtain ⟨before, k, after, hrange, hk, hnone⟩ := List.findSome?_eq_some_iff.mp h
  obtain ⟨rfl, hrounds⟩ := decimalOf_spec hx hk
  refine ⟨hrounds, fun j hpos hmax hsome => ?_⟩
  obtain ⟨i, rfl⟩ : ∃ i, j = i + 1 := ⟨j - 1, by omega⟩
  have hsorted := List.pairwise_lt_range (n := 17)
  rw [hrange, List.pairwise_append, List.pairwise_cons] at hsorted
  have hmem : i ∈ before ++ k :: after := hrange ▸ List.mem_range.mpr (by omega)
  have hle : k ≤ i := by
    rcases List.mem_append.mp hmem with hbefore | hrest
    · exact absurd (hnone i hbefore) hsome
    · rcases List.mem_cons.mp hrest with rfl | hafter
      · exact le_refl i
      · exact (hsorted.2.1.1 i hafter).le
  omega

/-- The digits without their zeros, and the zeros. -/
theorem rdropWhile_zeros (digits : JsString) :
    ∃ z, digits = digits.rdropWhile (· = 48) ++ List.replicate z 48 := by
  have hzeros : digits.rtakeWhile (· = 48) =
      List.replicate (digits.rtakeWhile (· = 48)).length 48 := by
    apply List.eq_replicate_of_mem
    intro c hc
    simpa using List.mem_rtakeWhile_imp hc
  refine ⟨(digits.rtakeWhile (· = 48)).length, ?_⟩
  rw [← hzeros, List.rdropWhile_append_rtakeWhile]

/-- Text without a point and without an exponent. -/
theorem placePoint_of_digits {digits : JsString} {n : ℤ}
    (h : ∀ c ∈ placePoint digits n, isDigit c = true) : digits.length ≤ n ∧ n ≤ 21 := by
  by_contra hout
  rw [placePoint, if_neg hout] at h
  split_ifs at h
  · exact absurd (h 46 (by simp [js])) (by decide)
  · exact absurd (h 46 (by simp [js])) (by decide)
  all_goals exact absurd (h 101 (by simp [js])) (by decide)

/-- The digits of a decimal and the zeros up to its point. -/
theorem placePoint_eq {s j z : ℕ} {e : ℤ}
    (hz : decimalText s = (decimalText s).rdropWhile (· = 48) ++ List.replicate z 48)
    (he : (z : ℤ) + e = j) (hmax : (decimalText s).length + e ≤ 21) :
    placePoint ((decimalText s).rdropWhile (· = 48)) ((decimalText s).length + e) =
      (decimalText s).rdropWhile (· = 48) ++ List.replicate j 48 := by
  have hlength := congrArg List.length hz
  rw [List.length_append, List.length_replicate] at hlength
  rw [placePoint, if_pos ⟨by omega, hmax⟩]
  congr 2
  omega

/-- A text of digits alone rounds to the number. -/
theorem roundDouble_positiveText {x : ℚ} (hx : 0 < x) (hne : positiveText x ≠ [])
    (hdigits : ∀ c ∈ positiveText x, isDigit c = true) :
    roundDouble (decimalValue (positiveText x)) = .finite x := by
  rw [positiveText] at hne hdigits ⊢
  cases hshort : shortestDecimal x with
  | none =>
      rw [hshort] at hne
      exact absurd rfl hne
  | some decimal =>
      obtain ⟨s, e⟩ := decimal
      rw [hshort] at hdigits
      obtain ⟨z, hz⟩ := rdropWhile_zeros (decimalText s)
      obtain ⟨hwhole, hmax⟩ := placePoint_of_digits hdigits
      have hlength := congrArg List.length hz
      rw [List.length_append, List.length_replicate] at hlength
      obtain ⟨j, hj⟩ : ∃ j : ℕ, (z : ℤ) + e = j := ⟨(z + e).toNat, by omega⟩
      dsimp only
      rw [placePoint_eq hz hj hmax, decimalValue_zeros, ← (shortestDecimal_spec hx hshort).1]
      congr 1
      have hs : s = decimalValue ((decimalText s).rdropWhile (· = 48)) * 10 ^ z := by
        rw [← decimalValue_zeros, ← hz, decimalValue_decimalText]
      generalize decimalValue ((decimalText s).rdropWhile (· = 48)) = value at hs ⊢
      rw [hs, show e = (j : ℤ) - z by omega, zpow_sub₀ (by norm_num), zpow_natCast, zpow_natCast]
      push_cast
      field_simp

/-- A whole number is the decimal of all its digits. -/
theorem decimalOf_natCast {n : ℕ} (h : n < 2 ^ 53) : decimalOf n (Nat.log 10 n + 1) ≠ none := by
  have hzero : Int.log 10 (n : ℚ) + 1 - ((Nat.log 10 n + 1 : ℕ) : ℤ) = 0 := by
    rw [Int.log_natCast]
    omega
  have hself : roundDouble (((n : ℤ) : ℚ) * 10 ^ (0 : ℤ)) = .finite n := by
    rw [zpow_zero, mul_one]
    exact roundDouble_natCast h
  have hrounded : roundHalfEven ((n : ℚ) / 10 ^ (0 : ℤ)) = n := by
    rw [zpow_zero, div_one]
    exact roundHalfEven_intCast n
  rw [decimalOf, hzero, neighbours, hrounded, List.find?_cons_of_pos (by simpa using hself)]
  exact Option.some_ne_none _

/-- The shortest decimal of a whole number is the number, and its exponent
is not negative. -/
theorem shortestDecimal_natCast {n : ℕ} (hpos : 0 < n) (h : n < 2 ^ 53) :
    ∃ s j : ℕ, shortestDecimal n = some (s, (j : ℤ)) ∧ s * 10 ^ j = n := by
  have hx : (0 : ℚ) < n := by exact_mod_cast hpos
  have hlog : Nat.log 10 n + 1 ≤ 17 := by
    have := Nat.log_lt_of_lt_pow (by omega) (h.trans (by norm_num : 2 ^ 53 < 10 ^ 16))
    omega
  cases hshort : shortestDecimal n with
  | none =>
      rw [shortestDecimal, List.findSome?_eq_none_iff] at hshort
      exact absurd (hshort (Nat.log 10 n) (List.mem_range.mpr (by omega))) (decimalOf_natCast h)
  | some decimal =>
      obtain ⟨s, e⟩ := decimal
      obtain ⟨hrounds, hleast⟩ := shortestDecimal_spec hx hshort
      have he := hleast _ (by omega) hlog (decimalOf_natCast h)
      rw [Int.log_natCast] at he
      obtain ⟨j, rfl⟩ := Int.eq_ofNat_of_zero_le (show 0 ≤ e by omega)
      refine ⟨s, j, rfl, ?_⟩
      have hwhole : (s : ℚ) * 10 ^ (j : ℤ) = ((s * 10 ^ j : ℕ) : ℚ) := by
        rw [zpow_natCast]
        norm_cast
      rw [hwhole] at hrounds
      by_cases hsmall : s * 10 ^ j < 2 ^ 53
      · rw [roundDouble_natCast hsmall] at hrounds
        exact_mod_cast Number.finite.inj hrounds
      · rcases roundDouble_large (x := ((s * 10 ^ j : ℕ) : ℚ)) (by exact_mod_cast not_lt.mp hsmall)
          with hinfinite | ⟨y, hy, hlarge⟩
        · rw [hinfinite] at hrounds
          cases hrounds
        · rw [hy] at hrounds
          obtain rfl := Number.finite.inj hrounds
          exact absurd (by exact_mod_cast hlarge) (not_le.mpr h)

/-- The whole numbers of up to 53 bits are written digit by digit. -/
theorem positiveText_natCast {n : ℕ} (hpos : 0 < n) (h : n < 2 ^ 53) :
    positiveText n = decimalText n := by
  obtain ⟨s, j, hshort, rfl⟩ := shortestDecimal_natCast hpos h
  obtain ⟨z, hz⟩ := rdropWhile_zeros (decimalText s)
  have hs : 0 < s := Nat.pos_of_mul_pos_right hpos
  have hlength : (decimalText s).length + j ≤ 16 := by
    have := length_decimalText (n := s * 10 ^ j) (by omega)
    rw [decimalText_mul_pow hs, List.length_append, List.length_replicate] at this
    have := Nat.log_lt_of_lt_pow (by omega) (h.trans (by norm_num : 2 ^ 53 < 10 ^ 16))
    omega
  rw [positiveText, hshort]
  dsimp only
  rw [placePoint_eq hz (j := z + j) (by push_cast; rfl) (by omega), decimalText_mul_pow hs]
  nth_rewrite 2 [hz]
  rw [List.append_assoc, List.replicate_append_replicate]

theorem numberText_natCast {n : ℕ} (h : n < 2 ^ 53) : numberText (.finite n) = decimalText n := by
  rw [numberText]
  rcases Nat.eq_zero_or_pos n with rfl | hpos
  · rw [if_pos (by norm_num)]
    rfl
  · have hx : (0 : ℚ) < n := by exact_mod_cast hpos
    rw [if_neg hx.ne', if_neg hx.not_gt]
    exact positiveText_natCast hpos h

/-- A text of digits alone reads as the number. -/
theorem roundDouble_numberText {x : ℚ} (hne : numberText (.finite x) ≠ [])
    (hdigits : ∀ c ∈ numberText (.finite x), isDigit c = true) :
    0 ≤ x ∧ roundDouble (decimalValue (numberText (.finite x))) = .finite x := by
  rw [numberText] at hne hdigits ⊢
  split_ifs at hne hdigits ⊢ with hzero hneg
  · subst hzero
    exact ⟨le_refl 0, roundDouble_natCast (m := 0) (by norm_num)⟩
  · exact absurd (hdigits 45 (by simp [js])) (by decide)
  · have hpos : 0 < x := lt_of_le_of_ne (not_lt.mp hneg) (Ne.symm hzero)
    exact ⟨hpos.le, roundDouble_positiveText hpos hne hdigits⟩

theorem isSafeInteger_natCast {n : ℕ} : isSafeInteger (.finite n) = true ↔ n < 2 ^ 53 := by
  have habs : |(n : ℚ)| ≤ 2 ^ 53 - 1 ↔ n < 2 ^ 53 := by
    rw [Nat.abs_cast, le_sub_iff_add_le]
    exact_mod_cast Iff.rfl
  rw [isSafeInteger, Bool.and_eq_true, decide_eq_true_iff, habs]
  exact and_iff_right (by simp [Rat.isInt])

/-- The safe integers among the numbers of digits are those of up to 53 bits. -/
theorem isSafeInteger_roundDouble {n : ℕ} :
    isSafeInteger (roundDouble n) = true ↔ n < 2 ^ 53 := by
  by_cases h : n < 2 ^ 53
  · rw [roundDouble_natCast h]
    exact isSafeInteger_natCast
  · refine iff_of_false (fun hsafe => ?_) h
    rcases roundDouble_large (x := (n : ℚ)) (by exact_mod_cast not_lt.mp h) with
      hinfinite | ⟨y, hy, hlarge⟩
    · rw [hinfinite] at hsafe
      cases hsafe
    · rw [hy, isSafeInteger, Bool.and_eq_true, decide_eq_true_iff] at hsafe
      have := (le_abs_self y).trans hsafe.2
      linarith

end Keala.Js
