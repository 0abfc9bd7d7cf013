import Keala.Js.NumberText

/-!
Rounding to doubles keeps the order, and from 53 bits on no odd whole number
is a double.
-/

namespace Keala.Js

/-! ### Whole numbers -/

theorem roundHalfEven_mono {x y : ℚ} (h : x ≤ y) : roundHalfEven x ≤ roundHalfEven y := by
  have hfloor : ⌊x⌋ ≤ ⌊y⌋ := Int.floor_mono h
  have hx : roundHalfEven x ≤ ⌊x⌋ + 1 := by
    rw [roundHalfEven]
    split_ifs <;> omega
  have hy : ⌊y⌋ ≤ roundHalfEven y := le_roundHalfEven (Int.floor_le y)
  by_cases hlt : ⌊x⌋ < ⌊y⌋
  · omega
  · have heq : ⌊x⌋ = ⌊y⌋ := by omega
    have hrest : x - ⌊x⌋ ≤ y - ⌊x⌋ := by linarith
    rw [roundHalfEven, roundHalfEven]
    rw [← heq]
    -- the two lie between the same whole numbers, `y` no nearer to the lower one
    split_ifs <;> first | omega | (exfalso; linarith)

theorem roundHalfEven_le {m : ℤ} {x : ℚ} (h : x ≤ m) : roundHalfEven x ≤ m :=
  (roundHalfEven_mono h).trans_eq (roundHalfEven_intCast m)

theorem roundHalfEven_neg (x : ℚ) : roundHalfEven (-x) = -roundHalfEven x := by
  by_cases hwhole : (⌊x⌋ : ℚ) = x
  · rw [← hwhole, ← Int.cast_neg, roundHalfEven_intCast, roundHalfEven_intCast]
  · -- between two whole numbers the rests of the two add up to 1
    have hlow : (⌊x⌋ : ℚ) < x := lt_of_le_of_ne (Int.floor_le x) hwhole
    have hhigh := Int.lt_floor_add_one x
    have hfloor : ⌊-x⌋ = -⌊x⌋ - 1 := by
      rw [Int.floor_eq_iff]
      push_cast
      constructor <;> linarith
    rw [roundHalfEven, roundHalfEven, hfloor]
    push_cast
    split_ifs <;> first | omega | (exfalso; linarith)

/-! ### Doubles -/

/-- The distance of the doubles around a number, as an exponent of 2. -/
def doubleExponent (x : ℚ) : ℤ := max (Int.log 2 |x| - 52) (-1074)

theorem two_zpow_pos (e : ℤ) : (0 : ℚ) < 2 ^ e := zpow_pos (by norm_num) e

def roundedValue (x : ℚ) : ℚ :=
  roundHalfEven (x / 2 ^ doubleExponent x) * 2 ^ doubleExponent x

theorem roundDouble_eq (x : ℚ) :
    roundDouble x = if (2 : ℚ) ^ 1024 ≤ roundedValue x then .infinity
      else if roundedValue x ≤ -(2 : ℚ) ^ 1024 then .negInfinity
      else .finite (roundedValue x) := rfl

theorem roundedValue_nonneg {x : ℚ} (h : 0 ≤ x) : 0 ≤ roundedValue x := by
  have hround : (0 : ℤ) ≤ roundHalfEven (x / 2 ^ doubleExponent x) := by
    apply le_roundHalfEven
    rw [Int.cast_zero]
    exact div_nonneg h (two_zpow_pos _).le
  rw [roundedValue]
  exact mul_nonneg (by exact_mod_cast hround) (two_zpow_pos _).le

theorem roundedValue_nonpos {x : ℚ} (h : x ≤ 0) : roundedValue x ≤ 0 := by
  have hround : roundHalfEven (x / 2 ^ doubleExponent x) ≤ (0 : ℤ) := by
    apply roundHalfEven_le
    rw [Int.cast_zero]
    exact div_nonpos_of_nonpos_of_nonneg h (two_zpow_pos _).le
  rw [roundedValue]
  exact mul_nonpos_of_nonpos_of_nonneg (by exact_mod_cast hround) (two_zpow_pos _).le

/-- A number below a power of two that is a whole multiple of its distance rounds to no more. -/
theorem roundedValue_le_pow {x : ℚ} {e : ℤ} (hx : x ≤ 2 ^ e) (he : doubleExponent x ≤ e) :
    roundedValue x ≤ 2 ^ e := by
  obtain ⟨k, hk⟩ : ∃ k : ℕ, e - doubleExponent x = k := ⟨(e - doubleExponent x).toNat, by omega⟩
  have hpow : (2 : ℚ) ^ e = ((2 ^ k : ℤ) : ℚ) * 2 ^ doubleExponent x := by
    rw [show e = (k : ℤ) + doubleExponent x by omega, zpow_add₀ (by norm_num)]
    push_cast
    rw [zpow_natCast]
  have hround : roundHalfEven (x / 2 ^ doubleExponent x) ≤ 2 ^ k := by
    apply roundHalfEven_le
    rw [div_le_iff₀ (two_zpow_pos _), ← hpow]
    exact hx
  rw [roundedValue, hpow]
  exact mul_le_mul_of_nonneg_right (by exact_mod_cast hround) (two_zpow_pos _).le

/-- A number from a power of two on that is a whole multiple of its distance rounds to no less. -/
theorem pow_le_roundedValue {x : ℚ} {e : ℤ} (hx : 2 ^ e ≤ x) (he : doubleExponent x ≤ e) :
    2 ^ e ≤ roundedValue x := by
  obtain ⟨k, hk⟩ : ∃ k : ℕ, e - doubleExponent x = k := ⟨(e - doubleExponent x).toNat, by omega⟩
  have hpow : (2 : ℚ) ^ e = ((2 ^ k : ℤ) : ℚ) * 2 ^ doubleExponent x := by
    rw [show e = (k : ℤ) + doubleExponent x by omega, zpow_add₀ (by norm_num)]
    push_cast
    rw [zpow_natCast]
  have hround : 2 ^ k ≤ roundHalfEven (x / 2 ^ doubleExponent x) := by
    apply le_roundHalfEven
    rw [le_div_iff₀ (two_zpow_pos _), ← hpow]
    exact hx
  rw [roundedValue, hpow]
  exact mul_le_mul_of_nonneg_right (by exact_mod_cast hround) (two_zpow_pos _).le

theorem doubleExponent_mono {x y : ℚ} (hx : 0 < x) (h : x ≤ y) :
    doubleExponent x ≤ doubleExponent y := by
  have hlog : Int.log 2 x ≤ Int.log 2 y := Int.log_mono_right hx h
  rw [doubleExponent, doubleExponent, abs_of_pos hx, abs_of_pos (hx.trans_le h)]
  omega

theorem roundedValue_mono {x y : ℚ} (hx : 0 ≤ x) (h : x ≤ y) :
    roundedValue x ≤ roundedValue y := by
  rcases hx.eq_or_lt with rfl | hpos
  · calc roundedValue 0 ≤ 0 := roundedValue_nonpos le_rfl
      _ ≤ roundedValue y := roundedValue_nonneg h
  by_cases hexp : doubleExponent x = doubleExponent y
  · have hround : roundHalfEven (x / 2 ^ doubleExponent y) ≤
        roundHalfEven (y / 2 ^ doubleExponent y) := by
      apply roundHalfEven_mono
      exact div_le_div_of_nonneg_right h (two_zpow_pos _).le
    rw [roundedValue, roundedValue, hexp]
    exact mul_le_mul_of_nonneg_right (by exact_mod_cast hround) (two_zpow_pos _).le
  · -- a power of two separates them, and both roundings keep to their side of it
    have hlt : doubleExponent x < doubleExponent y :=
      lt_of_le_of_ne (doubleExponent_mono hpos h) hexp
    have hy : 0 < y := hpos.trans_le h
    have hlog : Int.log 2 x < Int.log 2 y ∧ doubleExponent y = Int.log 2 y - 52 := by
      rw [doubleExponent, doubleExponent, abs_of_pos hpos, abs_of_pos hy] at hlt
      rw [doubleExponent, abs_of_pos hy]
      omega
    have hbelow : x ≤ 2 ^ Int.log 2 y := by
      calc x ≤ 2 ^ (Int.log 2 x + 1) := by
            exact_mod_cast (Int.lt_zpow_succ_log_self (by decide) x).le
        _ ≤ 2 ^ Int.log 2 y := zpow_le_zpow_right₀ (by norm_num) (by omega)
    have habove : 2 ^ Int.log 2 y ≤ y := by
      exact_mod_cast Int.zpow_log_le_self (by decide) hy
    calc roundedValue x ≤ 2 ^ Int.log 2 y := roundedValue_le_pow hbelow (by omega)
      _ ≤ roundedValue y := pow_le_roundedValue habove (by omega)

theorem roundedValue_neg (x : ℚ) : roundedValue (-x) = -roundedValue x := by
  have hexp : doubleExponent (-x) = doubleExponent x := by
    rw [doubleExponent, doubleExponent, abs_neg]
  rw [roundedValue, roundedValue, hexp, neg_div, roundHalfEven_neg]
  push_cast
  exact neg_mul _ _

theorem roundedValue_monotone : Monotone roundedValue := by
  intro x y h
  rcases le_total 0 x with hx | hx
  · exact roundedValue_mono hx h
  rcases le_total 0 y with hy | hy
  · exact (roundedValue_nonpos hx).trans (roundedValue_nonneg hy)
  · have hneg := roundedValue_mono (neg_nonneg.mpr hy) (neg_le_neg h)
    rw [roundedValue_neg, roundedValue_neg] at hneg
    exact neg_le_neg_iff.mp hneg

theorem roundDouble_of_nonneg {x : ℚ} (h : 0 ≤ x) :
    roundDouble x =
      if (2 : ℚ) ^ 1024 ≤ roundedValue x then .infinity else .finite (roundedValue x) := by
  rw [roundDouble_eq, if_neg (not_le_neg_pow (roundedValue_nonneg h))]

theorem roundedValue_natCast {m : ℕ} (h : m < 2 ^ 53) : roundedValue m = m := by
  have hround := roundDouble_natCast h
  rw [roundDouble_of_nonneg (Nat.cast_nonneg m)] at hround
  split_ifs at hround
  exact Number.finite.inj hround

/-- Rounding keeps the order. -/
theorem roundDouble_mono {x y : ℚ} (hx : 0 ≤ x) (h : x ≤ y) :
    (roundDouble y).lt (roundDouble x) = false := by
  have hrounded := roundedValue_mono hx h
  rw [roundDouble_of_nonneg hx, roundDouble_of_nonneg (hx.trans h)]
  split_ifs with hy hxt hxt
  · rfl
  · rfl
  · exact absurd (hxt.trans hrounded) hy
  · simpa using hrounded

/-- A number of more than 53 bits rounds to a multiple of two. -/
theorem even_of_roundDouble {x : ℚ} {m : ℕ} (hx : 2 ^ 53 ≤ x)
    (h : roundDouble x = .finite m) : Even m := by
  have hpos : 0 < x := lt_of_lt_of_le (by norm_num) hx
  have hlog : 53 ≤ Int.log 2 x := by
    apply (Int.zpow_le_iff_le_log (by decide) hpos).mp
    exact_mod_cast hx
  obtain ⟨k, hk⟩ : ∃ k : ℕ, doubleExponent x = k + 1 := by
    refine ⟨(doubleExponent x - 1).toNat, ?_⟩
    rw [doubleExponent, abs_of_pos hpos]
    omega
  rw [roundDouble_of_nonneg hpos.le] at h
  split_ifs at h
  have hvalue : ((roundHalfEven (x / 2 ^ doubleExponent x) * 2 ^ k * 2 : ℤ) : ℚ) = (m : ℤ) := by
    have hrounded := Number.finite.inj h
    rw [roundedValue, hk, zpow_add_one₀ (by norm_num), zpow_natCast] at hrounded
    push_cast
    rw [hk, mul_assoc, zpow_add_one₀ (by norm_num), zpow_natCast]
    exact hrounded
  have hinteger : roundHalfEven (x / 2 ^ doubleExponent x) * 2 ^ k * 2 = (m : ℤ) := by
    exact_mod_cast hvalue
  apply (Int.even_coe_nat m).mp
  exact ⟨roundHalfEven (x / 2 ^ doubleExponent x) * 2 ^ k, by omega⟩

theorem roundDouble_ne_nan (x : ℚ) : roundDouble x ≠ .nan := by
  rw [roundDouble_eq]
  split_ifs <;> simp

/-- A whole number is a double, or rounds to one that is just as large. -/
theorem roundDouble_nat_cases (n : ℕ) :
    (n < 2 ^ 53 ∧ roundDouble n = .finite n) ∨
      2 ^ 53 ≤ n ∧ (roundDouble n = .infinity ∨ ∃ y, roundDouble n = .finite y ∧ 2 ^ 53 ≤ y) := by
  by_cases h : n < 2 ^ 53
  · exact .inl ⟨h, roundDouble_natCast h⟩
  · have hle : 2 ^ 53 ≤ n := not_lt.mp h
    exact .inr ⟨hle, roundDouble_large (by exact_mod_cast hle)⟩

theorem roundDouble_nonpos {x : ℚ} (h : x ≤ 0) :
    roundDouble x = .negInfinity ∨ ∃ y, roundDouble x = .finite y ∧ y ≤ 0 := by
  have hnonpos := roundedValue_nonpos h
  rw [roundDouble_eq, if_neg (not_le.mpr (hnonpos.trans_lt (by positivity)))]
  split_ifs
  · exact .inl rfl
  · exact .inr ⟨_, rfl, hnonpos⟩

namespace Number

/-- `a - b`, rounded. -/
def minus (a b : Number) : Number :=
  match a.sub b with
  | .finite x => roundDouble x
  | n => n

def plus (a b : Number) : Number :=
  match a.add b with
  | .finite x => roundDouble x
  | n => n

theorem minus_finite (a b : ℚ) : (finite a).minus (finite b) = roundDouble (a - b) := rfl

theorem minus_ofNat {a b : ℕ} (h : b ≤ a) :
    (ofNat a).minus (ofNat b) = roundDouble (a - b : ℕ) := by
  rw [ofNat, ofNat, minus_finite, Nat.cast_sub h]

theorem le_eq_not_lt {a b : Number} (ha : a ≠ .nan) (hb : b ≠ .nan) : a.le b = !b.lt a := by
  simp [le, ha, hb]

theorem lt_of_not_lt_of_lt {a b c : Number} (hb : b ≠ .nan) (hab : b.lt a = false)
    (hbc : b.lt c = true) (ha : a ≠ .nan) : a.lt c = true := by
  cases a <;> cases b <;> cases c <;> simp_all [lt]
  linarith

theorem eq_of_not_lt {a b : Number} (ha : a ≠ .nan) (hb : b ≠ .nan) (hab : a.lt b = false)
    (hba : b.lt a = false) : a = b := by
  cases a <;> cases b <;> simp_all [lt]
  linarith

theorem min_eq_ite {a b : Number} (ha : a ≠ .nan) (hb : b ≠ .nan) :
    min a b = if a.lt b then a else b := by
  cases a <;> cases b <;> simp_all [min]

theorem min_eq_left {a b : Number} (ha : a ≠ .nan) (hb : b ≠ .nan) (h : b.lt a = false) :
    min a b = a := by
  rw [min_eq_ite ha hb]
  split_ifs with hlt
  · rfl
  · exact (eq_of_not_lt ha hb (by simpa using hlt) h).symm

/-- Below what the second argument is not, the minimum is where the first one is. -/
theorem min_lt_of_not_lt {a b c : Number} (ha : a ≠ .nan) (hb : b ≠ .nan)
    (h : b.lt c = false) : (min a b).lt c = a.lt c := by
  rw [min_eq_ite ha hb]
  split_ifs with hlt
  · rfl
  · by_contra hne
    have hac : a.lt c = true := by
      rw [h] at hne
      exact Bool.not_eq_false _ ▸ Ne.symm hne
    have hbc := lt_of_not_lt_of_lt ha (by simpa using hlt) hac hb
    rw [h] at hbc
    cases hbc

theorem max_zero_finite (y : ℚ) : max (ofNat 0) (finite y) = finite (if y < 0 then 0 else y) := by
  simp only [max, ofNat, lt_finite, Nat.cast_zero, decide_eq_true_eq]
  split_ifs <;> rfl

/-- Taking no less away than there is leaves nothing above zero. -/
theorem max_zero_minus {a b : Number} (ha : a ≠ .nan) (hi : a ≠ .infinity) (hb : b ≠ .nan)
    (h : b.lt a = false) (hn : b ≠ .negInfinity) : max (ofNat 0) (a.minus b) = ofNat 0 := by
  cases a with
  | nan => exact absurd rfl ha
  | infinity => exact absurd rfl hi
  | negInfinity => cases b <;> first | contradiction | rfl
  | finite x =>
    cases b with
    | nan => exact absurd rfl hb
    | negInfinity => exact absurd rfl hn
    | infinity => rfl
    | finite y =>
      have hle : x - y ≤ 0 := by
        simp only [lt_finite, decide_eq_false_iff_not, not_lt] at h
        linarith
      rw [minus_finite]
      rcases roundDouble_nonpos hle with hround | ⟨z, hround, hz⟩
      · rw [hround]
        rfl
      · rw [hround, max_zero_finite]
        split_ifs with hneg
        · rfl
        · rw [le_antisymm hz (not_lt.mp hneg)]
          rfl

end Number

end Keala.Js
