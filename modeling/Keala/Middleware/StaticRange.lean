import Keala.Js.Rounding
import Keala.Js.Search

/-!
`parseRange` of the static files: the one byte range that the `Range` header of
a request asks for.

A file of up to 2 to the 53 bytes is answered the range that RFC 9110 assigns,
unless it is empty and the header asks for a suffix: then the answer is the
range from 0 to -1. The size of a larger file less one is no double, and only a
range whose own two ends are doubles below the size is answered right.
-/

namespace Keala.Middleware

open Js

/-! ### The header -/

/-- The groups of a match of `/^bytes=(\d*)-(\d*)$/`. -/
def rangeParts (text : JsString) : Option (JsString × JsString) :=
  if startsWith text (js "bytes=") then
    let rest := text.drop 6
    match rest.dropWhile isDigit with
    | 45 :: tail => if tail.all isDigit then some (rest.takeWhile isDigit, tail) else none
    | _ => none
  else none

def digitsNumber (digits : JsString) : Number := roundDouble (decimalValue digits)

inductive RangeAnswer
  | ignored
  | unsatisfiable
  | range (start stop : Number)
  deriving DecidableEq

def parseRange (header : JsString) (size : Number) : RangeAnswer :=
  match rangeParts (trim header) with
  | none => .ignored
  | some (head, tail) =>
    if head = [] ∧ tail = [] then .ignored
    else if head = [] then
      let suffix := digitsNumber tail
      if suffix = .ofNat 0 then .unsatisfiable
      else .range (Number.max (.ofNat 0) (size.minus suffix)) (size.minus (.ofNat 1))
    else
      let start := digitsNumber head
      if size.le start then .unsatisfiable
      else
        let stop :=
          if tail = [] then size.minus (.ofNat 1)
          else Number.min (digitsNumber tail) (size.minus (.ofNat 1))
        if stop.lt start then .ignored else .range start stop

/-- The size of a file, as `stat` reports it: a whole number that is a double. -/
structure FileSize where
  bytes : ℕ
  double : roundDouble bytes = .finite bytes

namespace FileSize

def number (size : FileSize) : Number := .ofNat size.bytes

def ofSafe (bytes : ℕ) (h : bytes < 2 ^ 53) : FileSize := ⟨bytes, roundDouble_natCast h⟩

end FileSize

/-! ### What RFC 9110 assigns -/

/-- The forms of a single range: `-length`, `first-` and `first-last`. -/
inductive RangeSpec
  | suffix (length : ℕ)
  | fromByte (first : ℕ)
  | between (first last : ℕ)
  deriving DecidableEq

namespace RangeSpec

def Selects (size : ℕ) (i : ℕ) : RangeSpec → Prop
  | suffix length => i < size ∧ size ≤ i + length
  | fromByte first => i < size ∧ first ≤ i
  | between first last => i < size ∧ first ≤ i ∧ i ≤ last

end RangeSpec

/-- A decimal number as the grammar has it, leading zeros allowed. -/
def IsDecimal (digits : JsString) (n : ℕ) : Prop :=
  digits ≠ [] ∧ (∀ c ∈ digits, isDigit c = true) ∧ decimalValue digits = n

inductive SpellsRange : JsString → RangeSpec → Prop
  | suffix {digits : JsString} {length : ℕ} (h : IsDecimal digits length) :
      SpellsRange (js "bytes=-" ++ digits) (.suffix length)
  | fromByte {digits : JsString} {first : ℕ} (h : IsDecimal digits first) :
      SpellsRange (js "bytes=" ++ digits ++ [45]) (.fromByte first)
  | between {digits digits' : JsString} {first last : ℕ} (h : IsDecimal digits first)
      (h' : IsDecimal digits' last) :
      SpellsRange (js "bytes=" ++ digits ++ [45] ++ digits') (.between first last)

/-- The range an answer gives is a stretch of the file's bytes, and of exactly those that a
range of the header selects. -/
def AnsweredRight (header : JsString) (size : FileSize) : Prop :=
  ∀ start stop, parseRange header size.number = .range start stop →
    ∃ s e : ℕ, start = .ofNat s ∧ stop = .ofNat e ∧ s ≤ e ∧ e < size.bytes ∧
      ∃ spec, SpellsRange (trim header) spec ∧ ∀ i, spec.Selects size.bytes i ↔ s ≤ i ∧ i ≤ e

def RangeSpec.Answerable (size : FileSize) : RangeSpec → Prop
  | .suffix length => length = 0 ∨ 0 < size.bytes ∧ size.bytes ≤ 2 ^ 53
  | .fromByte first =>
      size.bytes ≤ 2 ^ 53 ∨ size.number.le (roundDouble first) = true
  | .between first last =>
      size.bytes ≤ 2 ^ 53 ∨ size.number.le (roundDouble first) = true ∨
        (roundDouble last).lt (roundDouble first) = true ∨
        roundDouble first = .ofNat first ∧ roundDouble last = .ofNat last ∧ last < size.bytes

/-! ### The header as a range -/

theorem dropWhile_digits {head tail : JsString} (h : ∀ c ∈ head, isDigit c = true) :
    (head ++ 45 :: tail).dropWhile isDigit = 45 :: tail := by
  rw [List.dropWhile_append_of_pos h]
  rfl

theorem takeWhile_digits {head tail : JsString} (h : ∀ c ∈ head, isDigit c = true) :
    (head ++ 45 :: tail).takeWhile isDigit = head := by
  rw [List.takeWhile_append_of_pos h]
  exact List.append_nil head

theorem drop_unit (rest : JsString) : (js "bytes=" ++ rest).drop 6 = rest := rfl

theorem rangeParts_eq_some {text head tail : JsString} :
    rangeParts text = some (head, tail) ↔
      text = js "bytes=" ++ (head ++ 45 :: tail) ∧ (∀ c ∈ head, isDigit c = true) ∧
        ∀ c ∈ tail, isDigit c = true := by
  constructor
  · intro h
    rw [rangeParts] at h
    split_ifs at h with hstart
    obtain ⟨rest, rfl⟩ := startsWith_iff.mp hstart
    rw [drop_unit] at h
    dsimp only at h
    split at h
    · next tail' hrest =>
      split_ifs at h with htail
      obtain ⟨rfl, rfl⟩ := Prod.mk.inj (Option.some.inj h)
      refine ⟨?_, fun c hc => List.mem_takeWhile_imp hc, List.all_eq_true.mp htail⟩
      rw [← hrest, List.takeWhile_append_dropWhile]
    · cases h
  · rintro ⟨rfl, hhead, htail⟩
    rw [rangeParts, if_pos (startsWith_iff.mpr ⟨_, rfl⟩), drop_unit]
    simp only [dropWhile_digits hhead, takeWhile_digits hhead]
    rw [if_pos (List.all_eq_true.mpr htail)]

def specOf (head tail : JsString) : Option RangeSpec :=
  if head = [] ∧ tail = [] then none
  else if head = [] then some (.suffix (decimalValue tail))
  else if tail = [] then some (.fromByte (decimalValue head))
  else some (.between (decimalValue head) (decimalValue tail))

theorem spellsRange_iff {text : JsString} {spec : RangeSpec} :
    SpellsRange text spec ↔
      ∃ head tail, rangeParts text = some (head, tail) ∧ specOf head tail = some spec := by
  constructor
  · rintro (⟨hne, hdigits, rfl⟩ | ⟨hne, hdigits, rfl⟩ | ⟨⟨hne, hdigits, rfl⟩, hne', hdigits', rfl⟩)
    · next digits =>
      refine ⟨[], digits, rangeParts_eq_some.mpr ⟨rfl, by simp, hdigits⟩, ?_⟩
      simp [specOf, hne]
    · next digits =>
      refine ⟨digits, [], rangeParts_eq_some.mpr ⟨?_, hdigits, by simp⟩, ?_⟩
      · rw [List.append_assoc]
      · simp [specOf, hne]
    · next digits digits' =>
      refine ⟨digits, digits', rangeParts_eq_some.mpr ⟨?_, hdigits, hdigits'⟩, ?_⟩
      · simp
      · simp [specOf, hne, hne']
  · rintro ⟨head, tail, hparts, hspec⟩
    obtain ⟨rfl, hhead, htail⟩ := rangeParts_eq_some.mp hparts
    rw [specOf] at hspec
    split_ifs at hspec with hnone hempty hopen
    · subst hempty
      obtain rfl := Option.some.inj hspec
      exact .suffix ⟨fun h => hnone ⟨rfl, h⟩, htail, rfl⟩
    · subst hopen
      obtain rfl := Option.some.inj hspec
      rw [← List.append_assoc]
      exact .fromByte ⟨hempty, hhead, rfl⟩
    · obtain rfl := Option.some.inj hspec
      rw [← List.singleton_append (x := 45), ← List.append_assoc, ← List.append_assoc]
      exact .between ⟨hempty, hhead, rfl⟩ ⟨hopen, htail, rfl⟩

theorem SpellsRange.unique {text : JsString} {spec spec' : RangeSpec} (h : SpellsRange text spec)
    (h' : SpellsRange text spec') : spec = spec' := by
  obtain ⟨head, tail, hparts, hspec⟩ := spellsRange_iff.mp h
  obtain ⟨head', tail', hparts', hspec'⟩ := spellsRange_iff.mp h'
  obtain ⟨rfl, rfl⟩ := Prod.mk.inj (Option.some.inj (hparts.symm.trans hparts'))
  exact Option.some.inj (hspec.symm.trans hspec')

/-- What a range is answered, whatever text spells it. -/
def RangeSpec.answer (size : Number) : RangeSpec → RangeAnswer
  | .suffix length =>
      if roundDouble length = .ofNat 0 then .unsatisfiable
      else .range (Number.max (.ofNat 0) (size.minus (roundDouble length))) (size.minus (.ofNat 1))
  | .fromByte first =>
      if size.le (roundDouble first) then .unsatisfiable
      else if (size.minus (.ofNat 1)).lt (roundDouble first) then .ignored
      else .range (roundDouble first) (size.minus (.ofNat 1))
  | .between first last =>
      if size.le (roundDouble first) then .unsatisfiable
      else if (Number.min (roundDouble last) (size.minus (.ofNat 1))).lt (roundDouble first) then
        .ignored
      else .range (roundDouble first) (Number.min (roundDouble last) (size.minus (.ofNat 1)))

theorem parseRange_of_spellsRange {header : JsString} {spec : RangeSpec}
    (h : SpellsRange (trim header) spec) (size : Number) :
    parseRange header size = spec.answer size := by
  obtain ⟨head, tail, hparts, hspec⟩ := spellsRange_iff.mp h
  rw [parseRange, hparts]
  rw [specOf] at hspec
  split_ifs at hspec with hnone hempty hopen
  all_goals obtain rfl := Option.some.inj hspec
  · simp only [if_neg hnone, if_pos hempty]
    rfl
  · simp only [if_neg hnone, if_neg hempty, if_pos hopen]
    rfl
  · simp only [if_neg hnone, if_neg hempty, if_neg hopen]
    rfl

theorem parseRange_of_not_spellsRange {header : JsString}
    (h : ∀ spec, ¬SpellsRange (trim header) spec) (size : Number) :
    parseRange header size = .ignored := by
  rw [parseRange]
  split
  · rfl
  · next head tail hparts =>
    by_cases hnone : head = [] ∧ tail = []
    · rw [if_pos hnone]
    · exfalso
      obtain ⟨spec, hspec⟩ : ∃ spec, specOf head tail = some spec := by
        rw [specOf, if_neg hnone]
        split_ifs <;> exact ⟨_, rfl⟩
      exact h spec (spellsRange_iff.mpr ⟨head, tail, hparts, hspec⟩)

/-- A range is answered with its own bytes, when it is answered with some. -/
def RangeSpec.Right (size : FileSize) (spec : RangeSpec) : Prop :=
  ∀ start stop, spec.answer size.number = .range start stop →
    ∃ s e : ℕ, start = .ofNat s ∧ stop = .ofNat e ∧ s ≤ e ∧ e < size.bytes ∧
      ∀ i, spec.Selects size.bytes i ↔ s ≤ i ∧ i ≤ e

theorem answeredRight_iff (header : JsString) (size : FileSize) :
    AnsweredRight header size ↔ ∀ spec, SpellsRange (trim header) spec → spec.Right size := by
  constructor
  · intro h spec hspec start stop hanswer
    rw [← parseRange_of_spellsRange hspec] at hanswer
    obtain ⟨s, e, hs, he, hle, hlt, spec', hspec', hselects⟩ := h start stop hanswer
    obtain rfl := hspec.unique hspec'
    exact ⟨s, e, hs, he, hle, hlt, hselects⟩
  · intro h start stop hanswer
    by_cases hspelled : ∃ spec, SpellsRange (trim header) spec
    · obtain ⟨spec, hspec⟩ := hspelled
      rw [parseRange_of_spellsRange hspec] at hanswer
      obtain ⟨s, e, hs, he, hle, hlt, hselects⟩ := h spec hspec start stop hanswer
      exact ⟨s, e, hs, he, hle, hlt, spec, hspec, hselects⟩
    · rw [parseRange_of_not_spellsRange (not_exists.mp hspelled)] at hanswer
      cases hanswer

/-! ### The sizes that leave the last byte a double -/

namespace FileSize

variable {size : FileSize}

theorem number_ne_nan : size.number ≠ .nan := by
  rw [number, Number.ofNat]
  simp

theorem minus_one (h : 0 < size.bytes) :
    size.number.minus (.ofNat 1) = roundDouble (size.bytes - 1 : ℕ) :=
  Number.minus_ofNat h

theorem minus_one_of_le (hpos : 0 < size.bytes) (hle : size.bytes ≤ 2 ^ 53) :
    size.number.minus (.ofNat 1) = .ofNat (size.bytes - 1) := by
  rw [minus_one hpos]
  exact roundDouble_natCast (by omega)

/-- The sizes beyond 2 to the 53 are even, and one less is no double. -/
theorem minus_one_ne (h : 2 ^ 53 < size.bytes) {n : ℕ} (hn : 2 ^ 53 ≤ n) :
    roundDouble n ≠ .ofNat (size.bytes - 1) := by
  intro hround
  have hsize : Even size.bytes := by
    apply even_of_roundDouble (x := size.bytes) _ size.double
    exact_mod_cast h.le
  have hless : Even (size.bytes - 1) := even_of_roundDouble (by exact_mod_cast hn) hround
  obtain ⟨a, ha⟩ := hsize
  obtain ⟨b, hb⟩ := hless
  omega

/-- A first byte that is not refused lies within the file. -/
theorem lt_of_not_le {first : ℕ} (h : size.number.le (roundDouble first) = false) :
    first < size.bytes := by
  by_contra hge
  have hmono : (roundDouble first).lt (roundDouble size.bytes) = false :=
    roundDouble_mono (Nat.cast_nonneg _) (by exact_mod_cast not_lt.mp hge)
  rw [Number.le_eq_not_lt number_ne_nan (roundDouble_ne_nan _)] at h
  rw [size.double] at hmono
  rw [number, Number.ofNat, hmono] at h
  cases h

/-- Up to 2 to the 53 bytes the first byte is exact. -/
theorem roundDouble_first (hle : size.bytes ≤ 2 ^ 53) {first : ℕ}
    (h : size.number.le (roundDouble first) = false) : roundDouble first = .ofNat first :=
  roundDouble_natCast ((lt_of_not_le h).trans_le hle)

end FileSize

variable {size : FileSize}

/-! ### Each form of a range -/

theorem roundDouble_ne_zero {n : ℕ} (h : n ≠ 0) : roundDouble n ≠ .ofNat 0 := by
  rcases roundDouble_nat_cases n with ⟨-, hround⟩ | ⟨-, hround | ⟨y, hround, hy⟩⟩
  · rw [hround]
    simpa [Number.ofNat] using h
  · rw [hround]
    simp [Number.ofNat]
  · rw [hround]
    rw [Number.ofNat, Ne, Number.finite.injEq]
    rintro rfl
    norm_num at hy

/-- The first byte of a suffix. -/
theorem max_zero_minus_suffix (hle : size.bytes ≤ 2 ^ 53) {length : ℕ} (hne : length ≠ 0) :
    Number.max (.ofNat 0) (size.number.minus (roundDouble length)) =
      .ofNat (size.bytes - length) := by
  by_cases hshort : length ≤ size.bytes ∧ length < 2 ^ 53
  · obtain ⟨hsize, hlt⟩ := hshort
    have hless : roundDouble ((size.bytes - length : ℕ) : ℚ) = .finite (size.bytes - length : ℕ) :=
      roundDouble_natCast (by omega)
    rw [roundDouble_natCast hlt]
    rw [FileSize.number, show Number.finite length = .ofNat length from rfl,
      Number.minus_ofNat hsize, hless, Number.max_zero_finite,
      if_neg (not_lt.mpr (Nat.cast_nonneg _))]
    rfl
  · -- what is taken away is at least the size
    have hzero : size.bytes - length = 0 := by omega
    rw [hzero]
    apply Number.max_zero_minus FileSize.number_ne_nan _ (roundDouble_ne_nan _)
    · have hmono : (roundDouble length).lt (roundDouble size.bytes) = false :=
        roundDouble_mono (Nat.cast_nonneg _) (by exact_mod_cast (by omega))
      rw [size.double] at hmono
      exact hmono
    · rcases roundDouble_nat_cases length with ⟨-, h⟩ | ⟨-, h | ⟨y, h, -⟩⟩
      all_goals rw [h]; simp
    · simp [FileSize.number, Number.ofNat]

/-- Which bytes a range of the answer stands for. -/
theorem right_iff_of_range {spec : RangeSpec} {start stop : Number}
    (h : spec.answer size.number = .range start stop) :
    spec.Right size ↔ ∃ s e : ℕ, start = .ofNat s ∧ stop = .ofNat e ∧ s ≤ e ∧ e < size.bytes ∧
      ∀ i, spec.Selects size.bytes i ↔ s ≤ i ∧ i ≤ e := by
  constructor
  · intro hright
    exact hright start stop h
  · rintro hrange start' stop' h'
    obtain ⟨rfl, rfl⟩ := RangeAnswer.range.inj (h.symm.trans h')
    exact hrange

theorem right_of_not_range {spec : RangeSpec}
    (h : ∀ start stop, spec.answer size.number ≠ .range start stop) : spec.Right size :=
  fun start stop hanswer => absurd hanswer (h start stop)

theorem right_suffix (size : FileSize) (length : ℕ) :
    (RangeSpec.suffix length).Right size ↔ (RangeSpec.suffix length).Answerable size := by
  by_cases hzero : length = 0
  · subst hzero
    refine iff_of_true (right_of_not_range fun start stop => ?_) (.inl rfl)
    have hround : roundDouble (0 : ℕ) = .ofNat 0 := roundDouble_natCast (by norm_num)
    rw [RangeSpec.answer, if_pos hround]
    simp
  have hanswer : (RangeSpec.suffix length).answer size.number =
      .range (Number.max (.ofNat 0) (size.number.minus (roundDouble length)))
        (size.number.minus (.ofNat 1)) := by
    rw [RangeSpec.answer, if_neg (roundDouble_ne_zero hzero)]
  rw [right_iff_of_range hanswer]
  constructor
  · rintro ⟨s, e, -, hstop, -, hlt, hselects⟩
    refine .inr ⟨by omega, ?_⟩
    by_contra hlarge
    -- the last byte is selected, and its number is no double
    have hlast := ((hselects (size.bytes - 1)).mp ⟨by omega, by omega⟩).2
    obtain rfl : e = size.bytes - 1 := by omega
    rw [FileSize.minus_one (by omega)] at hstop
    exact FileSize.minus_one_ne (by omega) (by omega) hstop
  · rintro (h | ⟨hpos, hle⟩)
    · exact absurd h hzero
    · refine ⟨size.bytes - length, size.bytes - 1, max_zero_minus_suffix hle hzero,
        FileSize.minus_one_of_le hpos hle, by omega, by omega, fun i => ?_⟩
      rw [RangeSpec.Selects]
      omega

theorem right_fromByte (size : FileSize) (first : ℕ) :
    (RangeSpec.fromByte first).Right size ↔ (RangeSpec.fromByte first).Answerable size := by
  by_cases hbeyond : size.number.le (roundDouble first) = true
  · refine iff_of_true (right_of_not_range fun start stop => ?_) (.inr hbeyond)
    rw [RangeSpec.answer, if_pos hbeyond]
    simp
  have hwithin := Bool.eq_false_iff.mpr hbeyond
  have hlt := FileSize.lt_of_not_le hwithin
  have hminus := @FileSize.minus_one size (by omega)
  have hanswer : (RangeSpec.fromByte first).answer size.number =
      .range (roundDouble first) (size.number.minus (.ofNat 1)) := by
    have hmono : (roundDouble (size.bytes - 1 : ℕ)).lt (roundDouble first) = false :=
      roundDouble_mono (Nat.cast_nonneg _) (by exact_mod_cast (by omega))
    rw [RangeSpec.answer, if_neg hbeyond, hminus, hmono]
    rfl
  rw [right_iff_of_range hanswer]
  constructor
  · rintro ⟨s, e, -, hstop, -, he, hselects⟩
    left
    by_contra hlarge
    have hlast := ((hselects (size.bytes - 1)).mp ⟨by omega, by omega⟩).2
    obtain rfl : e = size.bytes - 1 := by omega
    rw [hminus] at hstop
    exact FileSize.minus_one_ne (by omega) (by omega) hstop
  · rintro (hle | h)
    · refine ⟨first, size.bytes - 1, FileSize.roundDouble_first hle hwithin,
        FileSize.minus_one_of_le (by omega) hle, by omega, by omega, fun i => ?_⟩
      rw [RangeSpec.Selects]
      omega
    · exact absurd h hbeyond

/-- Up to 2 to the 53 bytes the last byte of a bounded range is exact. -/
theorem min_last (hpos : 0 < size.bytes) (hle : size.bytes ≤ 2 ^ 53) (last : ℕ) :
    Number.min (roundDouble last) (size.number.minus (.ofNat 1)) =
      .ofNat (min last (size.bytes - 1)) := by
  have hround : roundDouble ((size.bytes - 1 : ℕ) : ℚ) = .ofNat (size.bytes - 1) :=
    roundDouble_natCast (by omega)
  rw [FileSize.minus_one hpos]
  by_cases hlast : last ≤ size.bytes - 1
  · rw [Number.min_eq_left (roundDouble_ne_nan _) (roundDouble_ne_nan _)
      (roundDouble_mono (Nat.cast_nonneg _) (by exact_mod_cast hlast)), min_eq_left hlast]
    exact roundDouble_natCast (by omega)
  · have hmono : (roundDouble last).lt (roundDouble (size.bytes - 1 : ℕ)) = false :=
      roundDouble_mono (Nat.cast_nonneg _) (by exact_mod_cast (by omega))
    rw [Number.min_eq_ite (roundDouble_ne_nan _) (roundDouble_ne_nan _), hmono,
      min_eq_right (by omega)]
    exact hround

theorem ofNat_lt (a b : ℕ) : (Number.ofNat a).lt (.ofNat b) = decide (a < b) := by
  rw [Number.ofNat, Number.ofNat, Number.lt_finite]
  simp

theorem right_between (size : FileSize) (first last : ℕ) :
    (RangeSpec.between first last).Right size ↔
      (RangeSpec.between first last).Answerable size := by
  by_cases hbeyond : size.number.le (roundDouble first) = true
  · refine iff_of_true (right_of_not_range fun start stop => ?_) (.inr (.inl hbeyond))
    rw [RangeSpec.answer, if_pos hbeyond]
    simp
  have hwithin := Bool.eq_false_iff.mpr hbeyond
  have hlt := FileSize.lt_of_not_le hwithin
  have hminus := @FileSize.minus_one size (by omega)
  have hmono : (roundDouble (size.bytes - 1 : ℕ)).lt (roundDouble first) = false :=
    roundDouble_mono (Nat.cast_nonneg _) (by exact_mod_cast (by omega))
  have hmin : (Number.min (roundDouble last) (size.number.minus (.ofNat 1))).lt
      (roundDouble first) = (roundDouble last).lt (roundDouble first) := by
    rw [hminus, Number.min_lt_of_not_lt (roundDouble_ne_nan _) (roundDouble_ne_nan _) hmono]
  by_cases hback : (roundDouble last).lt (roundDouble first) = true
  · refine iff_of_true (right_of_not_range fun start stop => ?_) (.inr (.inr (.inl hback)))
    rw [RangeSpec.answer, if_neg hbeyond, hmin, if_pos hback]
    simp
  have hanswer : (RangeSpec.between first last).answer size.number =
      .range (roundDouble first)
        (Number.min (roundDouble last) (size.number.minus (.ofNat 1))) := by
    rw [RangeSpec.answer, if_neg hbeyond, hmin, if_neg hback]
  rw [right_iff_of_range hanswer]
  constructor
  · rintro ⟨s, e, hstart, hstop, hse, he, hselects⟩
    by_cases hlarge : size.bytes ≤ 2 ^ 53
    · exact .inl hlarge
    -- the two ends of the stretch are those of the range
    have hs := (hselects s).mpr ⟨le_rfl, hse⟩
    have he' := (hselects e).mpr ⟨hse, le_rfl⟩
    have hfirst := (hselects first).mp ⟨hlt, le_rfl, by exact hs.2.1.trans hs.2.2⟩
    rw [RangeSpec.Selects] at hs he'
    obtain rfl : s = first := by omega
    have hlast := (hselects (min last (size.bytes - 1))).mp ⟨by omega, by omega, by omega⟩
    obtain rfl : e = min last (size.bytes - 1) := by omega
    -- the minimum is one of two doubles, and neither is the odd number
    have hshort : last ≤ size.bytes - 1 := by
      by_contra hlong
      rw [min_eq_right (by omega), hminus,
        Number.min_eq_ite (roundDouble_ne_nan _) (roundDouble_ne_nan _)] at hstop
      split_ifs at hstop
      · exact FileSize.minus_one_ne (by omega) (by omega) hstop
      · exact FileSize.minus_one_ne (by omega) (by omega) hstop
    rw [min_eq_left hshort, hminus, Number.min_eq_left (roundDouble_ne_nan _)
      (roundDouble_ne_nan _) (roundDouble_mono (Nat.cast_nonneg _) (by exact_mod_cast hshort))]
      at hstop
    exact .inr (.inr (.inr ⟨hstart, hstop, by omega⟩))
  · rintro (hle | h | h | ⟨hfirst, hlast, hin⟩)
    · have hordered : first ≤ min last (size.bytes - 1) := by
        rw [min_last (by omega) hle, FileSize.roundDouble_first hle hwithin, ofNat_lt] at hmin
        rw [FileSize.roundDouble_first hle hwithin, ← hmin] at hback
        simpa using hback
      refine ⟨first, min last (size.bytes - 1), FileSize.roundDouble_first hle hwithin,
        min_last (by omega) hle last, hordered, by omega, fun i => ?_⟩
      rw [RangeSpec.Selects]
      omega
    · exact absurd h hbeyond
    · exact absurd h hback
    · have hordered : first ≤ last := by
        rw [hfirst, hlast, ofNat_lt] at hback
        simpa using hback
      refine ⟨first, last, hfirst, ?_, hordered, hin, fun i => ?_⟩
      · rw [hminus, Number.min_eq_left (roundDouble_ne_nan _) (roundDouble_ne_nan _)
          (roundDouble_mono (Nat.cast_nonneg _) (by exact_mod_cast (by omega)))]
        exact hlast
      · rw [RangeSpec.Selects]
        omega

/-- A header is answered a stretch of the file's bytes, and of those it selects, just when every
range it spells is an answerable one. -/
theorem parseRange_right_iff (header : JsString) (size : FileSize) :
    AnsweredRight header size ↔
      ∀ spec, SpellsRange (trim header) spec → spec.Answerable size := by
  rw [answeredRight_iff]
  apply forall₂_congr
  intro spec _
  cases spec with
  | suffix length => exact right_suffix size length
  | fromByte first => exact right_fromByte size first
  | between first last => exact right_between size first last

/-- The last five bytes of an empty file are answered as the range from 0 to -1. -/
theorem parseRange_empty_file :
    ¬AnsweredRight (js "bytes=-5") (.ofSafe 0 (by decide)) := by
  intro h
  have hanswer : parseRange (js "bytes=-5") (.ofNat 0) = .range (.finite 0) (.finite (-1)) := by
    decide +kernel
  obtain ⟨s, e, -, -, -, hlt, -⟩ := h _ _ hanswer
  exact absurd hlt (Nat.not_lt_zero e)

end Keala.Middleware
