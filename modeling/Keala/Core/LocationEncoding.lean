import Keala.Core.Redirect
import Keala.Js.WellFormed

/-!
What `encodeUrlValue` makes of any text: each round of its loop as a rule, and
by induction on the rounds that the location is safe, that encoding it again
leaves it as it is and that it stands for the same octets.
-/

namespace Keala.Core

open Keala.Js Keala.Http

/-! ### What a text stands for -/

/-- The octets of a code point; a lone surrogate has those of U+FFFD. -/
def pointOctets (point : ℕ) : List ℕ := utf8 (if isSurrogate point then 0xFFFD else point)

def pairPoint (high low : CodeUnit) : ℕ :=
  0x10000 + (high.toNat - 0xD800) * 0x400 + (low.toNat - 0xDC00)

/-- Percent-decoding to octets. A percent sign that begins no escape is taken literally, and
everything but the escapes is written in UTF-8. -/
def percentDecode : JsString → List ℕ
  | [] => []
  | [c] => pointOctets c.toNat
  | [c, d] =>
      if isHigh c && isLow d then pointOctets (pairPoint c d)
      else pointOctets c.toNat ++ percentDecode [d]
  | c :: d :: e :: text =>
      match octet [c, d, e] with
      | some (b, _) => b :: percentDecode text
      | none =>
          if isHigh c && isLow d then pointOctets (pairPoint c d) ++ percentDecode (e :: text)
          else pointOctets c.toNat ++ percentDecode (d :: e :: text)

example : percentDecode (js "%41%zz%") = [65, 37, 122, 122, 37] := by decide

/-! ### The rounds of the loop -/

inductive Encodes : JsString → JsString → Prop
  | nil : Encodes [] []
  | escape {d e : CodeUnit} {text out : JsString} (hd : isHexDigit d = true)
      (he : isHexDigit e = true) (h : Encodes text out) :
      Encodes (percent :: d :: e :: text) (percent :: d :: e :: out)
  | stray {text out : JsString} (hstray : octet (percent :: text) = none) (h : Encodes text out) :
      Encodes (percent :: text) (js "%25" ++ out)
  | unit {c : CodeUnit} {text out : JsString} (hne : c ≠ percent)
      (hlone : ∀ d ∈ text.head?, (isHigh c && isLow d) = false) (h : Encodes text out) :
      Encodes (c :: text) (encodeUnit c ++ out)
  | pair {c d : CodeUnit} {text out : JsString} (hpair : (isHigh c && isLow d) = true)
      (h : Encodes text out) : Encodes (c :: d :: text) (percentEncoded (pairPoint c d) ++ out)

theorem octet_of_ne {c : CodeUnit} (h : c ≠ percent) (text : JsString) :
    octet (c :: text) = none := by
  rcases text with _ | ⟨d, _ | ⟨e, text⟩⟩
  · rfl
  · rfl
  · rw [octet, if_neg h]

theorem encodes_encodeUrlValue (text : JsString) : Encodes text (encodeUrlValue text) := by
  induction text using encodeUrlValue.induct with
  | case1 => exact .nil
  | case2 => exact .stray rfl .nil
  | case3 c hc =>
      have hround := Encodes.unit hc (fun d hd => absurd hd (by simp)) .nil
      rw [List.append_nil] at hround
      rwa [encodeUrlValue, if_neg hc]
  | case4 d ih =>
      rw [encodeUrlValue, if_pos rfl]
      exact .stray rfl ih
  | case5 c d hc hpair =>
      have hround := Encodes.pair hpair .nil
      rw [List.append_nil] at hround
      rw [encodeUrlValue, if_neg hc, if_pos hpair]
      exact hround
  | case6 c d hc hpair ih =>
      rw [encodeUrlValue, if_neg hc, if_neg hpair]
      exact .unit hc (fun k hk => by obtain rfl := Option.some.inj hk; simpa using hpair) ih
  | case7 d e text hhex ih =>
      rw [encodeUrlValue, if_pos rfl, if_pos hhex]
      rw [Bool.and_eq_true] at hhex
      exact .escape hhex.1 hhex.2 ih
  | case8 d e text hhex ih =>
      have hstray : octet (percent :: d :: e :: text) = none := by
        rw [← Option.isNone_iff_eq_none, ← Option.isSome_eq_false_iff, octet_isSome_iff]
        exact Bool.eq_false_iff.mpr hhex
      rw [encodeUrlValue, if_pos rfl, if_neg hhex]
      exact .stray hstray ih
  | case9 c d e text hc hpair ih =>
      rw [encodeUrlValue, if_neg hc, if_pos hpair]
      exact .pair hpair ih
  | case10 c d e text hc hpair ih =>
      rw [encodeUrlValue, if_neg hc, if_neg hpair]
      exact .unit hc (fun k hk => by obtain rfl := Option.some.inj hk; simpa using hpair) ih

/-! ### What is written -/

/-- A location in which each percent sign begins an escape, and all else is kept as it is. -/
inductive Encoded : JsString → Prop
  | nil : Encoded []
  | kept {c : CodeUnit} {text : JsString} (hc : isKept c = true) (h : Encoded text) :
      Encoded (c :: text)
  | escape {d e : CodeUnit} {text : JsString} (hd : isHexDigit d = true) (he : isHexDigit e = true)
      (h : Encoded text) : Encoded (percent :: d :: e :: text)

theorem isHexDigit_hexDigit {n : ℕ} (h : n < 16) : isHexDigit (hexDigit n) = true := by
  rw [isHexDigit, hexValue_hexDigit h]
  rfl

theorem Encoded.bytes {octets : List ℕ} (hoctets : ∀ b ∈ octets, b < 256) {text : JsString}
    (h : Encoded text) : Encoded (octets.flatMap percentByte ++ text) := by
  induction octets with
  | nil => exact h
  | cons b octets ih =>
      obtain ⟨hb, hrest⟩ := List.forall_mem_cons.mp hoctets
      rw [List.flatMap_cons, List.append_assoc]
      exact .escape (isHexDigit_hexDigit (by omega)) (isHexDigit_hexDigit (by omega)) (ih hrest)

theorem utf8_lt {point : ℕ} (hmax : point ≤ 0x10FFFF) (hsur : isSurrogate point = false) :
    ∀ b ∈ utf8 point, b < 256 := by
  obtain ⟨b, bs, hutf8, hoctets, -⟩ := utf8_spec hmax hsur
  rw [hutf8]
  exact hoctets

theorem pointOctets_lt {point : ℕ} (hmax : point ≤ 0x10FFFF) :
    ∀ b ∈ pointOctets point, b < 256 := by
  rw [pointOctets]
  split
  · have hreplacement : utf8 0xFFFD = [0xEF, 0xBF, 0xBD] := by decide
    rw [hreplacement]
    simp
  · next hsur => exact utf8_lt hmax (by simpa using hsur)

theorem pairPoint_le {c d : CodeUnit} (h : (isHigh c && isLow d) = true) :
    pairPoint c d ≤ 0x10FFFF := by
  have hbounds := pair_bounds h
  unfold pairPoint
  omega

theorem unit_le (c : CodeUnit) : c.toNat ≤ 0x10FFFF := by
  have hlt := c.toNat_lt
  omega

/-- Each round writes escapes and kept units only. -/
theorem Encodes.encoded {text out : JsString} (h : Encodes text out) : Encoded out := by
  induction h with
  | nil => exact .nil
  | escape hd he _ ih => exact .escape hd he ih
  | stray _ _ ih => exact .escape rfl rfl ih
  | @unit c _ _ hne _ _ ih =>
      rw [encodeUnit]
      split
      · exact ih.bytes (pointOctets_lt (unit_le c))
      · next hsafe => exact .kept (by simp [isKept, hne, hsafe]) ih
  | pair hpair _ ih => exact ih.bytes (pointOctets_lt (pairPoint_le hpair))

/-- An encoded text is left as it is. -/
theorem Encoded.encodeUrlValue_eq {text : JsString} (h : Encoded text) :
    encodeUrlValue text = text := by
  induction h with
  | nil => rfl
  | kept hc _ ih => rw [encodeUrlValue_kept hc, ih]
  | escape hd he _ ih =>
      rw [encodeUrlValue, if_pos rfl, if_pos (by rw [hd, he]; rfl), ih]

def isLocationChar (c : CodeUnit) : Bool :=
  0x21 ≤ c && c ≤ 0x7E && !(js "\"<>`\x7b\x7d\\").contains c

theorem isLocationChar_of_plain {c : CodeUnit} (hplain : isPlain c = true)
    (h : (isKept c || isHexDigit c) = true) : isLocationChar c = true := by
  have hall : ∀ n < 127, (!(isKept n.toUInt16 || isHexDigit n.toUInt16) ||
      isLocationChar n.toUInt16 || !isPlain n.toUInt16) = true := by
    decide +kernel
  obtain ⟨n, hn, rfl⟩ : ∃ n < 127, c = n.toUInt16 := by
    simp only [isPlain, Bool.and_eq_true, decide_eq_true_eq] at hplain
    have hle := UInt16.le_iff_toNat_le.mp hplain.1.2
    exact ⟨c.toNat, Nat.lt_succ_of_le hle, UInt16.ofNat_toNat.symm⟩
  simpa [h, hplain] using hall n hn

theorem isLocationChar_of_kept {c : CodeUnit} (h : isKept c = true) : isLocationChar c = true :=
  isLocationChar_of_plain (isPlain_of_kept h) (by rw [h, Bool.true_or])

theorem isLocationChar_of_isHexDigit {c : CodeUnit} (h : isHexDigit c = true) :
    isLocationChar c = true :=
  isLocationChar_of_plain (isPlain_of_isHexDigit h) (by rw [h, Bool.or_true])

theorem Encoded.locationChars {text : JsString} (h : Encoded text) :
    ∀ c ∈ text, isLocationChar c = true := by
  induction h with
  | nil => exact fun _ hc => absurd hc List.not_mem_nil
  | kept hc _ ih => exact List.forall_mem_cons.mpr ⟨isLocationChar_of_kept hc, ih⟩
  | escape hd he _ ih =>
      exact List.forall_mem_cons.mpr ⟨rfl, List.forall_mem_cons.mpr
        ⟨isLocationChar_of_isHexDigit hd, List.forall_mem_cons.mpr
          ⟨isLocationChar_of_isHexDigit he, ih⟩⟩⟩

theorem percent_not_hex {c : CodeUnit} (h : isHexDigit c = true) : c ≠ percent := by
  rintro rfl
  cases h

/-- A percent sign is the first of an escape, for no escape has one behind its own. -/
theorem Encoded.escapes {text : JsString} (h : Encoded text) {front rest : JsString}
    (hsplit : text = front ++ percent :: rest) :
    ∃ d e tail, rest = d :: e :: tail ∧ isHexDigit d = true ∧ isHexDigit e = true := by
  induction h generalizing front with
  | nil => exact absurd hsplit.symm (by simp)
  | @kept c text hc _ ih =>
      cases front with
      | nil =>
          obtain ⟨rfl, -⟩ := List.cons.inj hsplit
          cases hc
      | cons k front => exact ih (List.cons.inj hsplit).2
  | @escape d e text hd he _ ih =>
      rcases front with _ | ⟨k, _ | ⟨l, _ | ⟨m, front⟩⟩⟩
      · obtain ⟨-, rfl⟩ := List.cons.inj hsplit
        exact ⟨d, e, text, rfl, hd, he⟩
      · have hpercent := (List.cons.inj (List.cons.inj hsplit).2).1
        exact absurd hpercent (percent_not_hex hd)
      · have hpercent := (List.cons.inj (List.cons.inj (List.cons.inj hsplit).2).2).1
        exact absurd hpercent (percent_not_hex he)
      · exact ih (List.cons.inj (List.cons.inj (List.cons.inj hsplit).2).2).2

/-! ### What it stands for -/

theorem percentDecode_octet {c d e : CodeUnit} {b : ℕ} (h : octet [c, d, e] = some (b, []))
    (text : JsString) : percentDecode (c :: d :: e :: text) = b :: percentDecode text := by
  rw [percentDecode, h]

theorem percentDecode_percentByte {b : ℕ} (hb : b < 256) (text : JsString) :
    percentDecode (percentByte b ++ text) = b :: percentDecode text := by
  have hoctet := octet_percentByte hb []
  rw [List.append_nil] at hoctet
  exact percentDecode_octet hoctet text

theorem percentDecode_bytes {octets : List ℕ} (hoctets : ∀ b ∈ octets, b < 256) (text : JsString) :
    percentDecode (octets.flatMap percentByte ++ text) = octets ++ percentDecode text := by
  induction octets with
  | nil => rfl
  | cons b octets ih =>
      obtain ⟨hb, hrest⟩ := List.forall_mem_cons.mp hoctets
      rw [List.flatMap_cons, List.append_assoc, percentDecode_percentByte hb, ih hrest,
        List.cons_append]

/-- A unit that begins neither an escape nor a pair. -/
theorem percentDecode_unit {c : CodeUnit} {text : JsString} (hoctet : octet (c :: text) = none)
    (hlone : ∀ d ∈ text.head?, (isHigh c && isLow d) = false) :
    percentDecode (c :: text) = pointOctets c.toNat ++ percentDecode text := by
  rcases text with _ | ⟨d, _ | ⟨e, text⟩⟩
  · exact (List.append_nil _).symm
  · conv_lhs => rw [percentDecode, if_neg (by rw [hlone d rfl]; exact Bool.false_ne_true)]
  · have hnone : octet [c, d, e] = none := by
      rw [← Option.isNone_iff_eq_none, ← Option.isSome_eq_false_iff, octet_isSome_iff] at hoctet ⊢
      exact hoctet
    rw [percentDecode, hnone]
    dsimp only
    rw [if_neg (by rw [hlone d rfl]; exact Bool.false_ne_true)]

theorem percentDecode_pair {c d : CodeUnit} (hpair : (isHigh c && isLow d) = true)
    (text : JsString) :
    percentDecode (c :: d :: text) = pointOctets (pairPoint c d) ++ percentDecode text := by
  have hne : c ≠ percent := by
    rintro rfl
    cases hpair
  cases text with
  | nil =>
      conv_lhs => rw [percentDecode, if_pos hpair]
      exact (List.append_nil _).symm
  | cons e text =>
      rw [percentDecode, octet_of_ne hne]
      dsimp only
      rw [if_pos hpair]

theorem pointOctets_kept {c : CodeUnit} (h : isUnsafe c.toNat = false) :
    pointOctets c.toNat = [c.toNat] ∧ isHigh c = false := by
  simp only [isUnsafe, Bool.or_eq_false_iff, decide_eq_false_iff_not] at h
  have hsur : isSurrogate c.toNat = false := by
    simp [isSurrogate]
    omega
  refine ⟨?_, isHigh_false_of_not_surrogate hsur⟩
  rw [pointOctets, hsur, utf8, if_neg Bool.false_ne_true, if_pos (by omega)]

/-- A round writes what stands for the same octets. -/
theorem Encodes.decode {text out : JsString} (h : Encodes text out) :
    percentDecode out = percentDecode text := by
  induction h with
  | nil => rfl
  | @escape d e text out hd he _ ih =>
      obtain ⟨⟨b, rest⟩, hb⟩ : ∃ found, octet [percent, d, e] = some found := by
        rw [← Option.isSome_iff_exists, octet_isSome_iff]
        change (true && (isHexDigit d && isHexDigit e)) = true
        rw [hd, he]
        rfl
      have hrest : rest = [] := by
        obtain ⟨high, low, hsplit, -⟩ := octet_some hb
        exact (List.cons.inj (List.cons.inj (List.cons.inj hsplit).2).2).2.symm
      subst hrest
      rw [percentDecode_octet hb, percentDecode_octet hb, ih]
  | @stray text out hstray _ ih =>
      have hwritten : percentDecode (js "%25" ++ out) = 37 :: percentDecode out :=
        @percentDecode_percentByte 37 (by decide) out
      have hread := percentDecode_unit hstray fun d _ => rfl
      rw [hwritten, hread, ih]
      rfl
  | @unit c text out hne hlone _ ih =>
      rw [percentDecode_unit (octet_of_ne hne text) hlone, encodeUnit, ← ih]
      split
      · exact percentDecode_bytes (pointOctets_lt (unit_le c)) out
      · next hsafe =>
          have hhigh := (pointOctets_kept (by simpa using hsafe)).2
          exact percentDecode_unit (octet_of_ne hne out) fun d _ => by rw [hhigh, Bool.false_and]
  | @pair c d text out hpair _ ih =>
      rw [percentDecode_pair hpair, ← ih]
      exact percentDecode_bytes (pointOctets_lt (pairPoint_le hpair)) out

/-- Whatever the text, its location is made of characters that are safe there and of escapes,
is encoded already and stands for the same octets, of which UTF-8 makes the same text. -/
theorem encodeUrlValue_spec (text : JsString) :
    (∀ c ∈ encodeUrlValue text, isLocationChar c = true) ∧
      (∀ front rest, encodeUrlValue text = front ++ percent :: rest →
        ∃ d e tail, rest = d :: e :: tail ∧ isHexDigit d = true ∧ isHexDigit e = true) ∧
      encodeUrlValue (encodeUrlValue text) = encodeUrlValue text ∧
      percentDecode (encodeUrlValue text) = percentDecode text := by
  have hencodes := encodes_encodeUrlValue text
  have hencoded := hencodes.encoded
  exact ⟨hencoded.locationChars, fun _ _ hsplit => hencoded.escapes hsplit,
    hencoded.encodeUrlValue_eq, hencodes.decode⟩

end Keala.Core
