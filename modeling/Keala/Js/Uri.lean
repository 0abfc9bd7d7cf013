import Keala.Js.Text

/-!
Code points, UTF-8 and `encodeURIComponent`. What the encoder writes the
decoder reads back.
-/

namespace Keala.Js

def isHigh (c : CodeUnit) : Bool := 0xD800 ≤ c && c < 0xDC00

def isLow (c : CodeUnit) : Bool := 0xDC00 ≤ c && c < 0xE000

/-- The code points of a text; a lone surrogate is one of its own. -/
def codePoints : JsString → List ℕ
  | [] => []
  | [c] => [c.toNat]
  | c :: d :: text =>
      if isHigh c && isLow d then
        (0x10000 + (c.toNat - 0xD800) * 0x400 + (d.toNat - 0xDC00)) :: codePoints text
      else c.toNat :: codePoints (d :: text)

def isSurrogate (cp : ℕ) : Bool := 0xD800 ≤ cp && cp < 0xE000

def utf8 (cp : ℕ) : List ℕ :=
  if cp < 0x80 then [cp]
  else if cp < 0x800 then [0xC0 + cp / 64, 0x80 + cp % 64]
  else if cp < 0x10000 then [0xE0 + cp / 4096, 0x80 + cp / 64 % 64, 0x80 + cp % 64]
  else [0xF0 + cp / 0x40000, 0x80 + cp / 4096 % 64, 0x80 + cp / 64 % 64, 0x80 + cp % 64]

def hexDigit (n : ℕ) : CodeUnit := if n < 10 then (48 + n).toUInt16 else (55 + n).toUInt16

/-- `%XY`. -/
def percentByte (b : ℕ) : JsString := [percent, hexDigit (b / 16), hexDigit (b % 16)]

/-- What `encodeURIComponent` leaves as it is. -/
def isUnreserved (cp : ℕ) : Bool :=
  (48 ≤ cp && cp ≤ 57) || (65 ≤ cp && cp ≤ 90) || (97 ≤ cp && cp ≤ 122) ||
    [45, 95, 46, 33, 126, 42, 39, 40, 41].contains cp

def encodePoint (cp : ℕ) : Option JsString :=
  if isUnreserved cp then some [cp.toUInt16]
  else if isSurrogate cp then none
  else some ((utf8 cp).flatMap percentByte)

/-- `none` is the `URIError` of a lone surrogate. -/
def encodeURIComponent (text : JsString) : Option JsString :=
  ((codePoints text).mapM encodePoint).map List.flatten

example : encodeURIComponent (js "a/" ++ [233]) = some (js "a%2F%C3%A9") := by decide

/-! ### Reading octets back -/

theorem hexValue_hexDigit {n : ℕ} (h : n < 16) : hexValue (hexDigit n) = some n := by
  revert n
  decide

theorem octet_percentByte {b : ℕ} (h : b < 256) (rest : JsString) :
    octet (percentByte b ++ rest) = some (b, rest) := by
  have hhigh : hexValue (hexDigit (b / 16)) = some (b / 16) := hexValue_hexDigit (by omega)
  have hlow : hexValue (hexDigit (b % 16)) = some (b % 16) := hexValue_hexDigit (by omega)
  have hsum : 16 * (b / 16) + b % 16 = b := by omega
  simp [percentByte, octet, hhigh, hlow, hsum]

theorem octets_percentBytes {bs : List ℕ} (h : ∀ b ∈ bs, b < 256) (rest : JsString) :
    octets bs.length (bs.flatMap percentByte ++ rest) = some (bs, rest) := by
  induction bs with
  | nil => rfl
  | cons b bs ih =>
      have hb := octet_percentByte (h b List.mem_cons_self) (bs.flatMap percentByte ++ rest)
      have htail := ih fun b hb => h b (List.mem_cons_of_mem _ hb)
      rw [List.flatMap_cons, List.append_assoc, List.length_cons, octets, hb]
      simp [htail]

/-- A code point that is no surrogate is read back from its octets. -/
theorem utf8_spec {cp : ℕ} (hmax : cp ≤ 0x10FFFF) (hsur : isSurrogate cp = false) :
    ∃ b bs, utf8 cp = b :: bs ∧ (∀ x ∈ b :: bs, x < 256) ∧
      sequenceLength b = (b :: bs).length ∧ codePoint (b :: bs) = some cp := by
  have hrange : cp < 0xD800 ∨ 0xE000 ≤ cp := by
    simp [isSurrogate] at hsur
    omega
  rw [utf8]
  split
  · next h1 =>
      refine ⟨cp, [], rfl, by simp; omega, ?_, ?_⟩
      · simp [sequenceLength, h1]
      · simp [codePoint, h1]
  · split
    · next h1 h2 =>
        refine ⟨_, _, rfl, by simp; omega, ?_, ?_⟩
        · rw [sequenceLength, if_neg (by omega), if_neg (by omega), if_pos (by omega)]
          rfl
        · have hsum : (0xC0 + cp / 64 - 0xC0) * 64 + (0x80 + cp % 64 - 0x80) = cp := by omega
          have htail : isTail (0x80 + cp % 64) = true := by simp [isTail]; omega
          rw [codePoint, hsum, htail, if_pos]
          simp
          omega
    · split
      · next h1 h2 h3 =>
          refine ⟨_, _, rfl, by simp; omega, ?_, ?_⟩
          · rw [sequenceLength, if_neg (by omega), if_neg (by omega), if_neg (by omega),
              if_pos (by omega)]
            rfl
          · have hsum : ((0xE0 + cp / 4096 - 0xE0) * 64 + (0x80 + cp / 64 % 64 - 0x80)) * 64 +
                (0x80 + cp % 64 - 0x80) = cp := by omega
            have hmid : isTail (0x80 + cp / 64 % 64) = true := by simp [isTail]; omega
            have htail : isTail (0x80 + cp % 64) = true := by simp [isTail]; omega
            rw [codePoint, hsum, hmid, htail, if_pos]
            simp
            omega
      · next h1 h2 h3 =>
          refine ⟨_, _, rfl, by simp; omega, ?_, ?_⟩
          · rw [sequenceLength, if_neg (by omega), if_neg (by omega), if_neg (by omega),
              if_neg (by omega), if_pos (by omega)]
            rfl
          · have hsum : (((0xF0 + cp / 0x40000 - 0xF0) * 64 + (0x80 + cp / 4096 % 64 - 0x80)) * 64 +
                (0x80 + cp / 64 % 64 - 0x80)) * 64 + (0x80 + cp % 64 - 0x80) = cp := by omega
            have hfirst : isTail (0x80 + cp / 4096 % 64) = true := by simp [isTail]; omega
            have hmid : isTail (0x80 + cp / 64 % 64) = true := by simp [isTail]; omega
            have htail : isTail (0x80 + cp % 64) = true := by simp [isTail]; omega
            rw [codePoint, hsum, hfirst, hmid, htail, if_pos]
            simp
            omega

theorem escaped_utf8 {cp : ℕ} (hmax : cp ≤ 0x10FFFF) (hsur : isSurrogate cp = false)
    (rest : JsString) :
    escaped ((utf8 cp).flatMap percentByte ++ rest) = some (utf16 cp, rest) := by
  obtain ⟨b, bs, hutf8, hsmall, hlen, hcode⟩ := utf8_spec hmax hsur
  have hfirst := octet_percentByte (hsmall b List.mem_cons_self) (bs.flatMap percentByte ++ rest)
  have hall := octets_percentBytes hsmall rest
  rw [← List.append_assoc, ← List.flatMap_cons] at hfirst
  rw [hutf8, escaped, hfirst]
  simp only [Option.bind_eq_bind, Option.bind_some, hlen, hall, hcode]
  rfl

/-! ### The round trip -/

theorem pair_bounds {c d : CodeUnit} (h : (isHigh c && isLow d) = true) :
    (0xD800 ≤ c.toNat ∧ c.toNat < 0xDC00) ∧ 0xDC00 ≤ d.toNat ∧ d.toNat < 0xE000 := by
  simp only [isHigh, isLow, Bool.and_eq_true, decide_eq_true_eq] at h
  exact h

theorem utf16_of_unit (c : CodeUnit) : utf16 c.toNat = [c] := by
  have hlt := c.toNat_lt
  rw [utf16, if_pos (by omega)]
  exact congrArg (fun unit => [unit]) (UInt16.ofNat_toNat (x := c))

theorem utf16_of_pair {c d : CodeUnit} (h : (isHigh c && isLow d) = true) :
    utf16 (0x10000 + (c.toNat - 0xD800) * 0x400 + (d.toNat - 0xDC00)) = [c, d] := by
  obtain ⟨hc, hd⟩ := pair_bounds h
  have hfirst : 0xD800 + (0x10000 + (c.toNat - 0xD800) * 0x400 + (d.toNat - 0xDC00) - 0x10000) /
      0x400 = c.toNat := by omega
  have hsecond : 0xDC00 + (0x10000 + (c.toNat - 0xD800) * 0x400 + (d.toNat - 0xDC00) - 0x10000) %
      0x400 = d.toNat := by omega
  rw [utf16, if_neg (by omega), hfirst, hsecond]
  exact congrArg₂ (fun unit next => [unit, next]) UInt16.ofNat_toNat UInt16.ofNat_toNat

/-- The units of the code points are the text. -/
theorem flatMap_utf16_codePoints (text : JsString) : (codePoints text).flatMap utf16 = text := by
  induction text using codePoints.induct with
  | case1 => rfl
  | case2 c => rw [codePoints, List.flatMap_singleton, utf16_of_unit]
  | case3 c d text hpair ih =>
      rw [codePoints, if_pos hpair, List.flatMap_cons, utf16_of_pair hpair, ih]
      rfl
  | case4 c d text hpair ih =>
      rw [codePoints, if_neg hpair, List.flatMap_cons, utf16_of_unit, ih]
      rfl

theorem le_of_mem_codePoints {text : JsString} {cp : ℕ} (h : cp ∈ codePoints text) :
    cp ≤ 0x10FFFF := by
  induction text using codePoints.induct with
  | case1 => cases h
  | case2 c =>
      have hlt := c.toNat_lt
      rw [codePoints, List.mem_singleton] at h
      omega
  | case3 c d text hpair ih =>
      rw [codePoints, if_pos hpair, List.mem_cons] at h
      rcases h with h | h
      · have hbounds := pair_bounds hpair
        omega
      · exact ih h
  | case4 c d text hpair ih =>
      have hlt := c.toNat_lt
      rw [codePoints, if_neg hpair, List.mem_cons] at h
      rcases h with rfl | h
      · omega
      · exact ih h

/-- An encoded point is its own unit, or the octets of a character. -/
theorem encodePoint_cases {cp : ℕ} {part : JsString} (h : encodePoint cp = some part) :
    (cp < 0x80 ∧ isUnreserved cp = true ∧ part = [cp.toUInt16]) ∨
      isSurrogate cp = false ∧ part = (utf8 cp).flatMap percentByte := by
  rw [encodePoint] at h
  split at h
  · next hun =>
      refine .inl ⟨?_, hun, (Option.some.inj h).symm⟩
      simp [isUnreserved] at hun
      omega
  · split at h
    · cases h
    · next hsur => exact .inr ⟨by simpa using hsur, (Option.some.inj h).symm⟩

/-- One part is decoded in one round. -/
theorem decodeWithin_encodePoint {cp : ℕ} {part : JsString} (h : encodePoint cp = some part)
    (hmax : cp ≤ 0x10FFFF) (rest : JsString) (fuel : ℕ) :
    decodeWithin (fuel + 1) (part ++ rest) =
      (decodeWithin fuel rest).map fun decoded => utf16 cp ++ decoded := by
  rcases encodePoint_cases h with ⟨hsmall, hun, rfl⟩ | ⟨hsur, rfl⟩
  · have hne : cp.toUInt16 ≠ percent := by
      intro heq
      have hcp : cp = 37 := by
        have hnat := congrArg UInt16.toNat heq
        rw [Nat.toUInt16, UInt16.toNat_ofNat', Nat.mod_eq_of_lt (by omega)] at hnat
        exact hnat
      rw [hcp] at hun
      revert hun
      decide
    rw [List.singleton_append, decodeWithin_plain hne, utf16, if_pos (by omega)]
    rfl
  · have hescaped := escaped_utf8 hmax hsur rest
    obtain ⟨b, bs, hutf8, -⟩ := utf8_spec hmax hsur
    rw [hutf8, List.flatMap_cons, percentByte, List.cons_append, List.cons_append] at hescaped ⊢
    exact decodeWithin_escaped hescaped fuel

theorem encodePoint_ne_nil {cp : ℕ} {part : JsString} (h : encodePoint cp = some part)
    (hmax : cp ≤ 0x10FFFF) : part ≠ [] := by
  rcases encodePoint_cases h with ⟨-, -, rfl⟩ | ⟨hsur, rfl⟩
  · exact List.cons_ne_nil _ _
  · obtain ⟨b, bs, hutf8, -⟩ := utf8_spec hmax hsur
    rw [hutf8]
    exact List.cons_ne_nil _ _

theorem decodeWithin_parts {cps : List ℕ} {parts : List JsString}
    (h : cps.mapM encodePoint = some parts) (hmax : ∀ cp ∈ cps, cp ≤ 0x10FFFF) (fuel : ℕ)
    (hfuel : parts.flatten.length ≤ fuel) :
    decodeWithin fuel parts.flatten = some (cps.flatMap utf16) := by
  induction cps generalizing parts fuel with
  | nil =>
      obtain rfl : [] = parts := Option.some.inj h
      rw [List.flatten_nil, decodeWithin]
      rfl
  | cons cp cps ih =>
      rw [List.mapM_cons] at h
      obtain ⟨part, hpart, h⟩ := Option.bind_eq_some_iff.mp h
      obtain ⟨others, hothers, h⟩ := Option.bind_eq_some_iff.mp h
      obtain rfl : part :: others = parts := Option.some.inj h
      have hcp := hmax cp List.mem_cons_self
      have hlen := List.length_pos_of_ne_nil (encodePoint_ne_nil hpart hcp)
      rw [List.flatten_cons, List.length_append] at hfuel
      obtain ⟨fuel, rfl⟩ : ∃ rounds, fuel = rounds + 1 := ⟨fuel - 1, by omega⟩
      have htail := ih hothers (fun cp h => hmax cp (List.mem_cons_of_mem _ h)) fuel (by omega)
      rw [List.flatten_cons, decodeWithin_encodePoint hpart hcp, htail, List.flatMap_cons]
      rfl

/-- What `encodeURIComponent` writes, `decodeURIComponent` reads back. -/
theorem decode_encodeURIComponent {text encoded : JsString}
    (h : encodeURIComponent text = some encoded) : decodeURIComponent encoded = some text := by
  obtain ⟨parts, hparts, rfl⟩ := Option.map_eq_some_iff.mp h
  have hread := decodeWithin_parts hparts (fun _ => le_of_mem_codePoints) _ (Nat.le_refl _)
  rwa [flatMap_utf16_codePoints] at hread

theorem encodeURIComponent_inj {a b encoded : JsString} (ha : encodeURIComponent a = some encoded)
    (hb : encodeURIComponent b = some encoded) : a = b := by
  have hread := decode_encodeURIComponent ha
  rw [decode_encodeURIComponent hb] at hread
  exact (Option.some.inj hread).symm

/-! ### What the encoder writes -/

def isEncoded (c : CodeUnit) : Bool := isUnreserved c.toNat || c = percent

theorem isEncoded_hexDigit {n : ℕ} (h : n < 16) : isEncoded (hexDigit n) = true := by
  revert n
  decide

theorem isEncoded_percentByte {b : ℕ} (hb : b < 256) {c : CodeUnit} (h : c ∈ percentByte b) :
    isEncoded c = true := by
  rw [percentByte, List.mem_cons, List.mem_cons, List.mem_singleton] at h
  rcases h with rfl | rfl | rfl
  · rfl
  · exact isEncoded_hexDigit (by omega)
  · exact isEncoded_hexDigit (by omega)

theorem isEncoded_of_mem_part {cp : ℕ} {part : JsString} (h : encodePoint cp = some part)
    (hmax : cp ≤ 0x10FFFF) {c : CodeUnit} (hc : c ∈ part) : isEncoded c = true := by
  rcases encodePoint_cases h with ⟨hsmall, hun, rfl⟩ | ⟨hsur, rfl⟩
  · obtain rfl := List.mem_singleton.mp hc
    have hnat : cp.toUInt16.toNat = cp := by
      rw [Nat.toUInt16, UInt16.toNat_ofNat', Nat.mod_eq_of_lt (by omega)]
    rw [isEncoded, hnat, hun, Bool.true_or]
  · obtain ⟨b, bs, hutf8, hoctets, -⟩ := utf8_spec hmax hsur
    obtain ⟨octet, hoctet, hc⟩ := List.mem_flatMap.mp hc
    rw [hutf8] at hoctet
    exact isEncoded_percentByte (hoctets octet hoctet) hc

theorem exists_of_mem_parts {cps : List ℕ} {parts : List JsString}
    (h : cps.mapM encodePoint = some parts) {part : JsString} (hpart : part ∈ parts) :
    ∃ cp ∈ cps, encodePoint cp = some part := by
  induction cps generalizing parts with
  | nil =>
      obtain rfl : [] = parts := Option.some.inj h
      cases hpart
  | cons cp cps ih =>
      rw [List.mapM_cons] at h
      obtain ⟨first, hfirst, h⟩ := Option.bind_eq_some_iff.mp h
      obtain ⟨others, hothers, h⟩ := Option.bind_eq_some_iff.mp h
      obtain rfl : first :: others = parts := Option.some.inj h
      rcases List.mem_cons.mp hpart with rfl | hpart
      · exact ⟨cp, List.mem_cons_self, hfirst⟩
      · obtain ⟨found, hmem, henc⟩ := ih hothers hpart
        exact ⟨found, List.mem_cons_of_mem _ hmem, henc⟩

theorem isEncoded_of_mem {text encoded : JsString} (h : encodeURIComponent text = some encoded)
    {c : CodeUnit} (hc : c ∈ encoded) : isEncoded c = true := by
  obtain ⟨parts, hparts, rfl⟩ := Option.map_eq_some_iff.mp h
  obtain ⟨part, hpart, hc⟩ := List.mem_flatten.mp hc
  obtain ⟨cp, hcp, henc⟩ := exists_of_mem_parts hparts hpart
  exact isEncoded_of_mem_part henc (le_of_mem_codePoints hcp) hc

end Keala.Js
