import Mathlib.Data.Rat.Cast.Defs
import Keala.Http.Message
import Keala.Http.Url
import Keala.Js.Digits
import Keala.Js.Uri

/-!
`c.redirect`: the location it writes, and where a client that resolves it
against the URL of its request ends up. The source's `context/response.ts` and
`encodeUrlValue` of `utils/url.ts`.
-/

namespace Keala.Core

open Keala.Js Keala.Http

/-! ### `encodeUrlValue` -/

def isUnsafe (point : ℕ) : Bool :=
  0x7e < point || point < 0x21 || [34, 60, 62, 96, 123, 125, 92].contains point

/-- The octets of a code point; a lone surrogate has those of U+FFFD. -/
def percentEncoded (point : ℕ) : JsString :=
  (utf8 (if isSurrogate point then 0xFFFD else point)).flatMap percentByte

def encodeUnit (c : CodeUnit) : JsString :=
  if isUnsafe c.toNat then percentEncoded c.toNat else [c]

/-- Valid escapes stay, any other "%" is "%25". -/
def encodeUrlValue : JsString → JsString
  | [] => []
  | [c] => if c = percent then js "%25" else encodeUnit c
  | [c, d] =>
      if c = percent then js "%25" ++ encodeUrlValue [d]
      else if isHigh c && isLow d then
        percentEncoded (0x10000 + (c.toNat - 0xD800) * 0x400 + (d.toNat - 0xDC00))
      else encodeUnit c ++ encodeUrlValue [d]
  | c :: d :: e :: text =>
      if c = percent then
        if isHexDigit d && isHexDigit e then c :: d :: e :: encodeUrlValue text
        else js "%25" ++ encodeUrlValue (d :: e :: text)
      else if isHigh c && isLow d then
        percentEncoded (0x10000 + (c.toNat - 0xD800) * 0x400 + (d.toNat - 0xDC00)) ++
          encodeUrlValue (e :: text)
      else encodeUnit c ++ encodeUrlValue (d :: e :: text)

/-! ### The location -/

def replaceSlashes (head : JsString) : JsString :=
  head.flatMap fun c => if c = 58 then js "%3A" else if c = slash then js "%2F" else [c]

def neutralizeForeignAuthority (hosts : HostParsers) (host raw : JsString) : JsString :=
  if host = [] then raw
  else
    match (resolve hosts none (js "http://" ++ host ++ js "/")).bind fun base =>
      resolve hosts (some base) raw with
    | none => raw
    | some resolved =>
        if resolved.host = [] ∨ resolved.host = host then raw
        else if startsWith raw (js "//") then js "/%2F" ++ raw.drop 2
        else
          match splitScheme raw with
          | none => raw
          | some (word, rest) =>
              replaceSlashes (word ++ js ":" ++ rest.takeWhile fun c => c = slash) ++
                rest.dropWhile fun c => c = slash

/-- `/^[a-z][a-z0-9+.-]*:\/\//i`. -/
def isAbsolute (url : JsString) : Bool :=
  (splitScheme url).any fun parts => startsWith parts.2 (js "//")

/-- `/^https?:\/\//i`. -/
def isHttpAbsolute (url : JsString) : Bool :=
  (splitScheme url).any fun parts => startsWith parts.2 (js "//") &&
    (parts.1.map lowerAscii = js "http" || parts.1.map lowerAscii = js "https")

structure RedirectPlatform where
  hosts : HostParsers
  /-- `new URL(url).toString()`, `none` where the constructor throws. -/
  href : JsString → Option JsString
  /-- `JSON.stringify` of a number. -/
  number : ℚ → JsString

def redirectTarget (platform : RedirectPlatform) (host url : JsString) : JsString :=
  if isHttpAbsolute url then (platform.href url).getD url
  else if !isAbsolute url then neutralizeForeignAuthority platform.hosts host url
  else url

def redirect {β τ : Type} (platform : RedirectPlatform) (runtime : Runtime β) (host url : JsString)
    (code : Option ℚ) : Except (Thrown τ) (Response β) :=
  match code with
  | some code =>
      if code.den ≠ 1 ∨ code < 300 ∨ 399 < code then
        .error (.typeError (js "redirect code must be a 3xx integer, got " ++ platform.number code))
      else send code.num.toNat
  | none => send 302
where
  send (status : ℕ) : Except (Thrown τ) (Response β) :=
    construct runtime none status []
      ⟨[(js "location", encodeUrlValue (redirectTarget platform host url))], false⟩

/-! ### What the encoding leaves -/

def isKept (c : CodeUnit) : Bool := c ≠ percent && !isUnsafe c.toNat

theorem percentEncoded_eq (point : ℕ) : ∃ out, percentEncoded point = percent :: out := by
  rw [percentEncoded, utf8]
  split_ifs <;> exact ⟨_, rfl⟩

/-- A unit is kept, or a "%" stands for it. -/
theorem encodeUrlValue_cons (c : CodeUnit) (text : JsString) :
    (isKept c = true ∧ encodeUrlValue (c :: text) = c :: encodeUrlValue text) ∨
      isKept c = false ∧ ∃ out, encodeUrlValue (c :: text) = percent :: out := by
  by_cases hc : c = percent
  · refine .inr ⟨by simp [isKept, hc], ?_⟩
    subst hc
    match text with
    | [] => exact ⟨_, rfl⟩
    | [d] => exact ⟨_, rfl⟩
    | d :: e :: text =>
        rw [encodeUrlValue, if_pos rfl]
        split <;> exact ⟨_, rfl⟩
  · have hunit : ∀ rest, (isKept c = true ∧ encodeUnit c ++ rest = c :: rest) ∨
        isKept c = false ∧ ∃ out, encodeUnit c ++ rest = percent :: out := by
      intro rest
      rw [encodeUnit]
      cases hunsafe : isUnsafe c.toNat with
      | true =>
          obtain ⟨out, hout⟩ := percentEncoded_eq c.toNat
          rw [if_pos rfl, hout]
          exact .inr ⟨by simp [isKept, hunsafe], _, rfl⟩
      | false => exact .inl ⟨by simp [isKept, hc, hunsafe], rfl⟩
    -- The first unit of a pair is out of the range of the kept ones.
    have hpair : ∀ {d rest}, (isHigh c && isLow d) = true →
        isKept c = false ∧ ∃ out, percentEncoded
          (0x10000 + (c.toNat - 0xD800) * 0x400 + (d.toNat - 0xDC00)) ++ rest = percent :: out := by
      intro d rest hpair
      have hbounds := pair_bounds hpair
      obtain ⟨out, hout⟩ :=
        percentEncoded_eq (0x10000 + (c.toNat - 0xD800) * 0x400 + (d.toNat - 0xDC00))
      rw [hout]
      refine ⟨?_, _, rfl⟩
      simp only [isKept, isUnsafe, Bool.and_eq_false_iff, Bool.not_eq_false', Bool.or_eq_true,
        decide_eq_true_eq]
      exact .inr (.inl (.inl (by omega)))
    match text with
    | [] =>
        have hread : encodeUrlValue [c] = encodeUnit c ++ [] := by
          rw [encodeUrlValue, if_neg hc, List.append_nil]
        rw [hread]
        exact hunit []
    | [d] =>
        by_cases hboth : (isHigh c && isLow d) = true
        · have hread : encodeUrlValue [c, d] = percentEncoded
              (0x10000 + (c.toNat - 0xD800) * 0x400 + (d.toNat - 0xDC00)) ++ [] := by
            rw [encodeUrlValue, if_neg hc, if_pos hboth, List.append_nil]
          rw [hread]
          exact .inr (hpair hboth)
        · have hread : encodeUrlValue [c, d] = encodeUnit c ++ encodeUrlValue [d] := by
            conv_lhs => rw [encodeUrlValue, if_neg hc, if_neg hboth]
          rw [hread]
          exact hunit _
    | d :: e :: text =>
        by_cases hboth : (isHigh c && isLow d) = true
        · have hread : encodeUrlValue (c :: d :: e :: text) = percentEncoded
              (0x10000 + (c.toNat - 0xD800) * 0x400 + (d.toNat - 0xDC00)) ++
                encodeUrlValue (e :: text) := by
            rw [encodeUrlValue, if_neg hc, if_pos hboth]
          rw [hread]
          exact .inr (hpair hboth)
        · have hread : encodeUrlValue (c :: d :: e :: text) =
              encodeUnit c ++ encodeUrlValue (d :: e :: text) := by
            rw [encodeUrlValue, if_neg hc, if_neg hboth]
          rw [hread]
          exact hunit _

theorem encodeUrlValue_kept {c : CodeUnit} (hc : isKept c = true) (text : JsString) :
    encodeUrlValue (c :: text) = c :: encodeUrlValue text := by
  rcases encodeUrlValue_cons c text with ⟨-, hread⟩ | ⟨hnot, -⟩
  · exact hread
  · rw [hc] at hnot
    cases hnot

theorem encodeUrlValue_append {word : JsString} (hword : ∀ c ∈ word, isKept c = true)
    (text : JsString) : encodeUrlValue (word ++ text) = word ++ encodeUrlValue text := by
  induction word with
  | nil => rfl
  | cons c word ih =>
      rw [List.cons_append, encodeUrlValue_kept (hword c List.mem_cons_self),
        ih fun c hc => hword c (List.mem_cons_of_mem _ hc), List.cons_append]

def isPlain (c : CodeUnit) : Bool := 33 ≤ c && c ≤ 126 && c ≠ 92

theorem isPlain_of_kept {c : CodeUnit} (h : isKept c = true) : isPlain c = true := by
  simp only [isKept, isUnsafe, Bool.and_eq_true, Bool.not_eq_true', Bool.or_eq_false_iff,
    decide_eq_false_iff_not, List.contains_eq_mem, List.mem_cons, not_or] at h
  obtain ⟨-, ⟨hhigh, hlow⟩, hlist⟩ := h
  have hne : c ≠ 92 := by
    rintro rfl
    exact hlist.2.2.2.2.2.2.1 rfl
  simp only [isPlain, Bool.and_eq_true, decide_eq_true_eq, UInt16.le_iff_toNat_le]
  exact ⟨⟨Nat.le_of_not_lt hlow, Nat.le_of_not_lt hhigh⟩, hne⟩

theorem isPlain_hexDigit {n : ℕ} (h : n < 16) : isPlain (hexDigit n) = true := by
  revert n
  decide

theorem isPlain_percentEncoded {point : ℕ} (hmax : point ≤ 0x10FFFF) {c : CodeUnit}
    (h : c ∈ percentEncoded point) : isPlain c = true := by
  obtain ⟨b, bs, hutf8, hoctets⟩ :
      ∃ b bs, utf8 (if isSurrogate point then 0xFFFD else point) = b :: bs ∧
        ∀ x ∈ b :: bs, x < 256 := by
    split
    · exact ⟨_, _, rfl, by decide⟩
    · next hsur =>
        obtain ⟨b, bs, hutf8, hoctets, -⟩ := utf8_spec hmax (by simpa using hsur)
        exact ⟨b, bs, hutf8, hoctets⟩
  rw [percentEncoded, hutf8] at h
  obtain ⟨octet, hoctet, hc⟩ := List.mem_flatMap.mp h
  have hlt := hoctets octet hoctet
  rw [percentByte, List.mem_cons, List.mem_cons, List.mem_singleton] at hc
  rcases hc with rfl | rfl | rfl
  · rfl
  · exact isPlain_hexDigit (by omega)
  · exact isPlain_hexDigit (by omega)

theorem isPlain_encodeUnit {u c : CodeUnit} (h : c ∈ encodeUnit u) (hu : u ≠ percent) :
    isPlain c = true := by
  have hlt := u.toNat_lt
  rw [encodeUnit] at h
  split at h
  · exact isPlain_percentEncoded (by omega) h
  · next hsafe =>
      rw [List.mem_singleton.mp h]
      exact isPlain_of_kept (by simp [isKept, hu, hsafe])

theorem isPlain_encodedPair {c d u : CodeUnit} (hpair : (isHigh c && isLow d) = true)
    (h : u ∈ percentEncoded (0x10000 + (c.toNat - 0xD800) * 0x400 + (d.toNat - 0xDC00))) :
    isPlain u = true := by
  have hbounds := pair_bounds hpair
  exact isPlain_percentEncoded (by omega) h

theorem isPlain_of_isHexDigit {c : CodeUnit} (h : isHexDigit c = true) : isPlain c = true := by
  have hrange : (48 ≤ c.toNat ∧ c.toNat ≤ 57) ∨ (65 ≤ c.toNat ∧ c.toNat ≤ 70) ∨
      97 ≤ c.toNat ∧ c.toNat ≤ 102 := by
    rw [isHexDigit, hexValue] at h
    split at h
    · next hdigit => exact .inl hdigit
    · split at h
      · next hupper => exact .inr (.inl hupper)
      · split at h
        · next hlower => exact .inr (.inr hlower)
        · cases h
  have hne : c ≠ 92 := by
    rintro rfl
    revert hrange
    decide
  simp only [isPlain, Bool.and_eq_true, decide_eq_true_eq, UInt16.le_iff_toNat_le]
  refine ⟨⟨?_, ?_⟩, hne⟩
  · have : (33 : CodeUnit).toNat = 33 := rfl
    omega
  · have : (126 : CodeUnit).toNat = 126 := rfl
    omega

theorem isPlain_escapedPercent {c : CodeUnit} (h : c ∈ js "%25") : isPlain c = true := by
  have hall : (js "%25").all isPlain = true := by decide
  exact List.all_eq_true.mp hall c h

/-- All that is written is plain. -/
theorem isPlain_of_mem {text : JsString} {u : CodeUnit} (h : u ∈ encodeUrlValue text) :
    isPlain u = true := by
  induction text using encodeUrlValue.induct with
  | case1 => cases h
  | case2 => exact isPlain_escapedPercent h
  | case3 c hc =>
      rw [encodeUrlValue, if_neg hc] at h
      exact isPlain_encodeUnit h hc
  | case4 d ih =>
      rw [encodeUrlValue, if_pos rfl] at h
      exact (List.mem_append.mp h).elim isPlain_escapedPercent ih
  | case5 c d hc hpair =>
      rw [encodeUrlValue, if_neg hc, if_pos hpair] at h
      exact isPlain_encodedPair hpair h
  | case6 c d hc hpair ih =>
      rw [encodeUrlValue, if_neg hc, if_neg hpair] at h
      exact (List.mem_append.mp h).elim (isPlain_encodeUnit · hc) ih
  | case7 d e text hhex ih =>
      rw [encodeUrlValue, if_pos rfl, if_pos hhex] at h
      obtain ⟨hd, he⟩ := Bool.and_eq_true_iff.mp hhex
      rcases List.mem_cons.mp h with rfl | h
      · rfl
      · rcases List.mem_cons.mp h with rfl | h
        · exact isPlain_of_isHexDigit hd
        · rcases List.mem_cons.mp h with rfl | h
          · exact isPlain_of_isHexDigit he
          · exact ih h
  | case8 d e text hhex ih =>
      rw [encodeUrlValue, if_pos rfl, if_neg hhex] at h
      exact (List.mem_append.mp h).elim isPlain_escapedPercent ih
  | case9 c d e text hc hpair ih =>
      rw [encodeUrlValue, if_neg hc, if_pos hpair] at h
      exact (List.mem_append.mp h).elim (isPlain_encodedPair hpair) ih
  | case10 c d e text hc hpair ih =>
      rw [encodeUrlValue, if_neg hc, if_neg hpair] at h
      exact (List.mem_append.mp h).elim (isPlain_encodeUnit · hc) ih

/-- Kept units in front of an encoded text were in front of the text. -/
theorem encodeUrlValue_eq_append {text word out : JsString} (hword : ∀ c ∈ word, isKept c = true)
    (h : encodeUrlValue text = word ++ out) :
    ∃ rest, text = word ++ rest ∧ encodeUrlValue rest = out := by
  induction word generalizing text with
  | nil => exact ⟨text, rfl, h⟩
  | cons c word ih =>
      have hc := hword c List.mem_cons_self
      cases text with
      | nil => cases h
      | cons d text =>
          rcases encodeUrlValue_cons d text with ⟨-, hread⟩ | ⟨-, written, hread⟩
          · rw [hread, List.cons_append] at h
            obtain ⟨rfl, htail⟩ := List.cons.inj h
            obtain ⟨rest, rfl, hrest⟩ :=
              ih (fun c hc => hword c (List.mem_cons_of_mem _ hc)) htail
            exact ⟨rest, rfl, hrest⟩
          · rw [hread, List.cons_append] at h
            obtain ⟨rfl, -⟩ := List.cons.inj h
            exact absurd hc (by decide)

/-! ### Reading the location -/

theorem isKept_of_schemeChar {c : CodeUnit} (h : isSchemeChar c = true) : isKept c = true := by
  have hascii : ∀ n < 128, isSchemeChar n.toUInt16 = true → isKept n.toUInt16 = true := by
    decide +kernel
  have hlt : c.toNat < 128 := by
    simp only [isSchemeChar, isAlpha, Bool.or_eq_true, Bool.and_eq_true, decide_eq_true_eq] at h
    rcases h with ((((⟨-, h⟩ | ⟨-, h⟩) | ⟨-, h⟩) | rfl) | rfl) | rfl
    · exact Nat.lt_of_le_of_lt (UInt16.le_iff_toNat_le.mp h) (by decide)
    · exact Nat.lt_of_le_of_lt (UInt16.le_iff_toNat_le.mp h) (by decide)
    · exact Nat.lt_of_le_of_lt (UInt16.le_iff_toNat_le.mp h) (by decide)
    · decide
    · decide
    · decide
  have hunit : c.toNat.toUInt16 = c := UInt16.ofNat_toNat
  have hkept := hascii c.toNat hlt
  rw [hunit] at hkept
  exact hkept h

theorem splitScheme_encode (text : JsString) :
    splitScheme (encodeUrlValue text) =
      (splitScheme text).map fun parts => (parts.1, encodeUrlValue parts.2) := by
  have hkept : ∀ {word : JsString}, word.all isSchemeChar = true →
      ∀ c ∈ word ++ [58], isKept c = true := by
    intro word hall c hc
    rcases List.mem_append.mp hc with hc | hc
    · exact isKept_of_schemeChar (List.all_eq_true.mp hall c hc)
    · rw [List.mem_singleton.mp hc]
      rfl
  cases htext : splitScheme text with
  | some parts =>
      obtain ⟨word, rest⟩ := parts
      obtain ⟨hhead, hall, rfl⟩ := splitScheme_eq_some htext
      have hencoded := encodeUrlValue_append (hkept hall) rest
      rw [List.append_assoc, List.append_assoc, List.singleton_append, List.singleton_append]
        at hencoded
      rw [hencoded, splitScheme_append hhead hall]
      rfl
  | none =>
      rw [Option.map_none, Option.eq_none_iff_forall_ne_some]
      rintro ⟨word, out⟩ hout
      obtain ⟨hhead, hall, hencoded⟩ := splitScheme_eq_some hout
      rw [← List.singleton_append, ← List.append_assoc] at hencoded
      obtain ⟨rest, rfl, -⟩ := encodeUrlValue_eq_append (hkept hall) hencoded
      rw [List.append_assoc, List.singleton_append, splitScheme_append hhead hall] at htext
      cases htext

theorem startsWith_slashes_encode (text : JsString) :
    startsWith (encodeUrlValue text) (js "//") = startsWith text (js "//") := by
  have hkept : ∀ c ∈ js "//", isKept c = true := List.all_eq_true.mp (by decide)
  rw [Bool.eq_iff_iff, startsWith, startsWith, List.isPrefixOf_iff_prefix,
    List.isPrefixOf_iff_prefix]
  constructor
  · rintro ⟨out, hout⟩
    obtain ⟨rest, rfl, -⟩ := encodeUrlValue_eq_append hkept hout.symm
    exact ⟨rest, rfl⟩
  · rintro ⟨rest, rfl⟩
    exact ⟨encodeUrlValue rest, (encodeUrlValue_append hkept rest).symm⟩

theorem cleaned_encode (text : JsString) : cleaned (encodeUrlValue text) = encodeUrlValue text := by
  apply cleaned_of_visible
  intro c hc
  have hplain := isPlain_of_mem hc
  simp only [isPlain, Bool.and_eq_true, decide_eq_true_eq, UInt16.le_iff_toNat_le] at hplain
  simp only [isC0OrSpace, decide_eq_false_iff_not, UInt16.le_iff_toNat_le, not_le]
  exact hplain.1.1

def twoSlashes : JsString → Bool
  | c :: d :: _ => isSlash c && isSlash d
  | _ => false

/-- The backslash is encoded, so two slashes were two slashes. -/
theorem twoSlashes_encode (text : JsString) :
    twoSlashes (encodeUrlValue text) = startsWith text (js "//") := by
  rw [← startsWith_slashes_encode]
  have hplain : ∀ c ∈ encodeUrlValue text, isPlain c = true := fun c hc => isPlain_of_mem hc
  have hslash : ∀ c ∈ encodeUrlValue text, isSlash c = decide (c = slash) := by
    intro c hc
    have := hplain c hc
    simp only [isPlain, Bool.and_eq_true, decide_eq_true_eq] at this
    simp only [isSlash, decide_eq_false this.2, Bool.or_false]
    rfl
  generalize encodeUrlValue text = out at hslash
  match out with
  | [] => rfl
  | [c] =>
      have hshort : startsWith [c] (js "//") = (slash == c && false) := rfl
      rw [hshort, Bool.and_false, twoSlashes]
      exact nofun
  | c :: d :: out =>
      have hlong : startsWith (c :: d :: out) (js "//") = (slash == c && (slash == d && true)) :=
        rfl
      have hflip : ∀ u : CodeUnit, (slash == u) = decide (u = slash) := by
        intro u
        rw [Bool.eq_iff_iff, beq_iff_eq, decide_eq_true_eq, eq_comm]
      rw [hlong, twoSlashes, hslash c (by simp), hslash d (by simp), Bool.and_true, hflip, hflip]

end Keala.Core
