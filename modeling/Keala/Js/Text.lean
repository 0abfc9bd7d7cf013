import Mathlib.Data.List.Basic

/-!
JavaScript strings as lists of UTF-16 code units, with the built-ins the
router relies on. `split` and `join` at one code unit are `List.splitOn` and
`List.intercalate`.
-/

namespace Keala.Js

abbrev CodeUnit := UInt16

abbrev JsString := List CodeUnit

instance : LawfulBEq JsString := List.instLawfulBEq

/-- A string literal of the source (all of them are ASCII). -/
def js (text : String) : JsString := text.toList.map fun c => c.val.toUInt16

def slash : CodeUnit := 47

def percent : CodeUnit := 37

def split (sep : CodeUnit) (text : JsString) : List JsString := text.splitOn sep

def join (sep : CodeUnit) (parts : List JsString) : JsString := [sep].intercalate parts

def startsWith (text pre : JsString) : Bool := pre.isPrefixOf text

def endsWith (text suffix : JsString) : Bool := suffix.isSuffixOf text

/-- `indexOf`, with `none` for -1. -/
def indexOf (text : JsString) (c : CodeUnit) : Option ℕ := text.findIdx? (· == c)

def lastIndexOf (text : JsString) (c : CodeUnit) : Option ℕ :=
  (text.reverse.findIdx? (· == c)).map fun i => text.length - 1 - i

def indexOfText (pattern : JsString) : JsString → Option ℕ
  | [] => if pattern = [] then some 0 else none
  | c :: text =>
      if startsWith (c :: text) pattern then some 0
      else (indexOfText pattern text).map (· + 1)

/-- White space and line terminators: what `\s` matches and `trim` drops. -/
def isSpace (c : CodeUnit) : Bool :=
  (9 ≤ c && c ≤ 13) || c = 32 || c = 160 || c = 0x1680 || (0x2000 ≤ c && c ≤ 0x200A) ||
    c = 0x2028 || c = 0x2029 || c = 0x202F || c = 0x205F || c = 0x3000 || c = 0xFEFF

/-- The text without the units of `p` at its two ends. -/
def trimBy (p : CodeUnit → Bool) (text : JsString) : JsString :=
  ((text.dropWhile p).reverse.dropWhile p).reverse

def trim (text : JsString) : JsString := trimBy isSpace text

/-! ### Cutting a text at a separator -/

theorem append_cons_inj_left {a b s t : JsString} {c : CodeUnit} (ha : c ∉ a) (hb : c ∉ b)
    (h : a ++ c :: s = b ++ c :: t) : a = b ∧ s = t := by
  have hcut : ∀ (l m : JsString), c ∉ l → (l ++ c :: m).takeWhile (fun x => x ≠ c) = l := by
    intro l m hl
    rw [List.takeWhile_append_of_pos fun x hx => by
      simpa using fun heq : x = c => hl (heq ▸ hx)]
    simp
  have hleft : a = b := by rw [← hcut a s ha, h, hcut b t hb]
  subst hleft
  exact ⟨rfl, (List.cons.inj (List.append_cancel_left h)).2⟩

theorem append_cons_inj_right {a b s t : JsString} {c : CodeUnit} (hs : c ∉ s) (ht : c ∉ t)
    (h : a ++ c :: s = b ++ c :: t) : a = b ∧ s = t := by
  have hrev : s.reverse ++ c :: a.reverse = t.reverse ++ c :: b.reverse := by
    have := congrArg List.reverse h
    simpa using this
  obtain ⟨hst, hab⟩ := append_cons_inj_left (by simpa using hs) (by simpa using ht) hrev
  exact ⟨List.reverse_injective hab, List.reverse_injective hst⟩

/-! ### Percent-decoding

`decodeURIComponent`: maximal escapes are read octet by octet, the
octets of one character must be its shortest UTF-8 form, and anything else is
a `URIError` (`none` here). -/

def hexValue (c : CodeUnit) : Option ℕ :=
  if 48 ≤ c ∧ c ≤ 57 then some (c.toNat - 48)
  else if 65 ≤ c ∧ c ≤ 70 then some (c.toNat - 55)
  else if 97 ≤ c ∧ c ≤ 102 then some (c.toNat - 87)
  else none

/-- One `%XY` at the start of the text. -/
def octet : JsString → Option (ℕ × JsString)
  | p :: h :: l :: rest =>
      if p = percent then do
        let high ← hexValue h
        let low ← hexValue l
        pure (16 * high + low, rest)
      else none
  | _ => none

/-- The octets of a UTF-8 sequence by its first octet; 0 for none. -/
def sequenceLength (b : ℕ) : ℕ :=
  if b < 0x80 then 1
  else if b < 0xC0 then 0
  else if b < 0xE0 then 2
  else if b < 0xF0 then 3
  else if b < 0xF8 then 4
  else 0

def isTail (b : ℕ) : Bool := 0x80 ≤ b && b < 0xC0

def codePoint : List ℕ → Option ℕ
  | [a] => if a < 0x80 then some a else none
  | [a, b] =>
      let cp := (a - 0xC0) * 64 + (b - 0x80)
      if isTail b && 0x80 ≤ cp then some cp else none
  | [a, b, c] =>
      let cp := ((a - 0xE0) * 64 + (b - 0x80)) * 64 + (c - 0x80)
      if isTail b && isTail c && 0x800 ≤ cp && !(0xD800 ≤ cp && cp < 0xE000)
      then some cp else none
  | [a, b, c, d] =>
      let cp := (((a - 0xF0) * 64 + (b - 0x80)) * 64 + (c - 0x80)) * 64 + (d - 0x80)
      if isTail b && isTail c && isTail d && 0x10000 ≤ cp && cp ≤ 0x10FFFF
      then some cp else none
  | _ => none

def utf16 (cp : ℕ) : JsString :=
  if cp < 0x10000 then [cp.toUInt16]
  else [(0xD800 + (cp - 0x10000) / 0x400).toUInt16, (0xDC00 + (cp - 0x10000) % 0x400).toUInt16]

def octets : ℕ → JsString → Option (List ℕ × JsString)
  | 0, text => some ([], text)
  | n + 1, text => do
      let (b, text) ← octet text
      let (bs, text) ← octets n text
      pure (b :: bs, text)

def escaped (text : JsString) : Option (JsString × JsString) := do
  let (b, _) ← octet text
  let (bs, rest) ← octets (sequenceLength b) text
  let cp ← codePoint bs
  pure (utf16 cp, rest)

def decodeWithin : ℕ → JsString → Option JsString
  | _, [] => some []
  | 0, _ :: _ => none
  | fuel + 1, c :: text =>
      if c = percent then do
        let (char, rest) ← escaped (c :: text)
        let decoded ← decodeWithin fuel rest
        pure (char ++ decoded)
      else do
        let decoded ← decodeWithin fuel text
        pure (c :: decoded)

/-- Every round consumes a code unit, so the length bounds the rounds. -/
def decodeURIComponent (text : JsString) : Option JsString := decodeWithin text.length text

example : decodeURIComponent (js "a%2Fb%c3%A9") = some (js "a/b" ++ [233]) := by decide

theorem decodeWithin_escaped {text char rest : JsString}
    (h : escaped (percent :: text) = some (char, rest)) (fuel : ℕ) :
    decodeWithin (fuel + 1) (percent :: text) = (decodeWithin fuel rest).map (char ++ ·) := by
  rw [decodeWithin, if_pos rfl, h, Option.bind_eq_bind, Option.bind_some]
  dsimp only
  rcases decodeWithin fuel rest <;> rfl

theorem decodeWithin_plain {c : CodeUnit} (h : c ≠ percent) (text : JsString) (fuel : ℕ) :
    decodeWithin (fuel + 1) (c :: text) = (decodeWithin fuel text).map (c :: ·) := by
  rw [decodeWithin, if_neg h]
  rcases decodeWithin fuel text <;> rfl

end Keala.Js
