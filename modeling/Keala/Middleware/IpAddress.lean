import Keala.Js.Digits
import Keala.Js.Split

/-!
Reading IP addresses from text (`src/middleware/ip-restriction.ts`), and the
grammar of their text. A `bigint` is a natural number.
-/

namespace Keala.Middleware

open Keala.Js

def IPV4_OCTET_RE (text : JsString) : Bool :=
  1 ≤ text.length && text.length ≤ 3 && text.all isDigit

def IPV6_GROUP_RE (text : JsString) : Bool :=
  1 ≤ text.length && text.length ≤ 4 && text.all isHexDigit

def octetsToInt : List JsString → ℕ → Option ℕ
  | [], value => some value
  | part :: parts, value =>
      if !IPV4_OCTET_RE part then none
      else if 255 < decimalValue part then none
      else octetsToInt parts (value <<< 8 ||| decimalValue part)

def ipToInt (ip : JsString) : Option ℕ :=
  let parts := split 46 ip
  if parts.length ≠ 4 then none else octetsToInt parts 0

def tailStart (text : JsString) : ℕ :=
  match lastIndexOf text 58 with
  | none => 0
  | some lastColon => lastColon + 1

/-- An IPv4 tail is written as two groups. -/
def expandTail (text : JsString) : Option JsString :=
  if 46 ∈ text then
    (ipToInt (text.drop (tailStart text))).map fun tail =>
      text.take (tailStart text) ++ hexText (tail >>> 16) ++ 58 :: hexText (tail &&& 0xffff)
  else some text

def splitGroups (text : JsString) : List JsString := if text = [] then [] else split 58 text

/-- The groups of a text, with those that a `::` stands for. -/
def ipv6Groups (text : JsString) : Option (List JsString) :=
  let halves := splitPair 58 58 text
  if 2 < halves.length then none
  else
    let head := splitGroups (halves.getD 0 [])
    let tail := if halves.length = 2 then splitGroups (halves.getD 1 []) else []
    let missing : ℤ := 8 - head.length - tail.length
    if halves.length = 2 then
      if missing < 0 then none
      else some (head ++ List.replicate missing.toNat (js "0") ++ tail)
    else if head.length ≠ 8 then none
    else some head

def groupsToBits : List JsString → ℕ → Option ℕ
  | [], bits => some bits
  | group :: groups, bits =>
      if IPV6_GROUP_RE group then groupsToBits groups (bits <<< 16 ||| hexadecimalValue group)
      else none

def ipv6ToBits (ip : JsString) : Option ℕ :=
  if 37 ∈ ip then none
  else do
    let text ← expandTail ip
    let groups ← ipv6Groups text
    groupsToBits groups 0

example : ipv6ToBits (js "::ffff:1.2.3.4") = some 0xffff01020304 := by decide +kernel

/-! ### The grammar -/

structure IsOctet (text : JsString) : Prop where
  length : 1 ≤ text.length ∧ text.length ≤ 3
  digits : ∀ c ∈ text, isDigit c = true
  range : decimalValue text ≤ 255

structure IsGroup (text : JsString) : Prop where
  length : 1 ≤ text.length ∧ text.length ≤ 4
  digits : ∀ c ∈ text, isHexDigit c = true

def DottedQuad (text : JsString) (n : ℕ) : Prop :=
  ∃ parts : List JsString, parts.length = 4 ∧ (∀ part ∈ parts, IsOctet part) ∧
    text = join 46 parts ∧ n = Nat.ofDigits 256 (parts.map decimalValue).reverse

def GroupList (text : JsString) (values : List ℕ) : Prop :=
  ∃ parts : List JsString, parts ≠ [] ∧ (∀ part ∈ parts, IsGroup part) ∧
    text = join 58 parts ∧ values = parts.map hexadecimalValue

/-- Groups between colons, the last two of which may be written as a dotted quad. -/
def GroupTail (text : JsString) (values : List ℕ) : Prop :=
  GroupList text values ∨
    ∃ (parts : List JsString) (quad : JsString) (n : ℕ), (∀ part ∈ parts, IsGroup part) ∧
      DottedQuad quad n ∧ text = join 58 (parts ++ [quad]) ∧
      values = parts.map hexadecimalValue ++ [n / 2 ^ 16, n % 2 ^ 16]

/-- Groups around one `::`, where either side may be empty. -/
def Compresses (text : JsString) (before behind : List ℕ) : Prop :=
  ∃ left right : JsString, text = left ++ 58 :: 58 :: right ∧
    (left = [] ∧ before = [] ∨ GroupList left before) ∧
    (right = [] ∧ behind = [] ∨ GroupTail right behind)

/-- The number of eight groups, the first the most significant. -/
def bitsOf (values : List ℕ) : ℕ := Nat.ofDigits (2 ^ 16) values.reverse

/-- The text forms of an IPv6 address, and the 128-bit number each denotes: eight groups,
or fewer with a `::` for the zero groups left out. -/
def Denotes (text : JsString) (n : ℕ) : Prop :=
  (∃ values, GroupTail text values ∧ values.length = 8 ∧ n = bitsOf values) ∨
    ∃ before behind, Compresses text before behind ∧ before.length + behind.length ≤ 7 ∧
      n = bitsOf (before ++ List.replicate (8 - (before.length + behind.length)) 0 ++ behind)

/-- Eight groups with a `::` that stands for none. -/
def Overfull (text : JsString) : Prop :=
  ∃ before behind, Compresses text before behind ∧ before.length + behind.length = 8

end Keala.Middleware
