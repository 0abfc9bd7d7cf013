import Keala.Js.Digits
import Keala.Js.Number
import Mathlib.Data.Int.Log

/-!
`parseFloat`: the longest decimal literal at the start of a text, rounded to
the nearest double.
-/

namespace Keala.Js

/-- To the nearest whole number, on a tie to the even one. -/
def roundHalfEven (x : ℚ) : ℤ :=
  let rest := x - ⌊x⌋
  if rest < 1 / 2 then ⌊x⌋
  else if 1 / 2 < rest then ⌊x⌋ + 1
  else if ⌊x⌋ % 2 = 0 then ⌊x⌋ else ⌊x⌋ + 1

/-- The nearest of the doubles: 53 bits from the first on, none below 2 to the -1074. -/
def roundDouble (x : ℚ) : Number :=
  let unit : ℚ := 2 ^ max (Int.log 2 |x| - 52) (-1074)
  let rounded := roundHalfEven (x / unit) * unit
  if (2 : ℚ) ^ 1024 ≤ rounded then .infinity
  else if rounded ≤ -(2 : ℚ) ^ 1024 then .negInfinity
  else .finite rounded

/-- A sign at the start of a text, and what follows. -/
def takeSign : JsString → ℚ × JsString
  | 43 :: text => (1, text)
  | 45 :: text => (-1, text)
  | text => (1, text)

/-- The exponent at the start of a text; none is 0. -/
def takeExponent : JsString → ℤ
  | e :: text =>
      if e = 101 ∨ e = 69 then
        let (sign, text) := takeSign text
        (if sign < 0 then -1 else 1) * (decimalValue (text.takeWhile isDigit) : ℤ)
      else 0
  | [] => 0

def parseFloat (text : JsString) : Number :=
  let (sign, text) := takeSign (text.dropWhile isSpace)
  if startsWith text (js "Infinity") then if sign < 0 then .negInfinity else .infinity
  else
    let whole := text.takeWhile isDigit
    let rest := text.dropWhile isDigit
    let fraction := if rest.head? = some 46 then rest.tail.takeWhile isDigit else []
    let rest := if rest.head? = some 46 then rest.tail.dropWhile isDigit else rest
    if whole = [] ∧ fraction = [] then .nan
    else
      roundDouble (sign * decimalValue (whole ++ fraction) *
        (10 : ℚ) ^ (takeExponent rest - fraction.length))

example : parseFloat (js " 0.5e0;") = .finite (1 / 2) := by decide +kernel

end Keala.Js
