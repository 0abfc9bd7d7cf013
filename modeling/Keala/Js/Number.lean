import Mathlib.Data.Rat.Floor

/-!
Numbers: finite ones are rationals, without a negative zero. The difference and
the sum are the exact ones, before they are rounded to a double.
-/

namespace Keala.Js

inductive Number
  | nan
  | negInfinity
  | finite (value : ℚ)
  | infinity
  deriving DecidableEq

namespace Number

def ofNat (n : ℕ) : Number := .finite n

/-- `<`; every comparison with `NaN` is false. -/
def lt : Number → Number → Bool
  | .nan, _ => false
  | _, .nan => false
  | .negInfinity, .negInfinity => false
  | .negInfinity, _ => true
  | .finite _, .negInfinity => false
  | .finite a, .finite b => a < b
  | .finite _, .infinity => true
  | .infinity, _ => false

def le (a b : Number) : Bool := decide (a ≠ .nan) && decide (b ≠ .nan) && !b.lt a

def sub : Number → Number → Number
  | .nan, _ => .nan
  | _, .nan => .nan
  | .infinity, .infinity => .nan
  | .negInfinity, .negInfinity => .nan
  | .infinity, _ => .infinity
  | _, .negInfinity => .infinity
  | .negInfinity, _ => .negInfinity
  | _, .infinity => .negInfinity
  | .finite a, .finite b => .finite (a - b)

def add : Number → Number → Number
  | .nan, _ => .nan
  | _, .nan => .nan
  | .infinity, .negInfinity => .nan
  | .negInfinity, .infinity => .nan
  | .infinity, _ => .infinity
  | _, .infinity => .infinity
  | .negInfinity, _ => .negInfinity
  | _, .negInfinity => .negInfinity
  | .finite a, .finite b => .finite (a + b)

@[simp] theorem lt_finite (a b : ℚ) : (finite a).lt (finite b) = decide (a < b) := rfl

@[simp] theorem le_finite (a b : ℚ) : (finite a).le (finite b) = !decide (b < a) := rfl

def trunc : Number → Number
  | .finite a => .finite (if a < 0 then ⌈a⌉ else ⌊a⌋)
  | n => n

def min : Number → Number → Number
  | .nan, _ => .nan
  | _, .nan => .nan
  | a, b => if a.lt b then a else b

def max : Number → Number → Number
  | .nan, _ => .nan
  | _, .nan => .nan
  | a, b => if b.lt a then a else b

end Number

end Keala.Js
