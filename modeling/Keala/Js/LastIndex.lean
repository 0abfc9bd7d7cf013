import Keala.Js.Text

/-!
`RegExp.prototype.test` and the `lastIndex` it leaves: an expression with the
flag `g` or `y` starts where its last match ended.
-/

namespace Keala.Js

/-- An expression object: its flags, and its pattern as the end of a match at an index. -/
structure RegExpObject where
  isGlobal : Bool
  sticky : Bool
  matchAt : JsString → ℕ → Option ℕ

namespace RegExpObject

def remembers (r : RegExpObject) : Bool := r.isGlobal || r.sticky

/-- The end of the first match from an index on; `tries` is how many indices are left. -/
def searchFrom (r : RegExpObject) (text : JsString) : ℕ → ℕ → Option ℕ
  | 0, _ => none
  | tries + 1, index => (r.matchAt text index).or (searchFrom r text tries (index + 1))

def test (r : RegExpObject) (text : JsString) (lastIndex : ℕ) : Bool × ℕ :=
  let start := if r.remembers then lastIndex else 0
  let found :=
    if text.length < start then none
    else if r.sticky then r.matchAt text start
    else r.searchFrom text (text.length + 1 - start) start
  match found with
  | none => (false, if r.remembers then 0 else lastIndex)
  | some stop => (true, if r.remembers then stop else lastIndex)

end RegExpObject

end Keala.Js
