import Keala.Lib.Regex
import Keala.Js.Text

/-!
The part of the `RegExp` constructor and of `exec` that the router's own
expressions need: literals and escaped syntax characters, `.`, a negated class
of one character, the greedy quantifiers on these, groups, alternation and the
two anchors. A source outside this part does not compile here.
-/

namespace Keala.Js

inductive Token
  | char (c : CodeUnit)
  | any
  | notChar (c : CodeUnit)
  | opened (capturing : Bool)
  | closed
  | bar
  | star
  | plus
  | opt
  | start
  | stop
  deriving DecidableEq

def isSyntax (c : CodeUnit) : Bool :=
  c ∈ ([36, 40, 41, 42, 43, 46, 63, 91, 92, 93, 94, 123, 124, 125] : List CodeUnit)

def syntaxToken (c : CodeUnit) : Option Token :=
  if c = 36 then some .stop
  else if c = 40 then some (.opened true)
  else if c = 41 then some .closed
  else if c = 42 then some .star
  else if c = 43 then some .plus
  else if c = 46 then some .any
  else if c = 63 then some .opt
  else if c = 94 then some .start
  else if c = 124 then some .bar
  else none

def lex : JsString → Option (List Token)
  | [] => some []
  | 92 :: c :: rest => if isSyntax c then (lex rest).map (.char c :: ·) else none
  | 40 :: 63 :: 58 :: rest => (lex rest).map (.opened false :: ·)
  | 91 :: 94 :: c :: 93 :: rest =>
      if isSyntax c then none else (lex rest).map (.notChar c :: ·)
  | c :: rest =>
      if isSyntax c then do
        let token ← syntaxToken c
        let tokens ← lex rest
        pure (token :: tokens)
      else (lex rest).map (.char c :: ·)

/-- A group being read: its number when it captures, the alternatives before
the last `|` and the terms after it. -/
structure Group where
  capture : Option ℕ
  alternatives : List (Regex CodeUnit)
  terms : List (Regex CodeUnit)

def Group.add (g : Group) (term : Regex CodeUnit) : Group := { g with terms := g.terms ++ [term] }

def Group.close (g : Group) : Regex CodeUnit :=
  let body := Regex.altOf (g.alternatives ++ [Regex.seqOf g.terms])
  match g.capture with
  | none => body
  | some index => .group index body

def isLineTerminator (c : CodeUnit) : Bool := c = 10 || c = 13 || c = 8232 || c = 8233

/-- Quantify the last term, which must be a single-character class. -/
def Group.quantify (g : Group) (quantifier : (CodeUnit → Bool) → Regex CodeUnit) : Option Group :=
  match g.terms.getLast? with
  | some (.one p) => some { g with terms := g.terms.dropLast ++ [quantifier p] }
  | _ => none

/-- The groups that are open, the innermost first, and the captures so far. -/
structure Reader where
  groups : List Group
  captures : ℕ

def Reader.onTop (r : Reader) (f : Group → Option Group) : Option Reader :=
  match r.groups with
  | [] => none
  | g :: groups => (f g).map fun g => { r with groups := g :: groups }

def Reader.step (r : Reader) : Token → Option Reader
  | .char c => r.onTop fun g => some (g.add (.one (· == c)))
  | .any => r.onTop fun g => some (g.add (.one fun c => !isLineTerminator c))
  | .notChar c => r.onTop fun g => some (g.add (.one (· != c)))
  | .start => r.onTop fun g => some (g.add .start)
  | .stop => r.onTop fun g => some (g.add .stop)
  | .star => r.onTop fun g => g.quantify .star
  | .plus => r.onTop fun g => g.quantify .plus
  | .opt => r.onTop fun g => g.quantify .opt
  | .bar => r.onTop fun g =>
      some { g with alternatives := g.alternatives ++ [Regex.seqOf g.terms], terms := [] }
  | .opened true => some ⟨⟨some (r.captures + 1), [], []⟩ :: r.groups, r.captures + 1⟩
  | .opened false => some ⟨⟨none, [], []⟩ :: r.groups, r.captures⟩
  | .closed =>
      match r.groups with
      | g :: parent :: groups => some { r with groups := parent.add g.close :: groups }
      | _ => none

def Reader.steps (r : Reader) : List Token → Option Reader
  | [] => some r
  | token :: tokens => (r.step token).bind fun r => r.steps tokens

structure CompiledRegExp where
  regex : Regex CodeUnit
  captures : ℕ

def compileRegExp (source : JsString) : Option CompiledRegExp := do
  let tokens ← lex source
  let r ← Reader.steps ⟨[⟨none, [], []⟩], 0⟩ tokens
  match r.groups with
  | [g] => pure ⟨g.close, r.captures⟩
  | _ => none

/-- `exec`: the whole match, then the groups (`none` for `undefined`). -/
def CompiledRegExp.exec (r : CompiledRegExp) (text : JsString) : Option (List (Option JsString)) :=
  (r.regex.exec text).map fun (whole, run) =>
    some whole :: (List.range r.captures).map fun i => run.groups (i + 1)

example : (compileRegExp (js "^(?:/a/([^/]+)/?|/b\\.c/(.*))$")).bind (·.exec (js "/b.c/d/e")) =
    some [some (js "/b.c/d/e"), none, some (js "d/e")] := by decide +kernel

end Keala.Js
