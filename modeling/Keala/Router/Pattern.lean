import Keala.Js.Text

/-!
Route pattern compilation (`src/router/pattern.ts`). A pattern is compiled
once at registration into the segments the trie, the slice matchers and the
table regex all read. Malformed patterns are refused before anything is
registered.
-/

namespace Keala.Router

open Keala.Js

/-- A compiled `RegExp`, known by its `source`: two of the same source test
alike. -/
structure RegExp where
  source : JsString
  deriving DecidableEq, Repr

/-- Engine built-ins that stay parameters: the `RegExp` constructor and `test`
on the custom patterns users write, and the case mapping of method names. -/
structure Host where
  newRegExp : JsString → Option RegExp
  test : RegExp → JsString → Bool
  toUpperCase : JsString → JsString

/-- What setup calls throw; all are `TypeError`s but the `SyntaxError` of a
custom pattern and whatever a plugin's `install` throws itself. -/
inductive RouteError
  | notRooted (path : JsString)
  | emptySegment (path : JsString)
  | wildcardNotLast (path : JsString)
  | unbalancedPattern (path : JsString)
  | textAfterPattern (path : JsString)
  | syntaxError (source : JsString)
  | paramName (path : JsString)
  | partialWildcard (path : JsString)
  | conflictingNames (existing given : JsString)
  | unreachableVariant
  | unknownMethod (method : JsString)
  | noHandler
  | sunkOverlap (method path sunk : JsString)
  | scopeShape (pattern : JsString)
  | scopeWithoutMiddleware
  | globalAlongsideSunk
  | scopeAlongsideSunk (pattern sunk : JsString)
  | scopedPlugin
  | invalidMiddleware
  | paramMiddlewareName
  | paramAlongsideSunk
  | install
  deriving DecidableEq, Repr

/-- The text of a thrown error. `quote` is `JSON.stringify` on strings; the
text of a `SyntaxError` is the engine's own, that of an `install` error the
plugin's. -/
def RouteError.message (quote : JsString → JsString) : RouteError → Option JsString
  | notRooted path => some (js "Route path must start with \"/\": " ++ quote path)
  | emptySegment path => some (js "Route path has an empty segment: " ++ quote path)
  | wildcardNotLast path => some (js "Wildcard must be the last segment: " ++ quote path)
  | unbalancedPattern path => some (js "Unbalanced custom pattern: " ++ quote path)
  | textAfterPattern path =>
      some (js "Unexpected text after the custom pattern: " ++ quote path)
  | syntaxError _ => none
  | paramName path => some (js "Empty or invalid parameter name: " ++ quote path)
  | partialWildcard path =>
      some (js "Wildcard \"*\" must be its own final segment: " ++ quote path)
  | conflictingNames existing given =>
      some (js "Conflicting parameter names at the same position: \":" ++ existing ++
        js "\" vs \":" ++ given ++ js "\"")
  | unreachableVariant => some (js "unreachable param variant")
  | unknownMethod method => some (js "Unknown HTTP method: " ++ quote method)
  | noHandler => some (js "Route registration requires at least one handler")
  | sunkOverlap method path sunk =>
      some (js "route " ++ method ++ js " " ++ path ++ js " overlaps natively-sunk " ++ sunk ++
        js " — the Bun routing table would silently shadow it")
  | scopeShape pattern =>
      some (js "app.use() scope must be a static path or end in /*: " ++ quote pattern)
  | scopeWithoutMiddleware =>
      some (js "app.use(pattern) requires at least one middleware function")
  | globalAlongsideSunk =>
      some (js ("app.use(fn) cannot run alongside sunk routes unless every fn is declared " ++
        "a per-request no-op (noOpFor)"))
  | scopeAlongsideSunk pattern sunk =>
      some (js "app.use(" ++ quote pattern ++ js ") middleware overlaps natively-sunk " ++ sunk)
  | scopedPlugin =>
      some (js "app.use(pattern, plugin) is invalid — plugins install app-wide")
  | invalidMiddleware => some (js "app.use() requires a middleware function or plugin")
  | paramMiddlewareName => some (js "app.param() requires a parameter name")
  | paramAlongsideSunk =>
      some (js ("app.param() cannot run alongside sunk routes — the native routing table " ++
        "bypasses param middleware"))
  | install => none

/-- The source's record `{ kind, value, pattern, optional }`, with the fields
each kind can have. -/
inductive CompiledSegment
  | static (value : JsString)
  | param (name : JsString) (pattern : Option RegExp) (optional : Bool)
  | wildcard
  deriving DecidableEq, Repr

def wildcardName : JsString := js "wildcard"

def CompiledSegment.value : CompiledSegment → JsString
  | static value => value
  | param name _ _ => name
  | wildcard => wildcardName

def CompiledSegment.isStatic : CompiledSegment → Bool
  | static _ => true
  | _ => false

def CompiledSegment.optional : CompiledSegment → Bool
  | param _ _ optional => optional
  | _ => false

structure PatternIR where
  segments : List CompiledSegment
  isStatic : Bool
  isSimple : Bool
  deriving DecidableEq, Repr

def normalizePath (path : JsString) : JsString :=
  if 1 < path.length ∧ path.getLast? = some slash then path.dropLast else path

/-- Malformed escapes pass through verbatim. -/
def decodeSegment (segment : JsString) : JsString :=
  if percent ∈ segment then (decodeURIComponent segment).getD segment else segment

def namedParam (path : JsString) (optional : Bool) (name : JsString) (pattern : Option RegExp) :
    Except RouteError CompiledSegment :=
  if name = [] ∨ 63 ∈ name then .error (.paramName path)
  else .ok (.param name pattern optional)

def compileParam (host : Host) (path raw : JsString) : Except RouteError CompiledSegment :=
  let body := raw.drop 1
  -- The trailing ? binds before the custom pattern: `:id(\d+)?`.
  let optional := body.getLast? = some 63
  let body := if optional then body.dropLast else body
  match indexOf body 40 with
  | none => namedParam path optional body none
  | some opened =>
      match lastIndexOf body 41 with
      | none => .error (.unbalancedPattern path)
      | some closed =>
          if closed < opened then .error (.unbalancedPattern path)
          else
            let source := (body.take closed).drop (opened + 1)
            if body.drop (closed + 1) ≠ [] then .error (.textAfterPattern path)
            else
              match host.newRegExp (js "^(?:" ++ source ++ js ")$") with
              | none => .error (.syntaxError source)
              | some pattern => namedParam path optional (body.take opened) (some pattern)

/-- One part of `path`; `last` when no part follows. -/
def compileSegment (host : Host) (path raw : JsString) (last : Bool) :
    Except RouteError CompiledSegment :=
  if raw = [] then .error (.emptySegment path)
  else if raw = js "*" then
    if last then .ok .wildcard else .error (.wildcardNotLast path)
  else if raw.head? = some 58 then compileParam host path raw
  else if 42 ∈ raw then .error (.partialWildcard path)
  else .ok (.static (decodeSegment raw))

def compileParts (host : Host) (path : JsString) :
    List JsString → Except RouteError (List CompiledSegment)
  | [] => .ok []
  | raw :: parts => do
      let segment ← compileSegment host path raw parts.isEmpty
      let segments ← compileParts host path parts
      pure (segment :: segments)

def splitSegments (path : JsString) : List JsString :=
  let parts := (split slash (normalizePath path)).tail
  if parts = [[]] then [] else parts

/-- Only plain params follow a static head; `sawDynamic` is set from the first
of them on and `i` is the index of the next segment. -/
def simpleFrom : Bool → ℕ → List CompiledSegment → Bool
  | _, _, [] => true
  | sawDynamic, i, .static _ :: rest => !sawDynamic && simpleFrom sawDynamic (i + 1) rest
  | _, i, .param _ pattern optional :: rest =>
      !(optional || pattern.isSome || i == 0) && simpleFrom true (i + 1) rest
  | _, _, .wildcard :: _ => false

def compilePattern (host : Host) (path : JsString) : Except RouteError PatternIR :=
  if path.head? ≠ some slash then .error (.notRooted path)
  else do
    let segments ← compileParts host path (splitSegments path)
    let isStatic := segments.all CompiledSegment.isStatic
    pure { segments, isStatic, isSimple := !isStatic && simpleFrom false 0 segments }

def paramNamesOf (segments : List CompiledSegment) : List JsString :=
  (segments.filter fun s => !s.isStatic).map CompiledSegment.value

def fastComparable (segments : List CompiledSegment) : Bool :=
  segments.all fun
    | .static value => !value.contains slash
    | _ => true

/-- Whether two segments at one position can consume the same text. -/
def compatible : CompiledSegment → CompiledSegment → Bool
  | .static v, .static w => v == w
  | _, _ => true

def overlapSegments : List CompiledSegment → List CompiledSegment → Bool
  | [], [] => true
  | [], y :: b => (y.optional || y == .wildcard) && overlapSegments [] b
  | x :: a, [] => (x.optional || x == .wildcard) && overlapSegments a []
  | x :: a, y :: b =>
      if x = .wildcard ∨ y = .wildcard then true
      else if !compatible x y then false
      else overlapSegments a b ||
        (x.optional && overlapSegments a (y :: b)) ||
        (y.optional && overlapSegments (x :: a) b)
termination_by a b => a.length + b.length

/-- An unparseable path counts as overlapping: callers refuse loudly. -/
def patternsOverlap (host : Host) (a b : JsString) : Bool :=
  match compilePattern host a, compilePattern host b with
  | .ok a, .ok b => overlapSegments a.segments b.segments
  | _, _ => true

end Keala.Router
