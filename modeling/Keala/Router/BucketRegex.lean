import Keala.Js.RegExp
import Keala.Router.Trie

/-!
The table regex (`src/router/bucket-regex.ts`): every eligible dynamic pattern
of the router in one anchored alternation, sorted in the order in which the
trie would try them.
-/

namespace Keala.Router

open Keala.Js

structure RegexRoute where
  target : TargetRef
  /-- Param names in path order; group `i` lives at `groupStart + i`. -/
  names : List JsString
  groupStart : ℕ
  wildLast : Bool

structure TableRegex where
  regex : CompiledRegExp
  routes : List RegexRoute

structure EligiblePattern where
  segments : List CompiledSegment
  target : TargetRef

def escapeLiteral (value : JsString) : JsString :=
  value.flatMap fun c => if isSyntax c then [92, c] else [c]

/-- The captures of the segments after the first, when all of them fit the fast
layer. -/
def eligibleCaptures : List CompiledSegment → Option ℕ
  | [] => some 0
  | .static _ :: rest => eligibleCaptures rest
  | .wildcard :: rest => if rest = [] then some 1 else none
  | .param _ pattern optional :: rest =>
      if optional || pattern.isSome then none else (eligibleCaptures rest).map (· + 1)

def isRegexEligible : List CompiledSegment → Bool
  | .static _ :: rest => match eligibleCaptures rest with
    | none => false
    | some captures => 0 < captures
  | _ => false

/-- Trie DFS pop order: static children first, then params, wildcard last. -/
def rank : CompiledSegment → ℤ
  | .static _ => 0
  | .param _ _ _ => 1
  | .wildcard => 2

def staticCountOf (segments : List CompiledSegment) : ℤ :=
  (segments.filter CompiledSegment.isStatic).length

def rankDifference : List CompiledSegment → List CompiledSegment → Option ℤ
  | x :: a, y :: b => if rank x ≠ rank y then some (rank x - rank y) else rankDifference a b
  | _, _ => none

def triePrecedence (a b : List CompiledSegment) : ℤ :=
  match rankDifference a b with
  | some difference => difference
  | none =>
      let longer := if a.length > b.length then a else b
      -- X before X/*: the exact terminal returns before that node's wildcard.
      if a.length ≠ b.length ∧ longer.length = min a.length b.length + 1 ∧
          longer.getLast? = some .wildcard then
        if a.length < b.length then -1 else 1
      else
        let statics := staticCountOf b - staticCountOf a
        if statics ≠ 0 then statics else b.length - a.length

def segmentSource : CompiledSegment → JsString
  | .static value => slash :: escapeLiteral value
  | .param _ _ _ => js "/([^/]+)"
  | .wildcard => js "/(.*)"

def wildLast (segments : List CompiledSegment) : Bool := segments.getLast? = some .wildcard

def routeSource (segments : List CompiledSegment) : JsString :=
  (match segments with
    | [] => []
    | first :: rest => slash :: escapeLiteral first.value ++ rest.flatMap segmentSource) ++
    -- One trailing "/" is stripped before the trie segments the path.
    if wildLast segments then [] else js "/?"

def routeNames (segments : List CompiledSegment) : List JsString := paramNamesOf segments.tail

def regexRoutes : ℕ → List EligiblePattern → List RegexRoute
  | _, [] => []
  | groupCount, entry :: entries =>
      let names := routeNames entry.segments
      { target := entry.target, names, groupStart := groupCount + 1
        wildLast := wildLast entry.segments } :: regexRoutes (groupCount + names.length) entries

/-- The eligible patterns of pure buckets, in registration order. -/
def collectPatterns (patterns : List (JsString × EligiblePattern)) (impureFirst : List JsString) :
    List EligiblePattern :=
  (patterns.map Prod.snd).filter fun entry =>
    entry.segments.any (fun segment => !segment.isStatic) &&
      !((entry.segments.head?.map CompiledSegment.value).any (impureFirst.contains ·))

def sortPatterns (collected : List EligiblePattern) : List EligiblePattern :=
  collected.mergeSort fun x y => triePrecedence x.segments y.segments ≤ 0

def tableSource (sorted : List EligiblePattern) : JsString :=
  js "^(?:" ++ join 124 (sorted.map fun entry => routeSource entry.segments) ++ js ")$"

def compileTableRegex (patterns : List (JsString × EligiblePattern))
    (impureFirst : List JsString) : Except RouteError (Option TableRegex) :=
  let collected := collectPatterns patterns impureFirst
  if collected = [] then .ok none
  else
    let sorted := sortPatterns collected
    match compileRegExp (tableSource sorted) with
    | none => .error (.syntaxError (tableSource sorted))
    | some regex => .ok (some { regex, routes := regexRoutes 0 sorted })

/-- `result[i]`, `none` for `undefined`. -/
def at? (result : List (Option JsString)) (i : ℕ) : Option JsString := (result[i]?).join

/-- A single trailing "/" is not part of the wildcard capture. -/
def trimCapture (route : RegexRoute) (result : List (Option JsString)) : List (Option JsString) :=
  let index := route.groupStart + route.names.length - 1
  match at? result index with
  | none => result
  | some capture =>
      if 1 < capture.length ∧ capture.getLast? = some slash then
        result.set index (some capture.dropLast)
      else result

def matchTableRegex (table : TableRegex) (path : JsString) : Option RouteMatch :=
  -- "//"-terminated paths have an empty last segment: the trie owns them.
  if path.getLast? = some slash ∧ 1 < path.length ∧ path.dropLast.getLast? = some slash then none
  else
    match table.regex.exec path with
    | none => none
    | some result =>
        (table.routes.find? fun route => (at? result route.groupStart).isSome).map fun route =>
          { target := route.target
            names := route.names
            values :=
              if route.wildLast ∧ path.getLast? = some slash ∧ 1 < path.length then
                trimCapture route result
              else result
            offset := route.groupStart }

end Keala.Router
