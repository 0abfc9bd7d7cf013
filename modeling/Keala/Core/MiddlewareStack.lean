import Keala.Lib.PrefixTree
import Keala.Router.Trie
import Mathlib.Data.Nat.Digits.Defs

/-!
Application middleware and its path scopes (`src/core/middleware-stack.ts`).
Handlers are the values of a type `η`, told apart as function objects are; what
they do when they run is modelled elsewhere.
-/

namespace Keala.Core

open Keala.Js Keala.Router

structure MiddlewareScope where
  pattern : JsString
  segments : List JsString
  /-- The scope ends in "/*". -/
  isPrefix : Bool
  deriving DecidableEq

variable {η : Type}

structure MiddlewareLayer (η : Type) where
  scope : Option MiddlewareScope
  handler : η

/-- What `compose` returns, known by the handlers it closes over. -/
structure Composed (η : Type) where
  handlers : List η
  deriving DecidableEq

structure FallbackChains (η : Type) where
  exactChain : Option (Composed η)
  prefixChain : Option (Composed η)

/-- The source's `{ children, exactChain, prefixChain }`. -/
abbrev FallbackNode (η : Type) := PrefixTree JsString (FallbackChains η)

structure MiddlewareStack (η : Type) where
  layers : List (MiddlewareLayer η)
  global : List η
  globalChain : Option (Composed η)
  fallbackRoot : FallbackNode η

def noChains : FallbackChains η := ⟨none, none⟩

def createFallbackNode : FallbackNode η := .leaf noChains

def createMiddlewareStack : MiddlewareStack η := ⟨[], [], none, createFallbackNode⟩

def decimal (n : ℕ) : JsString :=
  if n = 0 then [48] else ((Nat.digits 10 n).map fun d => (48 + d).toUInt16).reverse

def keyOf (segments : List JsString) : JsString :=
  segments.flatMap fun segment => decimal segment.length ++ 58 :: segment

def startsWithSegments (pre full : List JsString) : Bool := pre.isPrefixOf full

def scopeMatchesSegments (scope : MiddlewareScope) (segments : List JsString) : Bool :=
  if scope.isPrefix then startsWithSegments scope.segments segments
  else scope.segments.length == segments.length && startsWithSegments scope.segments segments

def pathSegments (path : JsString) : List JsString := (splitSegments path).map decodeSegment

/-- The static segments of a scope pattern, and whether it ends in "/*"; `none`
for a pattern that is no scope. -/
def scopeSegments : List CompiledSegment → Option (List JsString × Bool)
  | [] => some ([], false)
  | .static value :: rest => (scopeSegments rest).map fun (segments, isPrefix) =>
      (value :: segments, isPrefix)
  | [.wildcard] => some ([], true)
  | _ :: _ => none

def compileMiddlewareScope (host : Host) (pattern : JsString) :
    Except RouteError MiddlewareScope := do
  let ir ← compilePattern host pattern
  match scopeSegments ir.segments with
  | none => .error (.scopeShape pattern)
  | some (segments, isPrefix) => pure { pattern, segments, isPrefix }

/-! ### Fallback chains -/

def chainOf (handlers : List η) : Option (Composed η) :=
  if handlers = [] then none else some ⟨handlers⟩

def layerCovers (segments : List JsString) (includeExact : Bool) (layer : MiddlewareLayer η) :
    Bool :=
  match layer.scope with
  | none => true
  | some scope =>
      if scope.isPrefix then startsWithSegments scope.segments segments
      else includeExact && scopeMatchesSegments scope segments

def handlersForSegments (layers : List (MiddlewareLayer η)) (segments : List JsString)
    (includeExact : Bool) : List η :=
  (layers.filter (layerCovers segments includeExact)).map MiddlewareLayer.handler

def addScope (isPrefix : Bool) (scopes : List (JsString × List JsString))
    (layer : MiddlewareLayer η) : List (JsString × List JsString) :=
  match layer.scope with
  | none => scopes
  | some scope =>
      if scope.isPrefix = isPrefix then OrderedMap.set scopes (keyOf scope.segments) scope.segments
      else scopes

def scopesOf (isPrefix : Bool) (layers : List (MiddlewareLayer η)) :
    List (JsString × List JsString) := layers.foldl (addScope isPrefix) []

def setExactChain (layers : List (MiddlewareLayer η)) (root : FallbackNode η)
    (segments : List JsString) : FallbackNode η :=
  match chainOf (handlersForSegments layers segments true) with
  | none => root
  | some chain =>
      root.update noChains segments fun chains => { chains with exactChain := some chain }

def setPrefixChain (layers : List (MiddlewareLayer η)) (root : FallbackNode η)
    (segments : List JsString) : FallbackNode η :=
  match chainOf (handlersForSegments layers segments false) with
  | none => root
  | some chain =>
      root.update noChains segments fun chains => { chains with prefixChain := some chain }

def rebuildFallbacks (stack : MiddlewareStack η) : MiddlewareStack η :=
  let exactScopes := (scopesOf false stack.layers).map Prod.snd
  let prefixScopes := (scopesOf true stack.layers).map Prod.snd
  let root := exactScopes.foldl (setExactChain stack.layers) createFallbackNode
  { stack with
    globalChain := chainOf stack.global
    fallbackRoot := prefixScopes.foldl (setPrefixChain stack.layers) root }

def addMiddleware (stack : MiddlewareStack η) (scope : Option MiddlewareScope)
    (handlers : List η) : MiddlewareStack η :=
  rebuildFallbacks { stack with
    layers := stack.layers ++ handlers.map fun handler => { scope, handler }
    global := if scope.isNone then stack.global ++ handlers else stack.global }

/-- The walk of `fallbackMiddlewareForPath`; `prefixChain` is the last prefix
chain met. -/
def descend (globalChain : Option (Composed η)) :
    FallbackNode η → Option (Composed η) → List JsString → Option (Composed η)
  | node, prefixChain, [] => (node.value.exactChain.or prefixChain).or globalChain
  | node, prefixChain, segment :: segments =>
      match node.child? segment with
      | none => prefixChain.or globalChain
      | some child => descend globalChain child (child.value.prefixChain.or prefixChain) segments

def fallbackMiddlewareForPath (stack : MiddlewareStack η) (path : JsString) :
    Option (Composed η) :=
  if stack.layers.length = stack.global.length then stack.globalChain
  else descend stack.globalChain stack.fallbackRoot stack.fallbackRoot.value.prefixChain
    (pathSegments path)

def hasMiddlewareForPath (stack : MiddlewareStack η) (path : JsString) : Bool :=
  if 0 < stack.global.length then true
  else stack.layers.any fun layer =>
    match layer.scope with
    | none => false
    | some scope => scopeMatchesSegments scope (pathSegments path)

/-! ### Route chains -/

inductive Relation
  | always
  | never
  | conditional
  deriving DecidableEq

def prefixRelation (route : List CompiledSegment) : List JsString → List CompiledSegment → Relation
  | [], _ => .always
  | _ :: _, [] => if route.any (fun s => !s.isStatic) then .conditional else .never
  | segment :: segments, .static value :: rest =>
      if value = segment then prefixRelation route segments rest else .never
  | _ :: _, _ :: _ => .conditional

def routeRelation (scope : MiddlewareScope) (route : List CompiledSegment) : Relation :=
  if scope.isPrefix = false then
    if route = scope.segments.map .static then .always
    else if route.all CompiledSegment.isStatic then .never
    else .conditional
  else prefixRelation route scope.segments route

/-- The handlers of a route: the ones registered, and wrappers that run theirs
when the scope matches the segments of the request after the first
`pathOffset`. -/
inductive RouteHandler (η : Type)
  | user (handler : η)
  | conditional (scope : MiddlewareScope) (handler : η) (pathOffset : ℕ)
  | markRouteReached
  deriving DecidableEq

def layerForRoute (route : List CompiledSegment) (pathOffset : ℕ) (layer : MiddlewareLayer η) :
    List (RouteHandler η) :=
  match layer.scope with
  | none => [.user layer.handler]
  | some scope =>
      match routeRelation scope route with
      | .always => [.user layer.handler]
      | .never => []
      | .conditional => [.conditional scope layer.handler pathOffset]

def middlewareForRoute (host : Host) (stack : MiddlewareStack η) (path : JsString)
    (pathOffset : ℕ) : Except RouteError (List (RouteHandler η)) := do
  let ir ← compilePattern host path
  pure (stack.layers.flatMap (layerForRoute ir.segments pathOffset))

def rebaseMountedMiddleware (handlers : List (RouteHandler η)) (pathOffset : ℕ) :
    List (RouteHandler η) :=
  handlers.map fun
    | .conditional scope handler offset => .conditional scope handler (offset + pathOffset)
    | handler => handler

def effective (segments : List JsString) (handlers : List (RouteHandler η)) : List η :=
  handlers.filterMap fun
    | .user handler => some handler
    | .conditional scope handler pathOffset =>
        if scopeMatchesSegments scope (segments.drop pathOffset) then some handler else none
    | .markRouteReached => none

end Keala.Core
