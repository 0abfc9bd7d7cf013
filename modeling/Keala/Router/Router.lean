import Keala.Core.MiddlewareStack
import Keala.Router.Match

/-!
Route registration (`src/router/router.ts`, `src/router/chains.ts`): eager
validation, transactional binding and the middleware chains of the targets.
Calls that throw return the state they leave behind next to the error.
-/

namespace Keala.Router

open Keala.Js Keala.Core

variable {η : Type}

structure RouteDef (η : Type) where
  /-- Uppercase, or "ALL". -/
  method : JsString
  path : JsString
  handlers : List (RouteHandler η)
  name : Option JsString
  /-- Sub-router middleware merged by `mount()`; absent is the empty list. -/
  prefixMiddleware : List (RouteHandler η)
  deriving DecidableEq

/-- All built-in chains share this signature (composed or direct). -/
inductive Chain (η : Type)
  | direct (handler : RouteHandler η)
  | composed (chain : Composed (RouteHandler η))
  deriving DecidableEq

structure RouteTarget (η : Type) where
  methods : List (JsString × Chain η)
  layers : List (JsString × List (RouteHandler η))
  allowed : List JsString
  pattern : JsString
  name : Option JsString
  deriving DecidableEq

def createTarget : RouteTarget η := ⟨[], [], [], [], none⟩

/-- `targets` is the heap of the targets that references stand for. -/
structure RouterState (η : Type) where
  defs : List (RouteDef η)
  named : List (JsString × RouteDef η)
  paramMiddlewares : List (JsString × RouteHandler η)
  index : RouteIndex
  targets : TargetRef → RouteTarget η
  routerPrefix : JsString
  sunkPaths : List JsString
  devTrace : Bool

def normalizePrefix (path : JsString) : JsString :=
  if path.length = 0 ∨ path = js "/" then []
  else if path.getLast? = some slash then path.dropLast else path

def createRouterState (pathPrefix : JsString) : RouterState η where
  defs := []
  named := []
  paramMiddlewares := []
  index := createRouteIndex
  targets := fun _ => createTarget
  routerPrefix := normalizePrefix pathPrefix
  sunkPaths := []
  devTrace := false

/-! ### Chains -/

/-- `chain.includes(mw)` tells handlers apart as objects. -/
def paramChainFor [DecidableEq η] (paramMiddlewares : List (JsString × RouteHandler η))
    (segments : List CompiledSegment) : List (RouteHandler η) :=
  (paramNamesOf segments).foldl (fun chain name =>
    match OrderedMap.get? paramMiddlewares name with
    | none => chain
    | some mw => if mw ∈ chain then chain else chain ++ [mw]) []

def chainOf (handlers appMiddleware : List (RouteHandler η)) (devTrace : Bool) : Chain η :=
  match appMiddleware, handlers with
  | [], [handler] => .direct handler
  | [], handlers => .composed ⟨handlers⟩
  | appMiddleware, handlers =>
      .composed ⟨if devTrace then appMiddleware ++ .markRouteReached :: handlers
        else appMiddleware ++ handlers⟩

def ALL : JsString := js "ALL"

def KNOWN_METHODS : List JsString :=
  ["HEAD", "OPTIONS", "GET", "PUT", "PATCH", "POST", "DELETE", "TRACE", "CONNECT"].map js

def allowedOf (method : JsString) : List JsString :=
  method :: (if method = ALL then [js "*"] else []) ++ if method = js "GET" then [js "HEAD"] else []

def bindTarget (d : RouteDef η) (handlers appMiddleware : List (RouteHandler η))
    (devTrace : Bool) (target : RouteTarget η) : RouteTarget η :=
  let layers := (OrderedMap.get? target.layers d.method).getD [] ++ handlers
  { methods := OrderedMap.set target.methods d.method (chainOf layers appMiddleware devTrace)
    layers := OrderedMap.set target.layers d.method layers
    allowed := (allowedOf d.method).foldl
      (fun allowed method => if method ∈ allowed then allowed else allowed ++ [method])
      target.allowed
    pattern := d.path
    name := d.name.or target.name }

/-! ### Binding -/

def bindDef [DecidableEq η] (host : Host) (state : RouterState η) (d : RouteDef η)
    (middleware : MiddlewareStack η) : RouterState η × Except RouteError Unit :=
  match compilePattern host d.path with
  | .error e => (state, .error e)
  | .ok ir =>
      match bindRoute state.index ir d.path with
      | (index, .error e) => ({ state with index }, .error e)
      | (index, .ok targets) =>
          match middlewareForRoute host middleware d.path 0 with
          | .error e => ({ state with index }, .error e)
          | .ok appMiddleware =>
              let handlers := d.prefixMiddleware ++
                paramChainFor state.paramMiddlewares ir.segments ++ d.handlers
              ({ state with
                  index
                  targets := fun t =>
                    if t ∈ targets then
                      bindTarget d handlers appMiddleware state.devTrace (state.targets t)
                    else state.targets t }, .ok ())

def bindAll [DecidableEq η] (host : Host) (middleware : MiddlewareStack η) :
    List (RouteDef η) → RouterState η → RouterState η × Except RouteError Unit
  | [], state => (state, .ok ())
  | d :: defs, state =>
      match bindDef host state d middleware with
      | (state, .error e) => (state, .error e)
      | (state, .ok ()) => bindAll host middleware defs state

def resetRouter (state : RouterState η) : RouterState η :=
  { state with index := resetIndex state.index, targets := fun _ => createTarget }

/-- Full re-index + recompose (middleware stack or param middleware changed). -/
def rebuildChains [DecidableEq η] (host : Host) (state : RouterState η)
    (middleware : MiddlewareStack η) : RouterState η × Except RouteError Unit :=
  bindAll host middleware state.defs (resetRouter state)

/-! ### Sunk paths -/

/-- Segments in the keyspace of a native routing table, where an escaped
separator is a real boundary. -/
def canonicalSegments (path : JsString) : List JsString :=
  let base := if endsWith path (js "/*") then path.take (path.length - 2) else path
  let parts := ((split slash base).flatMap fun segment => split slash (decodeSegment segment)).tail
  if parts = [[]] then [] else parts

def pathsConflict (a b : JsString) : Bool :=
  let aSegs := canonicalSegments a
  let bSegs := canonicalSegments b
  (aSegs.length == bSegs.length && startsWithSegments aSegs bSegs) ||
  (endsWith a (js "/*") && decide (aSegs.length < bSegs.length) &&
    startsWithSegments aSegs bSegs) ||
  (endsWith b (js "/*") && decide (bSegs.length < aSegs.length) &&
    startsWithSegments bSegs aSegs)

/-! ### Registration -/

structure Registration (η : Type) where
  method : JsString
  path : JsString
  handlers : List (RouteHandler η)
  name : Option JsString
  prefixMiddleware : List (RouteHandler η)

/-- The definition a registration asks for, when its arguments pass the checks
made before anything is stored. -/
def checkedDef (host : Host) (state : RouterState η) (r : Registration η) :
    Except RouteError (RouteDef η) :=
  let upper := host.toUpperCase r.method
  if upper ∉ KNOWN_METHODS ∧ upper ≠ ALL then .error (.unknownMethod r.method)
  else if r.handlers.length = 0 then .error .noHandler
  else
    let joined := state.routerPrefix ++ normalizePrefix r.path
    let path := normalizePath (if joined.length = 0 then js "/" else joined)
    match state.sunkPaths.find? fun sunk =>
        pathsConflict path sunk || patternsOverlap host path sunk with
    | some sunk => .error (.sunkOverlap upper path sunk)
    | none =>
        .ok { method := upper, path, handlers := r.handlers, name := r.name
              prefixMiddleware := r.prefixMiddleware }

def pushDef (state : RouterState η) (d : RouteDef η) : RouterState η :=
  { state with
    defs := state.defs ++ [d]
    named := match d.name with
      | none => state.named
      | some name => OrderedMap.set state.named name d }

def popDef (state : RouterState η) (name : Option JsString) (previousNamed : Option (RouteDef η)) :
    RouterState η :=
  { state with
    defs := state.defs.dropLast
    named := match name, previousNamed with
      | none, _ => state.named
      | some name, none => OrderedMap.delete state.named name
      | some name, some previous => OrderedMap.set state.named name previous }

def registerDef [DecidableEq η] (host : Host) (state : RouterState η) (r : Registration η)
    (middleware : MiddlewareStack η) : RouterState η × Except RouteError (RouteDef η) :=
  match checkedDef host state r with
  | .error e => (state, .error e)
  | .ok d =>
      let previousNamed := d.name.bind (OrderedMap.get? state.named)
      match bindDef host (pushDef state d) d middleware with
      | (state, .ok ()) => (state, .ok d)
      | (state, .error e) =>
          -- Discard partial index mutations wholesale.
          match rebuildChains host (popDef state d.name previousNamed) middleware with
          | (state, .error e) => (state, .error e)
          | (state, .ok ()) => (state, .error e)

end Keala.Router
