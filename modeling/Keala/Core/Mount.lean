import Keala.Core.Sink

/-!
Redirects, socket routes and mounting (`src/core/registration.ts`): the setup
calls that register through `registerDef`.
-/

namespace Keala.Core

open Keala.Js Keala.Router

variable {η : Type}

inductive MountError
  | redirectCode
  /-- What the destination of a redirect is refused for. -/
  | redirectDestination
  | wsPooling
  | mountWsPooling
  | wsRegistered (key : JsString)
  | noWsHandlers (key : JsString)
  | mountSelf
  | mountParams
  | route (e : RouteError)
  deriving DecidableEq

/-- A definition as `mount` reads it, with the socket key it may carry. -/
structure SubDef (η : Type) where
  routeDef : RouteDef η
  wsKey : Option JsString

/-- Socket handlers, known by the upgrade handler that a key makes of them. -/
abbrev SocketHandlers (η : Type) := JsString → η

inductive Mountable (η : Type)
  | router (defs : List (SubDef η)) (paramMiddlewares : List (JsString × RouteHandler η))
      (middleware : List (RouteHandler η))
  | application (defs : List (SubDef η)) (paramMiddlewares : List (JsString × RouteHandler η))
      (middleware : MiddlewareStack η) (wsRoutes : List (JsString × SocketHandlers η))
  /-- The application that `mount` is called on. -/
  | self

def Mountable.defs : Mountable η → List (SubDef η)
  | router defs _ _ | application defs _ _ _ => defs
  | self => []

def Mountable.paramMiddlewares : Mountable η → List (JsString × RouteHandler η)
  | router _ params _ | application _ params _ _ => params
  | self => []

/-- Routers carry no socket registrations. -/
def Mountable.wsRoutes : Mountable η → List (JsString × SocketHandlers η)
  | application _ _ _ wsRoutes => wsRoutes
  | _ => []

def Mountable.middlewareFor (host : Host) (sub : Mountable η) (path : JsString)
    (mountOffset : ℕ) : Except RouteError (List (RouteHandler η)) :=
  match sub with
  | router _ _ middleware => .ok middleware
  | application _ _ middleware _ => middlewareForRoute host middleware path mountOffset
  | self => .ok []

def mountBase (mountPath : JsString) : JsString :=
  if mountPath = [slash] ∨ mountPath = [] then []
  else if mountPath.getLast? = some slash ∧ 1 < mountPath.length then mountPath.dropLast
  else mountPath

def orRoot (path : JsString) : JsString := if path = [] then [slash] else path

def addDef [DecidableEq η] (host : Host) (r : Registration η) (st : SinkApp η) :
    SinkApp η × Except MountError Unit :=
  match registerDef host st.app.router r st.app.middleware with
  | (router, .error e) => ({ st with app := { st.app with router } }, .error (.route e))
  | (router, .ok _) => ({ st with app := { st.app with router } }, .ok ())

/-- The handler redirects to `destination`, which `refused` says to fail the
checks of `redirectTargetSegments` and `assertRedirectCaptures`. -/
def registerRedirect [DecidableEq η] (host : Host) (st : SinkApp η) (source : JsString)
    (refused : Bool) (code : Option ℤ) (handler : η) : SinkApp η × Except MountError Unit :=
  match code with
  | none => (st, .error .redirectCode)
  | some code =>
      if code < 300 ∨ 399 < code then (st, .error .redirectCode)
      else if refused then (st, .error .redirectDestination)
      else addDef host ⟨js "GET", source, [.user handler], none, []⟩ st

def claimKey (key : JsString) :
    SinkApp η × Except MountError Unit → SinkApp η × Except MountError Unit
  | (st, .error e) => (st, .error e)
  | (st, .ok ()) => ({ st with wsRoutes := st.wsRoutes ++ [key] }, .ok ())

def registerWsRoute [DecidableEq η] (host : Host) (st : SinkApp η) (poolingEnabled : Bool)
    (path : JsString) (handlers : SocketHandlers η) : SinkApp η × Except MountError Unit :=
  if poolingEnabled then (st, .error .wsPooling)
  else
    let routeKey := orRoot (normalizePrefix path)
    if routeKey ∈ st.wsRoutes then (st, .error (.wsRegistered routeKey))
    else
      claimKey routeKey
        (addDef host ⟨js "ALL", routeKey, [.user (handlers routeKey)], none, []⟩ st)

def mergeMountedWs [DecidableEq η] (host : Host) (st : SinkApp η) (path wsKey : JsString)
    (mountedMiddleware : List (RouteHandler η)) (d : RouteDef η)
    (handlers : List (JsString × SocketHandlers η)) : SinkApp η × Except MountError Unit :=
  match OrderedMap.get? handlers wsKey with
  | none => (st, .error (.noWsHandlers wsKey))
  | some socketHandlers =>
      let newKey := orRoot (normalizePrefix path)
      if newKey ∈ st.wsRoutes then (st, .error (.wsRegistered newKey))
      else claimKey newKey
        (addDef host
          ⟨d.method, path, [.user (socketHandlers newKey)], d.name, mountedMiddleware⟩ st)

def mountDef [DecidableEq η] (host : Host) (poolingEnabled : Bool) (base : JsString)
    (mountOffset : ℕ) (sub : Mountable η) (d : SubDef η) (st : SinkApp η) :
    SinkApp η × Except MountError Unit :=
  let path := orRoot (base ++ d.routeDef.path)
  match sub.middlewareFor host d.routeDef.path mountOffset with
  | .error e => (st, .error (.route e))
  | .ok subMiddleware =>
      let mountedMiddleware :=
        rebaseMountedMiddleware d.routeDef.prefixMiddleware mountOffset ++ subMiddleware
      match d.wsKey with
      | some wsKey =>
          if poolingEnabled then (st, .error .mountWsPooling)
          else mergeMountedWs host st path wsKey mountedMiddleware d.routeDef sub.wsRoutes
      | none =>
          addDef host
            ⟨d.routeDef.method, path, d.routeDef.handlers, d.routeDef.name, mountedMiddleware⟩ st

def mountDefs [DecidableEq η] (host : Host) (poolingEnabled : Bool) (base : JsString)
    (mountOffset : ℕ) (sub : Mountable η) :
    List (SubDef η) → SinkApp η → SinkApp η × Except MountError Unit
  | [], st => (st, .ok ())
  | d :: defs, st =>
      match mountDef host poolingEnabled base mountOffset sub d st with
      | (st, .error e) => (st, .error e)
      | (st, .ok ()) => mountDefs host poolingEnabled base mountOffset sub defs st

/-- The param middleware of a mounted router that the application has not. -/
def mergeParams (own mounted : List (JsString × RouteHandler η)) :
    List (JsString × RouteHandler η) :=
  mounted.foldl (fun params entry =>
    if (OrderedMap.get? params entry.1).isSome then params
    else OrderedMap.set params entry.1 entry.2) own

/-- Merge the param middleware, and rebuild the chains when there is any new. -/
def mountParams [DecidableEq η] (host : Host) (sub : Mountable η) (st : SinkApp η) :
    SinkApp η × Except MountError Unit :=
  let merged := mergeParams st.app.router.paramMiddlewares sub.paramMiddlewares
  if merged.length = st.app.router.paramMiddlewares.length then (st, .ok ())
  else
    match rebuildApp host
        { st.app with router := { st.app.router with paramMiddlewares := merged } } with
    | (app, .error e) => ({ st with app }, .error (.route e))
    | (app, .ok ()) => ({ st with app }, .ok ())

def mountInto [DecidableEq η] (host : Host) (st : SinkApp η) (poolingEnabled : Bool)
    (mountPath : JsString) (sub : Mountable η) : SinkApp η × Except MountError Unit :=
  match sub with
  | .self => (st, .error .mountSelf)
  | sub =>
      let base := mountBase mountPath
      match compilePattern host (orRoot base) with
      | .error e => (st, .error (.route e))
      | .ok ir =>
          if 0 < st.app.nativeSinks.length ∧ 0 < sub.paramMiddlewares.length then
            (st, .error .mountParams)
          else
            match mountParams host sub st with
            | (st, .error e) => (st, .error e)
            | (st, .ok ()) =>
                mountDefs host poolingEnabled base ir.segments.length sub sub.defs st

end Keala.Core
