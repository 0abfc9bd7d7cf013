import Keala.Router.Transaction

/-!
Setup calls on an application (`src/core/app.ts`, `src/core/registration.ts` and
`registerMiddleware`). A call that throws returns the application it leaves
behind next to the error.
-/

namespace Keala.Core

open Keala.Js Keala.Router

variable {η : Type}

structure NoOpDeclaration where
  methods : Option (List JsString)
  bodyless : Bool

abbrev NoOpMeta (η : Type) := η → Option NoOpDeclaration

def BODYLESS_METHODS : List JsString := [js "GET", js "HEAD"]

def GET_METHODS : List JsString := [js "GET"]

def noOpExcuses (noOpMeta : NoOpMeta η) (handler : η) (methods : List JsString) : Bool :=
  match noOpMeta handler with
  | none => false
  | some declaration =>
      (declaration.bodyless && methods.all fun method => decide (method ∈ BODYLESS_METHODS)) ||
      match declaration.methods with
      | none => false
      | some declared => methods.all fun method => decide (method ∈ declared)

structure SinkGuardSpec where
  path : JsString
  methods : List JsString

/-- The setup state of an application. A native sink is known by the methods
that a function sink declares. -/
structure App (η : Type) where
  router : RouterState η
  middleware : MiddlewareStack η
  nativeSinks : List (JsString × Option (List JsString))

def createApp (devTrace : Bool) : App η where
  router := { createRouterState [] with devTrace }
  middleware := createMiddlewareStack
  nativeSinks := []

def sinkGuardSpecs (app : App η) : List SinkGuardSpec :=
  app.router.sunkPaths.map fun path =>
    { path, methods := ((OrderedMap.get? app.nativeSinks path).getD none).getD GET_METHODS }

def scopeOverlapsPath (host : Host) (scope : MiddlewareScope) (pattern : JsString) : Bool :=
  patternsOverlap host scope.pattern pattern

mutual

/-- A setup call. `markSunk` is the end of `registerSink`; its mirrors are
registered by `on`. A `request` is one that is matched in between. -/
inductive SetupCall (η : Type)
  | on (registration : Registration η)
  | param (name : JsString) (middleware : η)
  | use (pattern : Option JsString) (args : UseArgs η)
  | markSunk (path : JsString) (methods : Option (List JsString))
  | request (path : JsString)

inductive UseArgs (η : Type)
  | nil
  | handler (fn : η) (rest : UseArgs η)
  | plugin (install : Install η) (rest : UseArgs η)
  | other (rest : UseArgs η)

/-- What the `install` of a plugin does: setup calls, whose errors it may catch,
and perhaps an error of its own. -/
inductive Install (η : Type)
  | done
  | throws
  | call (call : SetupCall η) (caught : Bool) (rest : Install η)

end

def UseArgs.handlers : UseArgs η → List η
  | .nil => []
  | .handler fn rest => fn :: rest.handlers
  | .plugin _ rest => rest.handlers
  | .other rest => rest.handlers

def UseArgs.isEmpty : UseArgs η → Bool
  | .nil => true
  | _ => false

def hasUnexcusedFn (noOpMeta : NoOpMeta η) (specs : List SinkGuardSpec) (args : UseArgs η) : Bool :=
  args.handlers.any fun handler => !specs.all fun spec => noOpExcuses noOpMeta handler spec.methods

/-- The checks that `registerMiddleware` makes before it adds anything. -/
def useScope (host : Host) (noOpMeta : NoOpMeta η) (pattern : Option JsString)
    (args : UseArgs η) (app : App η) : Except RouteError (Option MiddlewareScope) :=
  let specs := sinkGuardSpecs app
  match pattern with
  | none =>
      if 0 < specs.length ∧ hasUnexcusedFn noOpMeta specs args then .error .globalAlongsideSunk
      else .ok none
  | some pattern =>
      match compileMiddlewareScope host pattern with
      | .error e => .error e
      | .ok scope =>
          if args.isEmpty then .error .scopeWithoutMiddleware
          else
            match specs.find? fun spec =>
              scopeOverlapsPath host scope spec.path && hasUnexcusedFn noOpMeta specs args with
            | some spec => .error (.scopeAlongsideSunk pattern spec.path)
            | none => .ok (some scope)

/-- `flush()`; the flag is `changed`. -/
def flush (scope : Option MiddlewareScope) (pending : List η) (changed : Bool) (app : App η) :
    App η × Bool :=
  if pending.isEmpty then (app, changed)
  else ({ app with middleware := addMiddleware app.middleware scope pending }, true)

def rebuildApp [DecidableEq η] (host : Host) (app : App η) : App η × Except RouteError Unit :=
  let (router, result) := rebuildChains host app.router app.middleware
  ({ app with router }, result)

def addParam [DecidableEq η] (host : Host) (name : JsString) (middleware : η) (app : App η) :
    App η × Except RouteError Unit :=
  if name.length = 0 then (app, .error .paramMiddlewareName)
  else if 0 < app.nativeSinks.length then (app, .error .paramAlongsideSunk)
  else
    rebuildApp host { app with
      router := { app.router with
        paramMiddlewares := OrderedMap.set app.router.paramMiddlewares name (.user middleware) } }

def addRoute [DecidableEq η] (host : Host) (r : Registration η) (app : App η) :
    App η × Except RouteError Unit :=
  let (router, result) := registerDef host app.router r app.middleware
  ({ app with router }, result.map fun _ => ())

def sinkPath (path : JsString) (methods : Option (List JsString)) (app : App η) : App η :=
  { app with
    router := { app.router with
      sunkPaths := match app.router.defs.getLast? with
        | none => app.router.sunkPaths
        | some mirror => app.router.sunkPaths.insert mirror.path }
    nativeSinks := OrderedMap.set app.nativeSinks path methods }

def matchRequest (host : Host) (path : JsString) (app : App η) : App η × Except RouteError Unit :=
  match matchRoute host app.router.index path with
  | .error e => (app, .error e)
  | .ok (index, _) => ({ app with router := { app.router with index } }, .ok ())

mutual

def SetupCall.run [DecidableEq η] (host : Host) (noOpMeta : NoOpMeta η) :
    SetupCall η → App η → App η × Except RouteError Unit
  | .on r, app => addRoute host r app
  | .param name middleware, app => addParam host name middleware app
  | .use pattern args, app =>
      match useScope host noOpMeta pattern args app with
      | .error e => (app, .error e)
      | .ok scope =>
          match UseArgs.run host noOpMeta scope args [] false app with
          | (app, .error e) => (app, .error e)
          | (app, .ok changed) => if changed then rebuildApp host app else (app, .ok ())
  | .markSunk path methods, app => (sinkPath path methods app, .ok ())
  | .request path, app => matchRequest host path app

def UseArgs.run [DecidableEq η] (host : Host) (noOpMeta : NoOpMeta η)
    (scope : Option MiddlewareScope) :
    UseArgs η → List η → Bool → App η → App η × Except RouteError Bool
  | .nil, pending, changed, app =>
      let (app, changed) := flush scope pending changed app
      (app, .ok changed)
  | .handler fn rest, pending, changed, app =>
      UseArgs.run host noOpMeta scope rest (pending ++ [fn]) changed app
  | .plugin install rest, pending, changed, app =>
      if scope.isSome then (app, .error .scopedPlugin)
      else
        let (app, changed) := flush scope pending changed app
        match Install.run host noOpMeta install app with
        | (app, .error e) => (app, .error e)
        | (app, .ok ()) => UseArgs.run host noOpMeta scope rest [] changed app
  | .other _, _, _, app => (app, .error .invalidMiddleware)

def Install.run [DecidableEq η] (host : Host) (noOpMeta : NoOpMeta η) :
    Install η → App η → App η × Except RouteError Unit
  | .done, app => (app, .ok ())
  | .throws, app => (app, .error .install)
  | .call call caught rest, app =>
      match SetupCall.run host noOpMeta call app with
      | (app, .error e) => if caught then Install.run host noOpMeta rest app else (app, .error e)
      | (app, .ok ()) => Install.run host noOpMeta rest app

end

/-- A sequence of setup calls; the caller goes on after one that throws. -/
def setup [DecidableEq η] (host : Host) (noOpMeta : NoOpMeta η) (calls : List (SetupCall η))
    (app : App η) : App η :=
  calls.foldl (fun app call => (call.run host noOpMeta app).1) app

end Keala.Core
