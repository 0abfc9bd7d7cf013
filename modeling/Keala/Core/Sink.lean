import Keala.Core.Registration

/-!
Native route sinking (`registerSink` of `src/core/sink.ts`). A sunk route lives
twice: in the native table, and as an ordinary route that mirrors it.
-/

namespace Keala.Core

open Keala.Js Keala.Router

variable {η : Type}

inductive SinkValue (η : Type)
  | response (bodyUsed : Bool) (mirror : η)
  | dir (dir : JsString) (mirror : η)
  | handler (mirror : η)
  | other

inductive SinkError
  | notAbsolute (path : JsString)
  | registered (path : JsString)
  | globalMiddleware
  | scopedMiddleware (pattern : JsString)
  | paramMiddleware
  | invalidValue
  | consumed
  | emptyDir
  | dirShape (path : JsString)
  | errorMapper
  | percentEncoded (path : JsString)
  | handlerSegments (path : JsString)
  | dynamicStatic (path : JsString)
  | overlaps (path method existing : JsString)
  | route (e : RouteError)
  deriving DecidableEq

def SinkError.message (quote : JsString → JsString) : SinkError → Option JsString
  | notAbsolute path => some (js "sink path must be an absolute path, got " ++ quote path)
  | registered path => some (js "sink " ++ path ++ js " is already registered")
  | globalMiddleware =>
      some (js ("app.sink() requires an app without global middleware — declare per-request " ++
        "no-ops with noOpFor() or drop the sink"))
  | scopedMiddleware pattern =>
      some (js "app.sink() conflicts with " ++ pattern ++
        js " middleware — the native routing table would bypass it")
  | paramMiddleware =>
      some (js ("app.sink() requires an app without param middleware — the native routing " ++
        "table bypasses it"))
  | invalidValue => some (js "app.sink() requires a Response, \x7b dir \x7d, or handler function")
  | consumed =>
      some (js ("app.sink() requires an unconsumed Response — an already-read body cannot be " ++
        "replayed"))
  | emptyDir => some (js "sink \x7b dir \x7d requires a directory path")
  | dirShape path =>
      some (js "sink " ++ path ++
        js ": directory sinks must end in /* (e.g. \"/assets/*\")")
  | errorMapper =>
      some (js ("app.sink(path, fn) requires an app without app.onError() — the error mapper " ++
        "contract is context-based and a sunk handler has no context"))
  | percentEncoded path =>
      some (js "sink " ++ path ++ js (": percent-encoded paths cannot sink — the native table " ++
        "matches raw bytes while the router decodes (bun#37603)"))
  | handlerSegments path =>
      some (js "sink " ++ path ++
        js ": function sinks support static and plain \":param\" segments only")
  | dynamicStatic path =>
      some (js "sink " ++ path ++ js (": static response sinks must be plain paths " ++
        "(params/wildcards cannot have a static response)"))
  | overlaps path method existing =>
      some (js "sink " ++ path ++ js " overlaps an existing route " ++ method ++ js " " ++ existing)
  | route e => e.message quote

/-- A sink as the router knows it: the paths it added to `sunkPaths` and the
positions of its mirrors among the definitions. -/
structure Sunk where
  paths : List JsString
  mirrors : List ℕ

structure SinkApp (η : Type) where
  app : App η
  wsRoutes : List JsString
  sunk : List Sunk

def createSinkApp (devTrace : Bool) : SinkApp η := ⟨createApp devTrace, [], []⟩

/-- The middleware that would observe a sink: `none` in it is a global layer. -/
def middlewareConflictForPath (host : Host) (noOpMeta : NoOpMeta η) (stack : MiddlewareStack η)
    (path : JsString) (methods : List JsString) : Option (Option JsString) :=
  stack.layers.findSome? fun layer =>
    if noOpExcuses noOpMeta layer.handler methods then none
    else
      match layer.scope with
      | none => some none
      | some scope => if scopeOverlapsPath host scope path then some (some scope.pattern) else none

def conflictsWithAny (host : Host) (path : JsString) (defs : List (RouteDef η)) :
    Option (RouteDef η) :=
  defs.find? fun d => pathsConflict path d.path || patternsOverlap host path d.path

def plainSegment : CompiledSegment → Bool
  | .static _ => true
  | .param _ pattern optional => !optional && pattern.isNone
  | .wildcard => false

def checkSinkValue (host : Host) (path : JsString) (hasErrorMapper : Bool) :
    SinkValue η → Except SinkError Unit
  | .other => .error .invalidValue
  | .response bodyUsed _ =>
      if bodyUsed then .error .consumed
      else if 42 ∈ path ∨ 58 ∈ path then .error (.dynamicStatic path)
      else .ok ()
  | .dir dir _ =>
      if dir.length = 0 then .error .emptyDir
      else if !endsWith path (js "/*") then .error (.dirShape path)
      else .ok ()
  | .handler _ =>
      if hasErrorMapper then .error .errorMapper
      else if percent ∈ path then .error (.percentEncoded path)
      else
        match compilePattern host path with
        | .error e => .error (.route e)
        | .ok ir =>
            if ir.segments.all plainSegment then .ok () else .error (.handlerSegments path)

/-- Everything `registerSink` checks before it registers the mirrors. -/
def checkSink (host : Host) (noOpMeta : NoOpMeta η) (app : App η) (path : JsString)
    (value : SinkValue η) (hasErrorMapper : Bool) : Except SinkError Unit :=
  if path.head? ≠ some slash then .error (.notAbsolute path)
  else if (OrderedMap.get? app.nativeSinks path).isSome then .error (.registered path)
  else
    match middlewareConflictForPath host noOpMeta app.middleware path GET_METHODS with
    | some none => .error .globalMiddleware
    | some (some pattern) => .error (.scopedMiddleware pattern)
    | none =>
        if 0 < app.router.paramMiddlewares.length then .error .paramMiddleware
        else do
          checkSinkValue host path hasErrorMapper value
          match conflictsWithAny host path app.router.defs with
          | some d => .error (.overlaps path d.method d.path)
          | none => pure ()

def mirrorOf (mirror : η) (path : JsString) : Registration η :=
  ⟨js "GET", path, [.user mirror], none, []⟩

/-- The routes that mirror a sink: a tree has a twin on its bare path. -/
def mirrorsOf (path : JsString) : SinkValue η → List (Registration η)
  | .response _ mirror | .handler mirror => [mirrorOf mirror path]
  | .dir _ mirror =>
      let bare := path.take (path.length - 2)
      [mirrorOf mirror path, mirrorOf mirror (if bare = [] then js "/" else bare)]
  | .other => []

def sinkMethods : SinkValue η → Option (List JsString)
  | .handler _ => some GET_METHODS
  | _ => none

/-- `registerDef` on one registration after the other, up to the first that
throws. -/
def registerDefs [DecidableEq η] (host : Host) (middleware : MiddlewareStack η) :
    List (Registration η) → RouterState η → RouterState η × Except RouteError Unit
  | [], router => (router, .ok ())
  | r :: rs, router =>
      match registerDef host router r middleware with
      | (router, .error e) => (router, .error e)
      | (router, .ok _) => registerDefs host middleware rs router

/-- The end of `registerSink`, once the mirrors from position `firstDef` on are
registered. -/
def claimSink (path : JsString) (methods : Option (List JsString)) (firstDef : ℕ)
    (router : RouterState η) (st : SinkApp η) : SinkApp η :=
  let paths := (router.defs.drop firstDef).map RouteDef.path
  { st with
    app := { st.app with
      router := { router with
        sunkPaths := paths.foldl (fun sunk path => sunk.insert path) router.sunkPaths }
      nativeSinks := OrderedMap.set st.app.nativeSinks path methods }
    sunk := st.sunk ++ [⟨paths, (List.range router.defs.length).drop firstDef⟩] }

def registerSink [DecidableEq η] (host : Host) (noOpMeta : NoOpMeta η) (st : SinkApp η)
    (path : JsString) (value : SinkValue η) (hasErrorMapper : Bool) :
    SinkApp η × Except SinkError Unit :=
  match checkSink host noOpMeta st.app path value hasErrorMapper with
  | .error e => (st, .error e)
  | .ok () =>
      match registerDefs host st.app.middleware (mirrorsOf path value) st.app.router with
      | (router, .error e) => ({ st with app := { st.app with router } }, .error (.route e))
      | (router, .ok ()) =>
          (claimSink path (sinkMethods value) st.app.router.defs.length router st, .ok ())

end Keala.Core
