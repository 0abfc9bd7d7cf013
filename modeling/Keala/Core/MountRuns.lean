import Keala.Core.MountScopes
import Keala.Core.SinkGuard

/-!
What `mount` registers: the path of a mounted route and its wrappers, mount
after mount, and the shape that the matcher answers it by.
-/

namespace Keala.Core

open Keala.Js Keala.Router

variable {η : Type} {host : Host}

/-- A definition made of a route by the mounts carries the middleware of its
application. -/
structure Carries (host : Host) (stack : MiddlewareStack η) (mounts : List JsString)
    (route : JsString) (d : RouteDef η) : Prop where
  path : mountedPath host mounts (definitionPath route) = .ok d.path
  handlers : ∃ handlers, mountedMiddleware host stack mounts (definitionPath route) = .ok handlers ∧
    handlers <:+: d.prefixMiddleware

theorem checkedDef_prefixMiddleware {state : RouterState η} {r : Registration η} {d : RouteDef η}
    (h : checkedDef host state r = .ok d) : d.prefixMiddleware = r.prefixMiddleware := by
  rw [checkedDef] at h
  dsimp only at h
  split at h
  · cases h
  · split at h
    · cases h
    · split at h
      · cases h
      · cases h
        rfl

variable [DecidableEq η]

/-- A definition that is registered compiles. -/
theorem registerDef_ok {state next : RouterState η} {r : Registration η}
    {middleware : MiddlewareStack η} {d : RouteDef η} (hbare : state.routerPrefix = [])
    (h : registerDef host state r middleware = (next, .ok d)) :
    next.defs = state.defs ++ [d] ∧ d.path = definitionPath r.path ∧
      d.prefixMiddleware = r.prefixMiddleware ∧ ∃ ir, compilePattern host d.path = .ok ir := by
  rw [registerDef] at h
  cases hcheck : checkedDef host state r with
  | error e =>
      rw [hcheck] at h
      cases h
  | ok checked =>
      rw [hcheck] at h
      dsimp only at h
      cases hbound : bindDef host (pushDef state checked) checked middleware with
      | mk bound result =>
          rw [hbound] at h
          cases result with
          | error e =>
              dsimp only at h
              split at h <;> cases h
          | ok _ =>
              cases h
              have hframe := bindDef_framed host (pushDef state d) d middleware
              have hcompiled : ∃ ir, compilePattern host d.path = .ok ir := by
                rw [bindDef_eq] at hbound
                cases hir : compilePattern host d.path with
                | error e =>
                    rw [hir] at hbound
                    cases hbound
                | ok ir => exact ⟨ir, rfl⟩
              rw [hbound] at hframe
              exact ⟨hframe.defs, (checkedDef_ok hcheck hbare).1,
                checkedDef_prefixMiddleware hcheck, hcompiled⟩

theorem addDef_ok {st next : SinkApp η} {r : Registration η}
    (hbare : st.app.router.routerPrefix = []) (h : addDef host r st = (next, .ok ())) :
    ∃ d ir, next.app.router.defs = st.app.router.defs ++ [d] ∧ d.path = definitionPath r.path ∧
      d.prefixMiddleware = r.prefixMiddleware ∧ compilePattern host d.path = .ok ir := by
  rw [addDef] at h
  split at h
  · cases h
  · next router d hregister =>
      cases h
      obtain ⟨hdefs, hpath, hcarried, ir, hir⟩ := registerDef_ok hbare hregister
      exact ⟨d, ir, hdefs, hpath, hcarried, hir⟩

omit [DecidableEq η] in
theorem claimKey_ok {key : JsString} {result : SinkApp η × Except MountError Unit}
    {next : SinkApp η} (h : claimKey key result = (next, .ok ())) :
    ∃ st, result = (st, .ok ()) ∧ next.app = st.app := by
  obtain ⟨st, status⟩ := result
  cases status with
  | error e => cases h
  | ok _ =>
      cases h
      exact ⟨st, rfl, rfl⟩

/-- A round of `mount` registers the definition below the mount path, with the
wrappers that it had moved by the mount and those of its application. -/
theorem mountDef_ok {st next : SinkApp η} {poolingEnabled : Bool} {base : JsString}
    {mountOffset : ℕ} {sub : Mountable η} {d : SubDef η}
    (hbare : st.app.router.routerPrefix = [])
    (h : mountDef host poolingEnabled base mountOffset sub d st = (next, .ok ())) :
    ∃ mounted ir subMiddleware, next.app.router.defs = st.app.router.defs ++ [mounted] ∧
      sub.middlewareFor host d.routeDef.path mountOffset = .ok subMiddleware ∧
      mounted.path = definitionPath (orRoot (base ++ d.routeDef.path)) ∧
      mounted.prefixMiddleware =
        rebaseMountedMiddleware d.routeDef.prefixMiddleware mountOffset ++ subMiddleware ∧
      compilePattern host mounted.path = .ok ir := by
  rw [mountDef] at h
  dsimp only at h
  cases hsub : sub.middlewareFor host d.routeDef.path mountOffset with
  | error e =>
      rw [hsub] at h
      cases h
  | ok subMiddleware =>
      rw [hsub] at h
      dsimp only at h
      cases hkey : d.wsKey with
      | none =>
          rw [hkey] at h
          obtain ⟨mounted, ir, hdefs, hpath, hcarried, hir⟩ := addDef_ok hbare h
          exact ⟨mounted, ir, subMiddleware, hdefs, rfl, hpath, hcarried, hir⟩
      | some key =>
          rw [hkey] at h
          dsimp only at h
          split at h
          · cases h
          · rw [mergeMountedWs] at h
            split at h
            · cases h
            · dsimp only at h
              split at h
              · cases h
              · obtain ⟨st', hadd, happ⟩ := claimKey_ok h
                obtain ⟨mounted, ir, hdefs, hpath, hcarried, hir⟩ := addDef_ok hbare hadd
                rw [← happ] at hdefs
                exact ⟨mounted, ir, subMiddleware, hdefs, rfl, hpath, hcarried, hir⟩

section
variable {st next : SinkApp η} {poolingEnabled : Bool} {mountPath route : JsString}
  {stack : MiddlewareStack η} {irBase : PatternIR} {d : SubDef η}

theorem mountedPath_mountDef {mounts : List JsString} {path mounted : JsString} {ir : PatternIR}
    (h : mountedPath host mounts (definitionPath route) = .ok path)
    (hbase : compilePattern host (orRoot (mountBase mountPath)) = .ok irBase)
    (hmounted : mounted = definitionPath (orRoot (mountBase mountPath ++ path)))
    (hir : compilePattern host mounted = .ok ir) :
    mountedPath host (mountPath :: mounts) (definitionPath route) = .ok mounted := by
  subst hmounted
  rw [mountedPath, h]
  change (do
    let _ ← compilePattern host (orRoot (mountBase mountPath))
    let _ ← compilePattern host (definitionPath (orRoot (mountBase mountPath ++ path)))
    pure (definitionPath (orRoot (mountBase mountPath ++ path)))) = _
  rw [hbase]
  change (do
    let _ ← compilePattern host (definitionPath (orRoot (mountBase mountPath ++ path)))
    pure (definitionPath (orRoot (mountBase mountPath ++ path)))) = _
  rw [hir]
  rfl

/-- The routes of a mounted application carry its middleware. -/
theorem mountDef_carries_own {defs : List (SubDef η)}
    {params : List (JsString × RouteHandler η)} {wsRoutes : List (JsString × SocketHandlers η)}
    (hbare : st.app.router.routerPrefix = [])
    (hbase : compilePattern host (orRoot (mountBase mountPath)) = .ok irBase)
    (hpath : mountedPath host [] (definitionPath route) = .ok d.routeDef.path)
    (h : mountDef host poolingEnabled (mountBase mountPath) irBase.segments.length
      (.application defs params stack wsRoutes) d st = (next, .ok ())) :
    ∃ mounted, next.app.router.defs = st.app.router.defs ++ [mounted] ∧
      Carries host stack [mountPath] route mounted := by
  obtain ⟨mounted, ir, own, hdefs, hown, hmounted, hcarried, hir⟩ := mountDef_ok hbare h
  have hmountedPath := mountedPath_mountDef hpath hbase hmounted hir
  obtain ⟨⟨irR, hroute⟩, -⟩ := mountedPath_compiles hpath
  obtain ⟨_, -, hsame⟩ := Except.ok_of_bind hpath
  have hlength : (prefixSegments host [mountPath]).length = irBase.segments.length := by
    rw [prefixSegments, List.flatMap_singleton, mountSegments, hbase]
  refine ⟨mounted, hdefs, hmountedPath, own, ?_, ?_⟩
  · change middlewareForRoute host stack d.routeDef.path _ = _ at hown
    rw [← Except.ok.inj hsame, middlewareForRoute_eq hroute] at hown
    rw [mountedMiddleware_eq hmountedPath hroute, hlength]
    exact hown
  · rw [hcarried]
    exact (List.suffix_append _ _).isInfix

/-- What a definition carries it carries through a further mount. -/
theorem Carries.mountDef {sub : Mountable η} {mounts : List JsString}
    (hcarries : Carries host stack mounts route d.routeDef)
    (hbare : st.app.router.routerPrefix = [])
    (hbase : compilePattern host (orRoot (mountBase mountPath)) = .ok irBase)
    (h : Core.mountDef host poolingEnabled (mountBase mountPath) irBase.segments.length sub d st =
      (next, .ok ())) :
    ∃ mounted, next.app.router.defs = st.app.router.defs ++ [mounted] ∧
      Carries host stack (mountPath :: mounts) route mounted := by
  obtain ⟨mounted, ir, own, hdefs, -, hmounted, hcarried, hir⟩ := mountDef_ok hbare h
  obtain ⟨handlers, hhandlers, hwithin⟩ := hcarries.handlers
  refine ⟨mounted, hdefs, mountedPath_mountDef hcarries.path hbase hmounted hir,
    rebaseMountedMiddleware handlers irBase.segments.length, ?_, ?_⟩
  · rw [mountedMiddleware, hbase, hhandlers]
    rfl
  · rw [hcarried, rebaseMountedMiddleware, rebaseMountedMiddleware]
    exact (hwithin.map _).trans (List.prefix_append _ _).isInfix

end

end Keala.Core
