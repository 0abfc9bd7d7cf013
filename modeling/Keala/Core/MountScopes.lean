import Keala.Core.MountPaths
import Keala.Core.RouteScopes
import Keala.Router.ShapeAnswers

/-!
The middleware of a mounted application against the part of a request that the
mounts leave over. A wrapper skips as many segments as the mounts have, a
request may have fewer of them: an optional param of a mount can be left out.
-/

namespace Keala.Core

open Keala.Js Keala.Router

variable {η : Type} {host : Host}

/-! ### Rebased wrappers -/

def mountedMiddleware (host : Host) (stack : MiddlewareStack η) :
    List JsString → JsString → Except RouteError (List (RouteHandler η))
  | [], route => middlewareForRoute host stack route 0
  | mountPath :: mounts, route => do
      let ir ← compilePattern host (orRoot (mountBase mountPath))
      let handlers ← mountedMiddleware host stack mounts route
      pure (rebaseMountedMiddleware handlers ir.segments.length)

theorem rebase_layers (layers : List (MiddlewareLayer η)) (route : List CompiledSegment)
    (offset pathOffset : ℕ) :
    rebaseMountedMiddleware (layers.flatMap (layerForRoute route offset)) pathOffset =
      layers.flatMap (layerForRoute route (offset + pathOffset)) := by
  rw [rebaseMountedMiddleware, List.map_flatMap]
  congr 1
  funext layer
  rw [layerForRoute, layerForRoute]
  cases layer.scope with
  | none => rfl
  | some scope =>
      dsimp only
      cases routeRelation scope route <;> rfl

/-- The wrappers skip as many segments as the mounts have together. -/
theorem mountedMiddleware_eq {stack : MiddlewareStack η} {mounts : List JsString}
    {route path : JsString} {irR : PatternIR} (h : mountedPath host mounts route = .ok path)
    (hroute : compilePattern host route = .ok irR) :
    mountedMiddleware host stack mounts route =
      .ok (stack.layers.flatMap
        (layerForRoute irR.segments (prefixSegments host mounts).length)) := by
  induction mounts generalizing path with
  | nil => exact middlewareForRoute_eq hroute 0
  | cons mountPath mounts ih =>
      obtain ⟨below, irBase, -, hbelow, hbase, -, -⟩ := mountedPath_cons h
      rw [mountedMiddleware, hbase, ih hbelow]
      change Except.ok (rebaseMountedMiddleware _ _) = _
      rw [rebase_layers, prefixSegments, prefixSegments, List.flatMap_cons, mountSegments, hbase,
        List.length_append, Nat.add_comm]

/-! ### Routes that keep their scopes -/

/-- A static route has no wrappers. -/
theorem routeRelation_ne_conditional {scope : MiddlewareScope} {route : List CompiledSegment}
    (h : route.all CompiledSegment.isStatic = true) : routeRelation scope route ≠ .conditional := by
  have hprefix : ∀ {segments : List JsString} {rest : List CompiledSegment},
      rest.all CompiledSegment.isStatic = true →
      prefixRelation route segments rest ≠ .conditional := by
    intro segments rest hrest
    fun_induction prefixRelation route segments rest with
    | case1 => exact fun heq => Relation.noConfusion heq
    | case2 _ _ hany =>
        obtain ⟨segment, hsegment, hdynamic⟩ := List.any_eq_true.mp hany
        rw [List.all_eq_true.mp h segment hsegment] at hdynamic
        cases hdynamic
    | case3 => exact fun heq => Relation.noConfusion heq
    | case4 segment segments rest ih =>
        rw [List.all_cons, Bool.and_eq_true] at hrest
        exact ih hrest.2
    | case5 => exact fun heq => Relation.noConfusion heq
    | case6 _ _ segment rest hdynamic =>
        rw [List.all_cons, Bool.and_eq_true] at hrest
        cases segment with
        | static value => exact absurd rfl (hdynamic value)
        | param => cases hrest.1
        | wildcard => cases hrest.1
  rw [routeRelation]
  split
  · split
    · exact fun heq => Relation.noConfusion heq
    · exact fun heq => Relation.noConfusion heq
  · exact hprefix h

/-- The route reaches what the mounts leave, and they match what stands in front. -/
theorem reaches_remaining {mounts : List JsString} {route path request : JsString}
    {irR ir : PatternIR} {σ : List Edge} (h : mountedPath host mounts route = .ok path)
    (hroute : compilePattern host route = .ok irR) (hir : compilePattern host path = .ok ir)
    (hσ : σ ∈ shapesOf ir.segments) (hcap : capturesPath host request σ ≠ none) :
    Reaches irR.segments
        (remaining (σ.take (prefixSegments host mounts).length) (decodedSegments request)) ∧
      (irR.segments ≠ [] → ∃ front found,
        decodedSegments request = front ++
          remaining (σ.take (prefixSegments host mounts).length) (decodedSegments request) ∧
        Matches host false (prefixSegments host mounts) front found) := by
  have hlast := compilePattern_wildcardLast hir
  rw [mountedPath_segments h hroute hir] at hσ hlast
  obtain ⟨hτ, hυ⟩ := shapesOf_append hσ
  by_cases hne : irR.segments = []
  · refine ⟨?_, fun hsome => absurd hne hsome⟩
    rw [hne, List.append_nil] at hσ hlast
    rw [List.take_of_length_le (length_of_mem_shapesOf hσ).le,
      remaining_eq_nil (WildcardLast.ends hlast _ hσ) hcap, hne]
    exact .done
  · have hnone := hlast.not_mem hne
    have hwild := not_wildcard_of_mem_shapesOf hτ hnone
    rw [capturesPath, ← List.take_append_drop (prefixSegments host mounts).length σ] at hcap
    obtain ⟨hback, front, hfront, hahead⟩ := captures_append hwild hcap
    obtain ⟨found, hfound⟩ := Option.ne_none_iff_exists'.mp hback
    obtain ⟨taken, htaken⟩ := Option.ne_none_iff_exists'.mp hahead
    refine ⟨Matches.reaches ((matches_iff (hlast.behind) _ _).mpr ⟨_, hυ, hfound⟩),
      fun _ => ⟨front, taken, hfront, ?_⟩⟩
    exact (matches_iff (wildcardLast_of_not_mem hnone) _ _).mpr ⟨_, hτ, htaken⟩

def Unslashed (host : Host) (path : JsString) : Prop :=
  ∀ ir, compilePattern host path = .ok ir → ir.isStatic = true → normalizePath path = path

/-- The mounts take as many segments of every request as they have, unless they
take root routes alone. -/
def TakesAll (host : Host) (mounts : List JsString) : Prop :=
  (∀ segments found, Matches host false (prefixSegments host mounts) segments found →
    segments.length = (prefixSegments host mounts).length) ∨
  ∀ route path ir, mountedPath host mounts (definitionPath route) = .ok path →
    compilePattern host (definitionPath route) = .ok ir → ir.segments = []

/-- On every request of the mounted route the handlers that run are those whose
scopes the segments behind the mounts lie in. -/
def KeepsScopes (η : Type) (host : Host) (mounts : List JsString) (route path : JsString) : Prop :=
  ∀ calls : List (Option MiddlewareScope × List η),
    (∀ call ∈ calls, ∀ scope, call.1 = some scope → scope.Compiled host) →
    ∀ handlers, mountedMiddleware host (addAll calls) mounts (definitionPath route) = .ok handlers →
    ∀ request σ, AnswersBy host path request σ →
      effective (pathSegments request) handlers =
        selected (calls.flatMap layersOf)
          (remaining (σ.take (prefixSegments host mounts).length) (pathSegments request))

/-- Without a wrapper it does not matter how much of the request is skipped. -/
theorem runsOn_congr {route : List CompiledSegment} {pathOffset pathOffset' : ℕ}
    {segments segments' : List JsString} (layer : MiddlewareLayer η)
    (h : route.all CompiledSegment.isStatic = true ∨
      segments.drop pathOffset = segments'.drop pathOffset') :
    layer.runsOn route pathOffset segments = layer.runsOn route pathOffset' segments' := by
  rw [MiddlewareLayer.runsOn, MiddlewareLayer.runsOn]
  cases layer.scope with
  | none => rfl
  | some scope =>
      dsimp only
      cases hrelation : routeRelation scope route with
      | always => rfl
      | never => rfl
      | conditional =>
          rcases h with hstatic | hdrop
          · exact absurd hrelation (routeRelation_ne_conditional hstatic)
          · dsimp only
            rw [hdrop]

theorem keepsScopes_of_takesAll {mounts : List JsString} {route path : JsString}
    (htakes : TakesAll host mounts)
    (h : mountedPath host mounts (definitionPath route) = .ok path)
    (hslash : Unslashed host path) : KeepsScopes η host mounts route path := by
  intro calls hcalls handlers hhandlers request σ hanswers
  obtain ⟨⟨irR, hroute⟩, ir, hir⟩ := mountedPath_compiles h
  obtain ⟨hσ, hcap⟩ := captures_of_answersBy hir (hslash ir hir) hanswers
  obtain ⟨hreach, hfront⟩ := reaches_remaining h hroute hir hσ hcap
  rw [mountedMiddleware_eq h hroute] at hhandlers
  obtain rfl := Except.ok.inj hhandlers
  rw [effective_layers, selected, (addAll_spec calls).2]
  congr 1
  refine List.filter_congr fun layer hlayer => ?_
  change _ = layer.appliesTo (remaining _ (decodedSegments request))
  generalize hleft : remaining (σ.take (prefixSegments host mounts).length)
    (decodedSegments request) = left at hreach hfront ⊢
  have hsame : layer.runsOn irR.segments (prefixSegments host mounts).length
      (pathSegments request) = layer.runsOn irR.segments 0 left := by
    apply runsOn_congr
    by_cases hstatic : irR.segments.all CompiledSegment.isStatic = true
    · exact .inl hstatic
    · have hne : irR.segments ≠ [] := by
        intro hnil
        exact hstatic (hnil ▸ rfl)
      obtain ⟨front, found, hsegments, hmatch⟩ := hfront hne
      have hlength := htakes.resolve_right (fun hroot => hne (hroot route path irR h hroute))
        front found hmatch
      right
      change (decodedSegments request).drop _ = left
      rw [hsegments, ← hlength, List.drop_left]
  have hsegments : left.drop 0 = left ++ List.replicate 0 [] := (List.append_nil left).symm
  rw [hsame, Bool.eq_iff_iff]
  exact ⟨appliesTo_of_runsOn hreach hsegments (.inl rfl),
    runsOn_of_appliesTo (fun _ => compiled_of_mem hcalls hlayer) hreach hsegments⟩

/-! ### Routes that do not -/

/-- A single layer runs where its scope covers what is left. -/
theorem KeepsScopes.single [Inhabited η] {mounts : List JsString}
    {route path request : JsString} {irR : PatternIR} {σ : List Edge} {scope : MiddlewareScope}
    (hkeeps : KeepsScopes η host mounts route path)
    (h : mountedPath host mounts (definitionPath route) = .ok path)
    (hroute : compilePattern host (definitionPath route) = .ok irR)
    (hscope : scope.Compiled host) (hanswers : AnswersBy host path request σ) :
    MiddlewareLayer.runsOn irR.segments (prefixSegments host mounts).length
        (pathSegments request) (⟨some scope, default⟩ : MiddlewareLayer η) = true ↔
      scope.Covers
        (remaining (σ.take (prefixSegments host mounts).length) (pathSegments request)) := by
  have hcompiled : ∀ call ∈ [(some scope, [(default : η)])], ∀ other, call.1 = some other →
      other.Compiled host := by
    intro call hcall other hother
    rw [List.mem_singleton.mp hcall] at hother
    exact Option.some.inj hother ▸ hscope
  have hlayers : [(some scope, [(default : η)])].flatMap layersOf = [⟨some scope, default⟩] := rfl
  have heq := hkeeps _ hcompiled _ (mountedMiddleware_eq h hroute) request σ hanswers
  rw [effective_layers, (addAll_spec _).2, hlayers, selected] at heq
  have hlength := congrArg List.length heq
  rw [List.length_map, List.length_map, List.filter_singleton, List.filter_singleton,
    MiddlewareLayer.appliesTo] at hlength
  dsimp only at hlength
  generalize MiddlewareLayer.runsOn _ _ _ _ = runs at hlength ⊢
  cases runs with
  | false =>
      refine iff_of_false Bool.false_ne_true fun hcovers => ?_
      rw [decide_eq_true hcovers] at hlength
      exact Nat.zero_ne_one hlength
  | true =>
      refine iff_of_true rfl (by_contra fun hcovers => ?_)
      rw [decide_eq_false hcovers] at hlength
      exact Nat.one_ne_zero hlength

theorem scopeSegments_static (values : List JsString) :
    scopeSegments (values.map .static) = some (values, false) := by
  induction values with
  | nil => rfl
  | cons value values ih =>
      rw [List.map_cons, scopeSegments, ih]
      rfl

/-- A static route is a scope of its own. -/
theorem compiled_static {pattern : JsString} {ir : PatternIR} {values : List JsString}
    (hir : compilePattern host pattern = .ok ir) (hsegments : ir.segments = values.map .static) :
    MiddlewareScope.Compiled host ⟨pattern, values, false⟩ := by
  refine ⟨pattern, ?_⟩
  rw [compileMiddlewareScope, hir]
  dsimp only [bind, Except.bind]
  rw [hsegments, scopeSegments_static]
  rfl

/-- The scope of a route that kept a slash does not cover a request that the
route answers with an empty segment. -/
theorem unslashed_of_keepsScopes [Inhabited η] {mounts : List JsString} {route path : JsString}
    (h : mountedPath host mounts (definitionPath route) = .ok path)
    (hkeeps : KeepsScopes η host mounts route path) : Unslashed host path := by
  intro ir hir hstatic
  by_contra hkept
  obtain ⟨⟨irR, hroute⟩, -⟩ := mountedPath_compiles h
  have hkey := staticKey_concat_slash hkept
  obtain ⟨values, n, hvalues, hne, hdecoded⟩ := static_key_segments hir hstatic hkey
  have happend := (mountedPath_segments h hroute hir).symm.trans hvalues
  obtain ⟨front, own, rfl, hfront, hown⟩ := List.append_eq_map_iff.mp happend
  have hlength : front.length = (prefixSegments host mounts).length := by
    rw [← hfront, List.length_map]
  have hanswers : AnswersBy host path (path ++ [slash]) ((front ++ own).map .static) := by
    refine ⟨ir, hir, .inr ⟨hstatic, hkey, ?_⟩⟩
    rw [hvalues, shapesOf_static]
    exact List.mem_singleton_self _
  have hcovers := (hkeeps.single h hroute (compiled_static hroute hown.symm) hanswers).mp (by
    simp [MiddlewareLayer.runsOn, routeRelation, hown])
  rw [MiddlewareScope.Covers, if_neg Bool.false_ne_true] at hcovers
  change own = remaining _ (decodedSegments (path ++ [slash])) at hcovers
  rw [List.map_append, ← hlength, List.take_append_of_le_length (by rw [List.length_map]),
    List.take_of_length_le (by rw [List.length_map]), remaining_static, hdecoded,
    List.append_assoc, List.drop_left] at hcovers
  have hblank : [] ∈ decodedSegments (path ++ [slash]) := blank_mem_concat_slash hir hkept
  rw [hdecoded, List.self_eq_append_right.mp hcovers, List.append_nil] at hblank
  exact hne hblank

/-- A route below the mounts, with a param that any text is taken for. -/
theorem compilePattern_section (host : Host) :
    compilePattern host (js "/:section/x") =
      .ok ⟨[.param (js "section") none false, .static (js "x")], false, false⟩ := rfl

theorem compiled_admin (host : Host) :
    MiddlewareScope.Compiled host ⟨js "/admin/*", [js "admin"], true⟩ := ⟨js "/admin/*", rfl⟩

/-- Where the mounts can take fewer segments than they have, a scope below them
is compared with the wrong ones. -/
theorem takesAll_of_keepsScopes [Inhabited η] {mounts : List JsString}
    (hkeeps : ∀ route path, mountedPath host mounts (definitionPath route) = .ok path →
      Unslashed host path → KeepsScopes η host mounts route path) : TakesAll host mounts := by
  by_contra hnot
  rw [TakesAll, not_or] at hnot
  simp only [not_forall] at hnot
  obtain ⟨⟨segments, found, hmatch, hlength⟩, route, path, irR, h, hroute, hne⟩ := hnot
  obtain ⟨-, ir, hir⟩ := mountedPath_compiles h
  have hnone : .wildcard ∉ prefixSegments host mounts := by
    have hlast := compilePattern_wildcardLast hir
    rw [mountedPath_segments h hroute hir] at hlast
    exact hlast.not_mem hne
  have hshort := lt_of_le_of_ne (hmatch.length_le hnone) hlength
  obtain ⟨mounted, hmounted, -⟩ := mountedPath_accepts h hroute hne (compilePattern_section host)
    (by decide) (by decide)
  obtain ⟨-, irM, hirM⟩ := mountedPath_compiles hmounted
  have happend := mountedPath_segments hmounted (compilePattern_section host) hirM
  have hlast := compilePattern_wildcardLast hirM
  -- The request has what the mounts can do with, "admin" and "x".
  obtain ⟨request, hrequest, htrailing⟩ := exists_request (segments ++ [js "admin"])
    (by decide : js "x" ≠ [])
  rw [List.append_assoc] at hrequest
  have hown : Matches host false [.param (js "section") none false, .static (js "x")]
      [js "admin", js "x"] [(js "section", js "admin")] :=
    .consume (by decide) rfl (.static .done)
  have hwhole := hmatch.append hnone hown
  rw [← happend] at hwhole
  obtain ⟨τ, hτ, hcap⟩ := (matches_iff hlast _ _).mp hwhole
  have hpath : (capturesPath host request τ).isSome = true := by
    rw [capturesPath, htrailing, hrequest]
    exact Option.isSome_of_eq_some hcap
  have hfound : ((shapesOf irM.segments).find?
      fun τ => (capturesPath host request τ).isSome).isSome = true := by
    rw [List.find?_isSome]
    exact ⟨τ, hτ, hpath⟩
  obtain ⟨σ, hσ⟩ := Option.isSome_iff_exists.mp hfound
  have hleft : remaining (σ.take (prefixSegments host mounts).length)
      (decodedSegments request) = [js "admin", js "x"] := by
    have hmem := List.mem_of_find?_eq_some hσ
    have hsome := List.find?_some hσ
    have hcaptures : capturesPath host request σ ≠ none := Option.isSome_iff_ne_none.mp hsome
    rw [happend] at hmem
    obtain ⟨hfront, hback⟩ := shapesOf_append hmem
    rw [capturesPath, ← List.take_append_drop (prefixSegments host mounts).length σ] at hcaptures
    obtain ⟨hbehind, front, hsegments, -⟩ :=
      captures_append (not_wildcard_of_mem_shapesOf hfront hnone) hcaptures
    rw [List.mem_singleton.mp hback] at hbehind
    have htwo := length_of_section hbehind
    have hsplit := hrequest.symm.trans hsegments
    exact (List.append_inj' hsplit htwo.symm).2.symm
  have hanswers : AnswersBy host mounted request σ := ⟨irM, hirM, .inl hσ⟩
  have hsection : definitionPath (js "/:section/x") = js "/:section/x" := by decide
  have hcompiled := compilePattern_section host
  rw [← hsection] at hmounted hcompiled
  have hdynamic : Unslashed host mounted := by
    intro irM' hirM' hstatic
    obtain rfl := Except.ok.inj (hirM.symm.trans hirM')
    rw [(compilePattern_parts hirM).2.2, happend, List.all_append, Bool.and_eq_true] at hstatic
    cases hstatic.2
  have hruns := (KeepsScopes.single (hkeeps _ _ hmounted hdynamic) hmounted hcompiled
    (compiled_admin host) hanswers).mpr (by
      change MiddlewareScope.Covers _ (remaining _ (decodedSegments request))
      rw [hleft]
      decide)
  change scopeMatchesSegments _ ((decodedSegments request).drop _) = true at hruns
  obtain ⟨k, hk⟩ := Nat.exists_eq_add_of_lt hshort
  rw [hrequest, hk, Nat.add_assoc, List.drop_length_add_append] at hruns
  -- "admin" is dropped with the segments of the mounts.
  cases k with
  | zero => exact absurd hruns (by decide)
  | succ k =>
      rw [List.drop_eq_nil_of_le (Nat.le_add_left 2 k)] at hruns
      exact absurd hruns (by decide)

/-- A mount keeps the scopes of every route without a slash at its end exactly
when it takes as many segments as it has, and of no other route. -/
theorem mounted_scopes_iff [Inhabited η] (host : Host) (mounts : List JsString) :
    (TakesAll host mounts ↔
      ∀ route path, mountedPath host mounts (definitionPath route) = .ok path →
        Unslashed host path → KeepsScopes η host mounts route path) ∧
    ∀ route path, mountedPath host mounts (definitionPath route) = .ok path →
      ¬Unslashed host path → ¬KeepsScopes η host mounts route path := by
  refine ⟨⟨fun htakes route path => keepsScopes_of_takesAll htakes, takesAll_of_keepsScopes⟩, ?_⟩
  exact fun route path h => mt (unslashed_of_keepsScopes h)

def guardScope : MiddlewareScope := ⟨js "/admin/*", [js "admin"], true⟩

def guardCalls : List (Option MiddlewareScope × List ℕ) := [(some guardScope, [1])]

def guardedApplication : Mountable ℕ :=
  .application
    ((registerDef digitsHost (createRouterState [])
      ⟨js "GET", js "/:section/x", [.user 0], none, []⟩ (addAll guardCalls)).1.defs.map (⟨·, none⟩))
    [] (addAll guardCalls) []

def guardMounted : SinkApp ℕ × Except MountError Unit :=
  mountInto digitsHost (createSinkApp false) false (js "/:lang?") guardedApplication

def guardedMatch : Option RouteMatch :=
  (matchRoute digitsHost guardMounted.1.app.router.index (js "/admin/x")).toOption.bind Prod.snd

/-- No segment of "/admin/x" is the language, and the guard is passed by. -/
theorem mountInto_skips_guard :
    guardMounted.2 = .ok () ∧
      guardedMatch.map (fun found => (found.params (js "lang"), found.params (js "section"))) =
        some (none, some (js "admin")) ∧
      guardedMatch.map (fun found => (guardMounted.1.app.router.targets found.target).methods) =
        some [(js "GET", .composed ⟨[.conditional guardScope 1 1, .user 0]⟩)] ∧
      effective (pathSegments (js "/admin/x")) [.conditional guardScope 1 1, .user 0] = [0] ∧
      selected (guardCalls.flatMap layersOf) (pathSegments (js "/admin/x")) = [1] := by
  decide +kernel

end Keala.Core
