import Keala.Core.FallbackChains
import Keala.Lib.Except
import Keala.Router.Overlap

/-!
The middleware that is chosen for a route when it is registered against the
scopes of the requests that the route answers.
-/

namespace Keala.Core

open Keala.Js Keala.Router

variable {η : Type}

/-! ### The choice from the pattern -/

def MiddlewareScope.Compiled (host : Host) (scope : MiddlewareScope) : Prop :=
  ∃ pattern, compileMiddlewareScope host pattern = .ok scope

theorem mem_of_scopeSegments {route : List CompiledSegment} {segments : List JsString}
    {isPrefix : Bool} (h : scopeSegments route = some (segments, isPrefix)) :
    ∀ value ∈ segments, CompiledSegment.static value ∈ route := by
  fun_induction scopeSegments route generalizing segments isPrefix with
  | case1 =>
      cases h
      exact fun _ hvalue => absurd hvalue List.not_mem_nil
  | case2 value rest ih =>
      obtain ⟨⟨front, flag⟩, hrest, heq⟩ := Option.map_eq_some_iff.mp h
      cases heq
      intro other hother
      rcases List.mem_cons.mp hother with rfl | hmem
      · exact List.mem_cons_self
      · exact List.mem_cons_of_mem _ (ih hrest other hmem)
  | case3 =>
      cases h
      exact fun _ hvalue => absurd hvalue List.not_mem_nil
  | case4 => cases h

/-- No segment of a scope is empty. -/
theorem MiddlewareScope.Compiled.ne_nil {host : Host} {scope : MiddlewareScope}
    (h : scope.Compiled host) : [] ∉ scope.segments := by
  obtain ⟨pattern, hpattern⟩ := h
  rw [compileMiddlewareScope] at hpattern
  obtain ⟨ir, hir, hscope⟩ := Except.ok_of_bind hpattern
  cases hsegments : scopeSegments ir.segments with
  | none =>
      rw [hsegments] at hscope
      cases hscope
  | some found =>
      rw [hsegments] at hscope
      cases hscope
      intro hmem
      exact compileParts_static_ne_nil (compilePattern_parts hir).2.1
        (mem_of_scopeSegments hsegments [] hmem)

theorem reaches_all_static {route : List CompiledSegment} {reached : List JsString}
    (h : Reaches route reached) (hstatic : route.all CompiledSegment.isStatic = true) :
    route = reached.map .static := by
  induction h with
  | done => rfl
  | static _ ih =>
      rw [List.all_cons, Bool.and_eq_true] at hstatic
      rw [List.map_cons, ← ih hstatic.2]
  | consume => cases hstatic
  | skip => cases hstatic
  | wildcard => cases hstatic

theorem prefixRelation_spec {route pattern : List CompiledSegment} {scope reached : List JsString}
    (h : Reaches pattern reached) :
    (prefixRelation route scope pattern = .always → scope <+: reached) ∧
      (prefixRelation route scope pattern = .never → ¬scope <+: reached) := by
  fun_induction prefixRelation route scope pattern generalizing reached with
  | case1 => exact ⟨fun _ => List.nil_prefix, fun hnever => Relation.noConfusion hnever⟩
  | case2 =>
      exact ⟨fun halways => Relation.noConfusion halways, fun hnever => Relation.noConfusion hnever⟩
  | case3 =>
      cases h
      refine ⟨fun halways => Relation.noConfusion halways, fun _ hpre => ?_⟩
      cases List.prefix_nil.mp hpre
  | case4 scope segment rest ih =>
      cases h with
      | static hrest =>
          rw [List.cons_prefix_cons]
          simpa using ih hrest
  | case5 segment scope value rest hne =>
      cases h with
      | static hrest =>
          refine ⟨fun halways => Relation.noConfusion halways, fun _ hpre => ?_⟩
          exact hne (List.cons_prefix_cons.mp hpre).1.symm
  | case6 =>
      exact ⟨fun halways => Relation.noConfusion halways, fun hnever => Relation.noConfusion hnever⟩

/-- Empty segments behind those reached change nothing for a scope without any. -/
theorem prefix_append_replicate {scope reached : List JsString} (hne : [] ∉ scope) (n : ℕ) :
    scope <+: reached ++ List.replicate n [] ↔ scope <+: reached := by
  constructor
  · rintro ⟨rest, h⟩
    rcases List.append_eq_append_iff.mp h with ⟨more, rfl, -⟩ | ⟨more, rfl, hmore⟩
    · exact List.prefix_append _ _
    · have hnil : more = [] := by
        cases more with
        | nil => rfl
        | cons segment more =>
            have hmem : segment ∈ List.replicate n [] := hmore ▸ List.mem_cons_self
            have hblank := List.eq_of_mem_replicate hmem
            exact absurd (List.mem_append_right _ (hblank ▸ List.mem_cons_self)) hne
      rw [hnil, List.append_nil]
  · exact fun h => h.trans (List.prefix_append _ _)

/-- A layer that always runs covers the request, an exact one if no empty
segment is left. -/
theorem covers_of_always {scope : MiddlewareScope} {route : List CompiledSegment}
    {reached : List JsString} (hreach : Reaches route reached)
    (h : routeRelation scope route = .always) {n : ℕ} (hn : scope.isPrefix = false → n = 0) :
    scope.Covers (reached ++ List.replicate n []) := by
  rw [routeRelation] at h
  rw [MiddlewareScope.Covers]
  split at h
  · next hexact =>
      split at h
      · next hroute =>
          have hstatic : route.all CompiledSegment.isStatic = true := by
            rw [hroute, List.all_map]
            exact List.all_eq_true.mpr fun _ _ => rfl
          have hreached := reaches_all_static hreach hstatic
          rw [hroute] at hreached
          rw [if_neg (by simp [hexact]), hn hexact, List.replicate_zero, List.append_nil]
          exact List.map_injective_iff.mpr (fun _ _ h => CompiledSegment.static.inj h) hreached
      · split at h <;> cases h
  · next hprefix =>
      rw [if_pos (by simpa using hprefix)]
      exact ((prefixRelation_spec hreach).1 h).trans (List.prefix_append _ _)

theorem not_covers_of_never {host : Host} {scope : MiddlewareScope} (hscope : scope.Compiled host)
    {route : List CompiledSegment} {reached : List JsString} (hreach : Reaches route reached)
    (h : routeRelation scope route = .never) (n : ℕ) :
    ¬scope.Covers (reached ++ List.replicate n []) := by
  rw [routeRelation] at h
  rw [MiddlewareScope.Covers]
  split at h
  · next hexact =>
      rw [if_neg (by simp [hexact])]
      split at h
      · cases h
      · next hroute =>
          split at h
          · next hstatic =>
              intro hsegments
              have hn : n = 0 := by
                by_contra hn
                apply hscope.ne_nil
                rw [hsegments]
                exact List.mem_append_right _ (List.mem_replicate.mpr ⟨hn, rfl⟩)
              rw [hn, List.replicate_zero, List.append_nil] at hsegments
              exact hroute (hsegments ▸ reaches_all_static hreach hstatic)
          · cases h
  · next hprefix =>
      rw [if_pos (by simpa using hprefix), prefix_append_replicate hscope.ne_nil]
      exact (prefixRelation_spec hreach).2 h

/-! ### The handlers that run -/

def MiddlewareLayer.runsOn (route : List CompiledSegment) (pathOffset : ℕ)
    (segments : List JsString) (layer : MiddlewareLayer η) : Bool :=
  match layer.scope with
  | none => true
  | some scope =>
      match routeRelation scope route with
      | .always => true
      | .never => false
      | .conditional => scopeMatchesSegments scope (segments.drop pathOffset)

theorem effective_layers (route : List CompiledSegment) (pathOffset : ℕ)
    (segments : List JsString) (layers : List (MiddlewareLayer η)) :
    effective segments (layers.flatMap (layerForRoute route pathOffset)) =
      (layers.filter (MiddlewareLayer.runsOn route pathOffset segments)).map
        MiddlewareLayer.handler := by
  induction layers with
  | nil => rfl
  | cons layer layers ih =>
      have hstep : effective segments (layerForRoute route pathOffset layer) =
          if layer.runsOn route pathOffset segments then [layer.handler] else [] := by
        rw [layerForRoute, MiddlewareLayer.runsOn]
        cases layer.scope with
        | none => rfl
        | some scope =>
            cases hrelation : routeRelation scope route with
            | always => simp [hrelation, effective]
            | never => simp [hrelation, effective]
            | conditional =>
                cases hmatch : scopeMatchesSegments scope (segments.drop pathOffset) with
                | false => simp [hrelation, effective, hmatch]
                | true => simp [hrelation, effective, hmatch]
      rw [effective] at ih hstep ⊢
      rw [List.flatMap_cons, List.filterMap_append, ih, hstep, List.filter_cons]
      split
      · rfl
      · rfl

theorem filter_map_eq_iff {α β : Type} {p q : α → Bool} {l : List α} (f : α → β)
    (h : ∀ a ∈ l, p a = true → q a = true) :
    (l.filter q).map f = (l.filter p).map f ↔ ∀ a ∈ l, q a = true → p a = true := by
  constructor
  · intro heq
    have hlength := congrArg List.length heq
    rw [List.length_map, List.length_map] at hlength
    have hwithin : (l.filter q).filter p = l.filter p := by
      rw [List.filter_filter]
      refine List.filter_congr fun a ha => ?_
      rw [Bool.and_eq_left_iff_imp]
      exact h a ha
    rw [← hwithin, eq_comm, List.length_filter_eq_length_iff] at hlength
    exact fun a ha hq => hlength a (List.mem_filter.mpr ⟨ha, hq⟩)
  · intro hback
    congr 1
    exact List.filter_congr fun a ha => Bool.eq_iff_iff.mpr ⟨hback a ha, h a ha⟩

/-! ### The requests of a route -/

/-- A request has the segments that its route reaches, and empty ones behind
them only if the route was registered with a slash at its end. -/
theorem reached_of_answers {host : Host} {pattern path : JsString} {ir : PatternIR}
    (hir : compilePattern host pattern = .ok ir) (h : Answers host pattern path) :
    ∃ reached n, Reaches ir.segments reached ∧
      decodedSegments path = reached ++ List.replicate n [] ∧
      (normalizePath pattern = pattern → n = 0) := by
  obtain ⟨ir', hir', hmatch⟩ := h
  obtain rfl : ir = ir' := Except.ok.inj (hir.symm.trans hir')
  rcases hmatch with ⟨found, hmatch⟩ | ⟨hstatic, hkey⟩
  · exact ⟨_, 0, hmatch.reaches, (List.append_nil _).symm, fun _ => rfl⟩
  · obtain ⟨values, n, hsegments, -, hpath⟩ := static_key_segments hir hstatic hkey
    refine ⟨values, n, hsegments ▸ reaches_static values, hpath, fun hnormal => ?_⟩
    obtain ⟨hroot, hparts, hall⟩ := compilePattern_parts hir
    have hown := compileParts_static hparts (hall ▸ hstatic)
    have hvalues : values = decodedSegments pattern :=
      List.map_injective_iff.mpr (fun _ _ h => CompiledSegment.static.inj h)
        (hsegments.symm.trans hown)
    have hlength := congrArg List.length
      (hpath.symm.trans (decodedSegments_of_key hroot hnormal hkey))
    rw [hvalues, List.length_append, List.length_replicate] at hlength
    omega

/-- A static route that kept a slash at its end is looked up by a request with
one more, which has an empty segment. -/
theorem staticKey_concat_slash {pattern : JsString} (hkept : normalizePath pattern ≠ pattern) :
    staticKey pattern ∈ staticKeys (pattern ++ [slash]) := by
  rw [staticKeys, normalizePath_concat_slash hkept, staticKey]
  split <;> simp

theorem blank_mem_concat_slash {host : Host} {pattern : JsString} {ir : PatternIR}
    (hir : compilePattern host pattern = .ok ir) (hkept : normalizePath pattern ≠ pattern) :
    [] ∈ pathSegments (pattern ++ [slash]) := by
  have hstripped := normalizePath_concat_slash hkept
  rw [Ne, normalizePath_eq_self_iff, not_not] at hkept
  obtain ⟨hlength, hlast⟩ := hkept
  have hroot := (compilePattern_parts hir).1
  obtain ⟨front, rfl⟩ := List.getLast?_eq_some_iff.mp hlast
  have hfront : front.head? = some slash := by
    cases front with
    | nil => exact absurd hlength (Nat.lt_irrefl 1)
    | cons c front => exact hroot
  obtain ⟨tail, hne, htail⟩ := rawSegments_of_rooted hfront
  change [] ∈ decodedSegments _
  rw [decodedSegments_eq, hstripped, rawSegments_concat_slash, htail, List.cons_append,
    List.tail_cons, if_neg]
  · exact List.mem_append_right _ List.mem_cons_self
  · intro heq
    exact hne (List.append_inj' (heq.trans (List.nil_append _).symm) rfl).1

/-! ### Scopes at registration and at request time -/

def Unscoped (layers : List (MiddlewareLayer η)) (route : List CompiledSegment) : Prop :=
  ∀ layer ∈ layers, ∀ scope, layer.scope = some scope → scope.isPrefix = false →
    route ≠ scope.segments.map .static

section
variable {host : Host} {layer : MiddlewareLayer η} {segments reached : List JsString}
  {route : List CompiledSegment} {pathOffset n : ℕ}

/-- No layer is left out. -/
theorem runsOn_of_appliesTo (hscope : ∀ scope, layer.scope = some scope → scope.Compiled host)
    (hreach : Reaches route reached)
    (hsegments : segments.drop pathOffset = reached ++ List.replicate n [])
    (h : layer.appliesTo (segments.drop pathOffset) = true) :
    layer.runsOn route pathOffset segments = true := by
  rw [MiddlewareLayer.appliesTo] at h
  rw [MiddlewareLayer.runsOn]
  cases hlayer : layer.scope with
  | none => rfl
  | some scope =>
      rw [hlayer, decide_eq_true_iff] at h
      dsimp only
      cases hrelation : routeRelation scope route with
      | always => rfl
      | never =>
          rw [hsegments] at h
          exact absurd h (not_covers_of_never (hscope scope hlayer) hreach hrelation n)
      | conditional => exact (scopeMatchesSegments_iff _ _).mpr h

theorem appliesTo_of_runsOn (hreach : Reaches route reached)
    (hsegments : segments.drop pathOffset = reached ++ List.replicate n [])
    (hn : n = 0 ∨ Unscoped [layer] route) (h : layer.runsOn route pathOffset segments = true) :
    layer.appliesTo (segments.drop pathOffset) = true := by
  rw [MiddlewareLayer.runsOn] at h
  rw [MiddlewareLayer.appliesTo]
  cases hlayer : layer.scope with
  | none => rfl
  | some scope =>
      rw [hlayer] at h
      dsimp only at h ⊢
      apply decide_eq_true
      cases hrelation : routeRelation scope route with
      | always =>
          rw [hsegments]
          refine covers_of_always hreach hrelation fun hexact => hn.resolve_right ?_
          intro hunscoped
          apply hunscoped layer List.mem_cons_self scope hlayer hexact
          rw [routeRelation, if_pos hexact] at hrelation
          split at hrelation
          · assumption
          · split at hrelation <;> cases hrelation
      | never =>
          rw [hrelation] at h
          cases h
      | conditional =>
          rw [hrelation] at h
          exact (scopeMatchesSegments_iff _ _).mp h

end

theorem middlewareForRoute_eq {host : Host} {stack : MiddlewareStack η} {pattern : JsString}
    {ir : PatternIR} (hir : compilePattern host pattern = .ok ir) (pathOffset : ℕ) :
    middlewareForRoute host stack pattern pathOffset =
      .ok (stack.layers.flatMap (layerForRoute ir.segments pathOffset)) := by
  rw [middlewareForRoute, hir]
  rfl

theorem compiled_of_mem {host : Host} {calls : List (Option MiddlewareScope × List η)}
    (hcalls : ∀ call ∈ calls, ∀ scope, call.1 = some scope → scope.Compiled host)
    {layer : MiddlewareLayer η} (h : layer ∈ calls.flatMap layersOf) {scope : MiddlewareScope}
    (hscope : layer.scope = some scope) : scope.Compiled host := by
  obtain ⟨call, hcall, hlayer⟩ := List.mem_flatMap.mp h
  obtain ⟨handler, -, rfl⟩ := List.mem_map.mp hlayer
  exact hcalls call hcall scope hscope

/-- On every request that a route answers the layers chosen for its pattern are
those whose scopes the request lies in, unless the route kept a slash at its
end and a scope is its path alone. -/
theorem middlewareForRoute_selects_iff {host : Host}
    {calls : List (Option MiddlewareScope × List η)}
    (hcalls : ∀ call ∈ calls, ∀ scope, call.1 = some scope → scope.Compiled host)
    {pattern : JsString} {ir : PatternIR} (hir : compilePattern host pattern = .ok ir) :
    (∀ path, Answers host pattern path → ∃ handlers,
      middlewareForRoute host (addAll calls) pattern 0 = .ok handlers ∧
        effective (pathSegments path) handlers =
          selected (calls.flatMap layersOf) (pathSegments path)) ↔
      normalizePath pattern = pattern ∨ Unscoped (calls.flatMap layersOf) ir.segments := by
  rw [middlewareForRoute_eq hir, (addAll_spec calls).2]
  constructor
  · intro hselects
    by_contra hnone
    rw [not_or] at hnone
    obtain ⟨hkept, hscoped⟩ := hnone
    simp only [Unscoped, not_forall, not_not] at hscoped
    obtain ⟨layer, hlayer, scope, hscope, hexact, hroute⟩ := hscoped
    have hstatic : ir.isStatic = true := by
      rw [(compilePattern_parts hir).2.2, hroute, List.all_map]
      exact List.all_eq_true.mpr fun _ _ => rfl
    have hanswers : Answers host pattern (pattern ++ [slash]) :=
      ⟨ir, hir, .inr ⟨hstatic, staticKey_concat_slash hkept⟩⟩
    obtain ⟨handlers, hhandlers, heq⟩ := hselects _ hanswers
    obtain rfl := Except.ok.inj hhandlers
    obtain ⟨reached, n, hreach, hpath, -⟩ := reached_of_answers hir hanswers
    have hsegments : (pathSegments (pattern ++ [slash])).drop 0 =
      reached ++ List.replicate n [] := hpath
    rw [effective_layers] at heq
    -- The layer always runs, and the empty segment is not in its scope.
    have halways : layer.runsOn ir.segments 0 (pathSegments (pattern ++ [slash])) = true := by
      rw [MiddlewareLayer.runsOn, hscope]
      simp [routeRelation, hexact, hroute]
    have happlies := (filter_map_eq_iff MiddlewareLayer.handler fun other hother =>
      runsOn_of_appliesTo (fun _ => compiled_of_mem hcalls hother) hreach hsegments).mp heq
        layer hlayer halways
    rw [MiddlewareLayer.appliesTo, hscope] at happlies
    have hcovers := of_decide_eq_true happlies
    rw [MiddlewareScope.Covers, if_neg (by simp [hexact])] at hcovers
    exact (compiled_of_mem hcalls hlayer hscope).ne_nil (hcovers ▸ blank_mem_concat_slash hir hkept)
  · intro hcond path hanswers
    refine ⟨_, rfl, ?_⟩
    obtain ⟨reached, n, hreach, hpath, hn⟩ := reached_of_answers hir hanswers
    have hsegments : (pathSegments path).drop 0 = reached ++ List.replicate n [] := hpath
    rw [effective_layers, selected]
    congr 1
    refine List.filter_congr fun layer hlayer => ?_
    have hcond' : n = 0 ∨ Unscoped [layer] ir.segments := by
      refine hcond.imp hn fun hunscoped other hother => ?_
      rw [List.mem_singleton.mp hother]
      exact hunscoped layer hlayer
    rw [Bool.eq_iff_iff]
    exact ⟨appliesTo_of_runsOn hreach hsegments hcond',
      runsOn_of_appliesTo (fun _ => compiled_of_mem hcalls hlayer) hreach hsegments⟩

def adminCalls : List (Option MiddlewareScope × List ℕ) :=
  [(none, [0]), (some ⟨js "/admin/*", [js "admin"], true⟩, [1])]

theorem middlewareForRoute_selects_admin : ∃ handlers,
    middlewareForRoute digitsHost (addAll adminCalls) (js "/:section/:id") 0 = .ok handlers ∧
      effective (pathSegments (js "/admin/7")) handlers =
        selected (adminCalls.flatMap layersOf) (pathSegments (js "/admin/7")) := by
  have hcalls : ∀ call ∈ adminCalls, ∀ scope, call.1 = some scope →
      scope.Compiled digitsHost := by
    intro call hcall scope hscope
    simp only [adminCalls, List.mem_cons, List.not_mem_nil, or_false] at hcall
    rcases hcall with rfl | rfl
    · cases hscope
    · obtain rfl := Option.some.inj hscope
      exact ⟨js "/admin/*", by decide +kernel⟩
  have hir : compilePattern digitsHost (js "/:section/:id") =
      .ok ⟨[.param (js "section") none false, .param (js "id") none false], false, false⟩ := by
    decide +kernel
  have hanswers : Answers digitsHost (js "/:section/:id") (js "/admin/7") :=
    ⟨_, hir, .inl ⟨_, .consume (by decide) rfl (.consume (by decide) rfl .done)⟩⟩
  exact (middlewareForRoute_selects_iff hcalls hir).mpr (.inl (by decide)) _ hanswers

def exactCalls : List (Option MiddlewareScope × List ℕ) := [(some ⟨js "/a", [js "a"], false⟩, [1])]

def slashedRouter : RouterState ℕ × Except RouteError (RouteDef ℕ) :=
  registerDef digitsHost (createRouterState []) ⟨js "GET", js "/a///", [.user 0], none, []⟩
    (addAll exactCalls)

theorem middlewareForRoute_overselects :
    compileMiddlewareScope digitsHost (js "/a") = .ok ⟨js "/a", [js "a"], false⟩ ∧
      slashedRouter.2.toOption.map RouteDef.path = some (js "/a/") ∧
      ((matchRoute digitsHost slashedRouter.1.index (js "/a//")).toOption.bind Prod.snd).map
        (fun found => (slashedRouter.1.targets found.target).methods) =
          some [(js "GET", .composed ⟨[.user 1, .user 0]⟩)] ∧
      selected (exactCalls.flatMap layersOf) (pathSegments (js "/a//")) = [] := by
  decide +kernel

end Keala.Core
