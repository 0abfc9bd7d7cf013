import Keala.Router.Router

/-!
Incremental indexing against a full rebuild. Binding reads the route tables, the
targets and the parameter middleware, so states that agree on these stay in
agreement; the epoch counter and the memoized fast index never decide an answer.
-/

namespace Keala.Router

open Keala.Js Keala.Core

variable {η : Type}

/-! ### Route tables -/

def RouteIndex.tables (index : RouteIndex) : RouteIndex :=
  { index with mutations := 0, fastIndex := none }

theorem resetIndex_tables (index : RouteIndex) :
    (resetIndex index).tables = createRouteIndex.tables := rfl

theorem indexPattern_tables (index : RouteIndex) (ir : PatternIR) (path : JsString) :
    (indexPattern index ir path).1.tables = (indexPattern index.tables ir path).1.tables ∧
      (indexPattern index ir path).2 = (indexPattern index.tables ir path).2 := by
  rw [indexPattern, indexPattern]
  simp only [RouteIndex.tables]
  split
  · split
    · exact ⟨rfl, rfl⟩
    · exact ⟨rfl, rfl⟩
  · split
    · exact ⟨rfl, rfl⟩
    · exact ⟨rfl, rfl⟩

theorem noteEligible_tables (index : RouteIndex) (ir : PatternIR) (path : JsString)
    (target : TargetRef) : (noteEligible index ir path target).tables =
      (noteEligible index.tables ir path target).tables := by
  rw [noteEligible, noteEligible]
  split
  · rfl
  · split
    · rfl
    · rfl

theorem bindRoute_congr {a b : RouteIndex} (h : a.tables = b.tables) (ir : PatternIR)
    (path : JsString) : (bindRoute a ir path).1.tables = (bindRoute b ir path).1.tables ∧
      (bindRoute a ir path).2 = (bindRoute b ir path).2 := by
  have ha := indexPattern_tables a ir path
  have hb := indexPattern_tables b ir path
  rw [h] at ha
  have htables := ha.1.trans hb.1.symm
  have hresult := ha.2.trans hb.2.symm
  rw [bindRoute, bindRoute]
  generalize indexPattern a ir path = ra at htables hresult
  generalize indexPattern b ir path = rb at htables hresult
  obtain ⟨a', result⟩ := ra
  obtain ⟨b', result'⟩ := rb
  change result = result' at hresult
  subst hresult
  cases result with
  | error e => exact ⟨htables, rfl⟩
  | ok targets =>
      refine ⟨?_, rfl⟩
      rw [noteEligible_tables, noteEligible_tables { b' with mutations := b'.mutations + 1 }]
      exact congrArg (fun i => (noteEligible i ir path (targets.head?.getD 0)).tables) htables

/-! ### The memo -/

def fastLayers (index : RouteIndex) :
    Except RouteError (List FastMatcher × Option TableRegex) :=
  (compileTableRegex index.regexIndex index.impureFirst).map fun table =>
    (if index.buckets.length ≤ FAST_MATCHER_CAP then
      index.buckets.filterMap fun entry => entry.2.fast else [], table)

/-- A memo of the current epoch holds what a rebuild would compute. -/
def RouteIndex.Coherent (index : RouteIndex) : Prop :=
  ∀ cached, index.fastIndex = some cached → cached.mutations ≤ index.mutations ∧
    (cached.mutations = index.mutations →
      fastLayers index = .ok (cached.matchers, cached.table))

theorem fastLayers_congr {a b : RouteIndex} (h : a.tables = b.tables) :
    fastLayers a = fastLayers b := by
  show fastLayers a.tables = fastLayers b.tables
  rw [h]

theorem RouteIndex.coherent_of_fastIndex_eq_none {index : RouteIndex}
    (h : index.fastIndex = none) : index.Coherent := by
  intro cached hc
  rw [h] at hc
  exact absurd hc (by simp)

theorem buildFastIndex_layers (index : RouteIndex) :
    (buildFastIndex index).map (fun r => (r.2.matchers, r.2.table)) = fastLayers index := by
  rw [buildFastIndex, fastLayers]
  cases compileTableRegex index.regexIndex index.impureFirst <;> rfl

theorem buildFastIndex_ok {index next : RouteIndex} {fast : FastIndex}
    (h : buildFastIndex index = .ok (next, fast)) :
    next = { index with fastIndex := some fast } ∧ fast.mutations = index.mutations := by
  rw [buildFastIndex] at h
  cases hc : compileTableRegex index.regexIndex index.impureFirst with
  | error e => rw [hc] at h; cases h
  | ok table => rw [hc] at h; cases h; exact ⟨rfl, rfl⟩

/-- The memo decides nothing: a fast index is what the tables determine. -/
theorem fastIndexOf_layers {index : RouteIndex} (h : index.Coherent) :
    (fastIndexOf index).map (fun r => (r.2.matchers, r.2.table)) = fastLayers index := by
  rw [fastIndexOf]
  cases hf : index.fastIndex with
  | none => exact buildFastIndex_layers index
  | some cached =>
      dsimp only
      split
      · next heq => exact ((h cached hf).2 heq).symm
      · exact buildFastIndex_layers index

/-- Looking the fast index up leaves the tables alone and stores a good memo. -/
theorem fastIndexOf_ok {index next : RouteIndex} {fast : FastIndex} (h : index.Coherent)
    (hok : fastIndexOf index = .ok (next, fast)) :
    next.tables = index.tables ∧ next.Coherent := by
  have hlayers := fastIndexOf_layers h
  rw [hok] at hlayers
  have hbuilt : buildFastIndex index = .ok (next, fast) →
      next.tables = index.tables ∧ next.Coherent := by
    intro hb
    obtain ⟨rfl, hm⟩ := buildFastIndex_ok hb
    refine ⟨rfl, ?_⟩
    intro cached hc
    cases hc
    exact ⟨hm.le, fun _ => hlayers.symm⟩
  rw [fastIndexOf] at hok
  cases hf : index.fastIndex with
  | none =>
      rw [hf] at hok
      exact hbuilt hok
  | some cached =>
      rw [hf] at hok
      dsimp only at hok
      split at hok
      · cases hok
        exact ⟨rfl, h⟩
      · exact hbuilt hok

/-- What `matchRoute` answers, without the state it leaves. -/
def answer (host : Host) (index : RouteIndex) (path : JsString) :
    Except RouteError (Option RouteMatch) :=
  (matchRoute host index path).map Prod.snd

def answerOf (host : Host) (index : RouteIndex) (path : JsString) :
    Except RouteError (Option RouteMatch) :=
  match (OrderedMap.get? index.staticMap path).or (staticCandidate index path) with
  | some target => .ok (some (staticMatch target))
  | none =>
      if !index.hasDynamic then .ok none
      else if percent ∈ path then .ok (matchPattern host index.trieRoot path)
      else (fastLayers index).map fun layers =>
        ((layers.1.findSome? (fastMatch · path)).or (layers.2.bind (matchTableRegex · path))).or
          (matchPattern host index.trieRoot path)

theorem answer_eq (host : Host) {index : RouteIndex} (h : index.Coherent) (path : JsString) :
    answer host index path = answerOf host index path := by
  rw [answer, answerOf, matchRoute, matchDynamic]
  cases OrderedMap.get? index.staticMap path with
  | some target => rfl
  | none =>
      rw [Option.none_or]
      cases staticCandidate index path with
      | some target => rfl
      | none =>
          dsimp only
          split
          · rfl
          · split
            · rfl
            · rw [← fastIndexOf_layers h]
              cases hf : fastIndexOf index with
              | error e => rfl
              | ok r =>
                  have htrie : r.1.trieRoot = index.trieRoot := by
                    show r.1.tables.trieRoot = index.tables.trieRoot
                    rw [(fastIndexOf_ok h hf).1]
                  show Except.ok ((matchFast r.2 path).or (matchPattern host r.1.trieRoot path)) = _
                  rw [htrie]
                  rfl

theorem answerOf_congr (host : Host) {a b : RouteIndex} (h : a.tables = b.tables)
    (path : JsString) : answerOf host a path = answerOf host b path := by
  have hlayers := fastLayers_congr h
  obtain ⟨hstatic, hdyn, htrie⟩ : a.staticMap = b.staticMap ∧ a.hasDynamic = b.hasDynamic ∧
      a.trieRoot = b.trieRoot := by
    show a.tables.staticMap = b.tables.staticMap ∧ a.tables.hasDynamic = b.tables.hasDynamic ∧
      a.tables.trieRoot = b.tables.trieRoot
    rw [h]
    exact ⟨rfl, rfl, rfl⟩
  simp only [answerOf, staticCandidate, hlayers, hstatic, hdyn, htrie]

theorem matchRoute_ok {host : Host} {index next : RouteIndex} {path : JsString}
    {found : Option RouteMatch} (h : index.Coherent)
    (hok : matchRoute host index path = .ok (next, found)) :
    next.tables = index.tables ∧ next.Coherent := by
  rw [matchRoute] at hok
  split at hok
  · cases hok
    exact ⟨rfl, h⟩
  · rw [matchDynamic] at hok
    split at hok
    · cases hok
      exact ⟨rfl, h⟩
    · split at hok
      · cases hok
        exact ⟨rfl, h⟩
      · split at hok
        · cases hok
          exact ⟨rfl, h⟩
        · cases hf : fastIndexOf index with
          | error e => rw [hf] at hok; cases hok
          | ok r =>
              rw [hf] at hok
              cases hok
              exact fastIndexOf_ok h hf

theorem indexPattern_memo (index : RouteIndex) (ir : PatternIR) (path : JsString) :
    (indexPattern index ir path).1.fastIndex = index.fastIndex ∧
      (indexPattern index ir path).1.mutations = index.mutations := by
  rw [indexPattern]
  dsimp only
  split
  · split
    · exact ⟨rfl, rfl⟩
    · exact ⟨rfl, rfl⟩
  · split
    · exact ⟨rfl, rfl⟩
    · exact ⟨rfl, rfl⟩

theorem noteEligible_memo (index : RouteIndex) (ir : PatternIR) (path : JsString)
    (target : TargetRef) : (noteEligible index ir path target).fastIndex = index.fastIndex ∧
      (noteEligible index ir path target).mutations = index.mutations := by
  rw [noteEligible]
  split
  · exact ⟨rfl, rfl⟩
  · split
    · exact ⟨rfl, rfl⟩
    · exact ⟨rfl, rfl⟩

/-- Binding opens a new epoch, so the memo it finds goes stale. -/
theorem bindRoute_coherent {index next : RouteIndex} {ir : PatternIR} {path : JsString}
    {targets : List TargetRef} (h : index.Coherent)
    (hok : bindRoute index ir path = (next, .ok targets)) : next.Coherent := by
  have hmemo := indexPattern_memo index ir path
  rw [bindRoute] at hok
  generalize indexPattern index ir path = r at hmemo hok
  obtain ⟨inner, result⟩ := r
  cases result with
  | error e => cases hok
  | ok found =>
      cases hok
      have hnote := noteEligible_memo { inner with mutations := inner.mutations + 1 } ir path
        (targets.head?.getD 0)
      intro cached hc
      rw [hnote.1] at hc
      have hle := (h cached (hmemo.1 ▸ hc)).1
      have hnext : (noteEligible { inner with mutations := inner.mutations + 1 } ir path
          (targets.head?.getD 0)).mutations = index.mutations + 1 :=
        hnote.2.trans (congrArg (· + 1) hmemo.2)
      rw [hnext]
      exact ⟨by omega, fun heq => by omega⟩

/-! ### Replaying the routing half -/

def bindRoutes (host : Host) : List JsString → RouteIndex → RouteIndex × Except RouteError Unit
  | [], index => (index, .ok ())
  | path :: paths, index =>
      match compilePattern host path with
      | .error e => (index, .error e)
      | .ok ir =>
          match bindRoute index ir path with
          | (index, .error e) => (index, .error e)
          | (index, .ok _) => bindRoutes host paths index

theorem bindRoutes_append (host : Host) (ps qs : List JsString) (index : RouteIndex) :
    bindRoutes host (ps ++ qs) index =
      match bindRoutes host ps index with
      | (index, .error e) => (index, .error e)
      | (index, .ok ()) => bindRoutes host qs index := by
  induction ps generalizing index with
  | nil => rfl
  | cons path ps ih =>
      rw [List.cons_append, bindRoutes, bindRoutes]
      split
      · rfl
      · split
        · rfl
        · exact ih _

theorem bindRoutes_congr (host : Host) (paths : List JsString) {a b : RouteIndex}
    (h : a.tables = b.tables) :
    (bindRoutes host paths a).1.tables = (bindRoutes host paths b).1.tables ∧
      (bindRoutes host paths a).2 = (bindRoutes host paths b).2 := by
  induction paths generalizing a b with
  | nil => exact ⟨h, rfl⟩
  | cons path paths ih =>
      rw [bindRoutes, bindRoutes]
      split
      · exact ⟨h, rfl⟩
      · next ir _ =>
          obtain ⟨htables, hresult⟩ := bindRoute_congr h ir path
          generalize bindRoute a ir path = ra at htables hresult
          generalize bindRoute b ir path = rb at htables hresult
          obtain ⟨a', result⟩ := ra
          obtain ⟨b', result'⟩ := rb
          change result = result' at hresult
          subst hresult
          cases result with
          | error e => exact ⟨htables, rfl⟩
          | ok targets => exact ih htables

/-! ### Binding definitions -/

/-- Two states that binding cannot tell apart. -/
structure Alike (a b : RouterState η) : Prop where
  tables : a.index.tables = b.index.tables
  targets : a.targets = b.targets
  params : a.paramMiddlewares = b.paramMiddlewares
  devTrace : a.devTrace = b.devTrace

theorem Alike.refl (a : RouterState η) : Alike a a := ⟨rfl, rfl, rfl, rfl⟩

theorem Alike.trans {a b c : RouterState η} (hab : Alike a b) (hbc : Alike b c) : Alike a c :=
  ⟨hab.tables.trans hbc.tables, hab.targets.trans hbc.targets, hab.params.trans hbc.params,
    hab.devTrace.trans hbc.devTrace⟩

def layerHandlers [DecidableEq η] (state : RouterState η) (d : RouteDef η) (ir : PatternIR) :
    List (RouteHandler η) :=
  d.prefixMiddleware ++ paramChainFor state.paramMiddlewares ir.segments ++ d.handlers

def appLayers (middleware : MiddlewareStack η) (ir : PatternIR) : List (RouteHandler η) :=
  middleware.layers.flatMap (layerForRoute ir.segments 0)

theorem bindDef_eq [DecidableEq η] (host : Host) (state : RouterState η) (d : RouteDef η)
    (middleware : MiddlewareStack η) :
    bindDef host state d middleware =
      match compilePattern host d.path with
      | .error e => (state, .error e)
      | .ok ir =>
          match bindRoute state.index ir d.path with
          | (index, .error e) => ({ state with index }, .error e)
          | (index, .ok targets) =>
              ({ state with
                  index
                  targets := fun t =>
                    if t ∈ targets then
                      bindTarget d (layerHandlers state d ir) (appLayers middleware ir)
                        state.devTrace (state.targets t)
                    else state.targets t }, .ok ()) := by
  rw [bindDef, middlewareForRoute]
  cases compilePattern host d.path with
  | error e => rfl
  | ok ir => rfl

theorem bindDef_alike [DecidableEq η] (host : Host) {a b : RouterState η} (h : Alike a b)
    (d : RouteDef η) (middleware : MiddlewareStack η) :
    Alike (bindDef host a d middleware).1 (bindDef host b d middleware).1 ∧
      (bindDef host a d middleware).2 = (bindDef host b d middleware).2 := by
  rw [bindDef_eq, bindDef_eq]
  cases compilePattern host d.path with
  | error e => exact ⟨h, rfl⟩
  | ok ir =>
      obtain ⟨htables, hresult⟩ := bindRoute_congr h.tables ir d.path
      dsimp only
      generalize bindRoute a.index ir d.path = ra at htables hresult
      generalize bindRoute b.index ir d.path = rb at htables hresult
      obtain ⟨ia, result⟩ := ra
      obtain ⟨ib, result'⟩ := rb
      change result = result' at hresult
      subst hresult
      cases result with
      | error e => exact ⟨⟨htables, h.targets, h.params, h.devTrace⟩, rfl⟩
      | ok targets =>
          refine ⟨⟨htables, ?_, h.params, h.devTrace⟩, rfl⟩
          simp only [layerHandlers, h.targets, h.params, h.devTrace]

structure Framed (a b : RouterState η) : Prop where
  defs : b.defs = a.defs
  named : b.named = a.named
  params : b.paramMiddlewares = a.paramMiddlewares
  routerPrefix : b.routerPrefix = a.routerPrefix
  sunkPaths : b.sunkPaths = a.sunkPaths
  devTrace : b.devTrace = a.devTrace

theorem Framed.trans {a b c : RouterState η} (hab : Framed a b) (hbc : Framed b c) : Framed a c :=
  ⟨hbc.defs.trans hab.defs, hbc.named.trans hab.named, hbc.params.trans hab.params,
    hbc.routerPrefix.trans hab.routerPrefix, hbc.sunkPaths.trans hab.sunkPaths,
    hbc.devTrace.trans hab.devTrace⟩

theorem bindDef_framed [DecidableEq η] (host : Host) (state : RouterState η) (d : RouteDef η)
    (middleware : MiddlewareStack η) : Framed state (bindDef host state d middleware).1 := by
  rw [bindDef_eq]
  split
  · exact ⟨rfl, rfl, rfl, rfl, rfl, rfl⟩
  · split
    · exact ⟨rfl, rfl, rfl, rfl, rfl, rfl⟩
    · exact ⟨rfl, rfl, rfl, rfl, rfl, rfl⟩

theorem bindAll_framed [DecidableEq η] (host : Host) (middleware : MiddlewareStack η)
    (defs : List (RouteDef η)) (state : RouterState η) :
    Framed state (bindAll host middleware defs state).1 := by
  induction defs generalizing state with
  | nil => exact ⟨rfl, rfl, rfl, rfl, rfl, rfl⟩
  | cons d defs ih =>
      have hd := bindDef_framed host state d middleware
      rw [bindAll]
      generalize bindDef host state d middleware = r at hd
      obtain ⟨next, result⟩ := r
      cases result with
      | error e => exact hd
      | ok _ => exact hd.trans (ih next)

theorem bindAll_alike [DecidableEq η] (host : Host) (middleware : MiddlewareStack η)
    (defs : List (RouteDef η)) {a b : RouterState η} (h : Alike a b) :
    Alike (bindAll host middleware defs a).1 (bindAll host middleware defs b).1 ∧
      (bindAll host middleware defs a).2 = (bindAll host middleware defs b).2 := by
  induction defs generalizing a b with
  | nil => exact ⟨h, rfl⟩
  | cons d defs ih =>
      obtain ⟨halike, hresult⟩ := bindDef_alike host h d middleware
      rw [bindAll, bindAll]
      generalize bindDef host a d middleware = ra at halike hresult
      generalize bindDef host b d middleware = rb at halike hresult
      obtain ⟨a', result⟩ := ra
      obtain ⟨b', result'⟩ := rb
      change result = result' at hresult
      subst hresult
      cases result with
      | error e => exact ⟨halike, rfl⟩
      | ok _ => exact ih halike

theorem bindAll_append [DecidableEq η] (host : Host) (middleware : MiddlewareStack η)
    (ds es : List (RouteDef η)) (state : RouterState η) :
    bindAll host middleware (ds ++ es) state =
      match bindAll host middleware ds state with
      | (state, .error e) => (state, .error e)
      | (state, .ok ()) => bindAll host middleware es state := by
  induction ds generalizing state with
  | nil => rfl
  | cons d ds ih =>
      rw [List.cons_append, bindAll, bindAll]
      split
      · rfl
      · exact ih _

/-- Binding indexes as the routing half alone does; the middleware decides
nothing about success. -/
theorem bindAll_index [DecidableEq η] (host : Host) (middleware : MiddlewareStack η)
    (defs : List (RouteDef η)) (state : RouterState η) :
    (bindAll host middleware defs state).1.index =
        (bindRoutes host (defs.map RouteDef.path) state.index).1 ∧
      (bindAll host middleware defs state).2 =
        (bindRoutes host (defs.map RouteDef.path) state.index).2 := by
  induction defs generalizing state with
  | nil => exact ⟨rfl, rfl⟩
  | cons d defs ih =>
      rw [bindAll, bindDef_eq, List.map_cons, bindRoutes]
      cases compilePattern host d.path with
      | error e => exact ⟨rfl, rfl⟩
      | ok ir =>
          dsimp only
          generalize bindRoute state.index ir d.path = r
          obtain ⟨index, result⟩ := r
          cases result with
          | error e => exact ⟨rfl, rfl⟩
          | ok targets => exact ih _

end Keala.Router
