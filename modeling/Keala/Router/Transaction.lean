import Keala.Router.Rebuild

/-!
Registration is transactional: whatever `registerDef` does, the router it leaves
is one that a rebuild from its definitions reproduces.
-/

namespace Keala.Router

open Keala.Js Keala.Core

variable {η : Type}

def Replays (host : Host) (defs : List (RouteDef η)) : Prop :=
  (bindRoutes host (defs.map RouteDef.path) createRouteIndex).2 = .ok ()

structure Indexed (host : Host) (state : RouterState η) : Prop where
  coherent : state.index.Coherent
  replays : Replays host state.defs
  tables : (bindRoutes host (state.defs.map RouteDef.path) createRouteIndex).1.tables =
    state.index.tables

/-- The route tables and the targets are the ones a rebuild makes. -/
structure Synced [DecidableEq η] (host : Host) (middleware : MiddlewareStack η)
    (state : RouterState η) : Prop where
  indexed : Indexed host state
  targets : (rebuildChains host state middleware).1.targets = state.targets

theorem bindRoutes_coherent (host : Host) (paths : List JsString) {index next : RouteIndex}
    (h : index.Coherent) (hok : bindRoutes host paths index = (next, .ok ())) :
    next.Coherent := by
  induction paths generalizing index with
  | nil => cases hok; exact h
  | cons path paths ih =>
      rw [bindRoutes] at hok
      split at hok
      · cases hok
      · next ir _ =>
          cases hb : bindRoute index ir path with
          | mk inner result =>
              rw [hb] at hok
              cases result with
              | error e => cases hok
              | ok targets => exact ih (bindRoute_coherent h hb) hok

theorem resetRouter_alike {a b : RouterState η} (hp : a.paramMiddlewares = b.paramMiddlewares)
    (hd : a.devTrace = b.devTrace) : Alike (resetRouter a) (resetRouter b) :=
  ⟨rfl, rfl, hp, hd⟩

/-! ### Rebuilding -/

section

variable [DecidableEq η]

theorem rebuildChains_index (host : Host) (state : RouterState η)
    (middleware : MiddlewareStack η) :
    (rebuildChains host state middleware).1.index.tables =
        (bindRoutes host (state.defs.map RouteDef.path) createRouteIndex).1.tables ∧
      (rebuildChains host state middleware).2 =
        (bindRoutes host (state.defs.map RouteDef.path) createRouteIndex).2 := by
  obtain ⟨hindex, hresult⟩ := bindAll_index host middleware state.defs (resetRouter state)
  have hreset := bindRoutes_congr host (state.defs.map RouteDef.path)
    (resetIndex_tables state.index)
  rw [rebuildChains, hindex, hresult]
  exact hreset

theorem rebuildChains_framed (host : Host) (state : RouterState η)
    (middleware : MiddlewareStack η) :
    Framed state (rebuildChains host state middleware).1 := by
  have hreset : Framed state (resetRouter state) := ⟨rfl, rfl, rfl, rfl, rfl, rfl⟩
  exact hreset.trans (bindAll_framed host middleware state.defs (resetRouter state))

theorem rebuildChains_alike (host : Host) {a b : RouterState η} (hdefs : a.defs = b.defs)
    (hp : a.paramMiddlewares = b.paramMiddlewares) (hd : a.devTrace = b.devTrace)
    (middleware : MiddlewareStack η) :
    Alike (rebuildChains host a middleware).1 (rebuildChains host b middleware).1 ∧
      (rebuildChains host a middleware).2 = (rebuildChains host b middleware).2 := by
  rw [rebuildChains, rebuildChains, hdefs]
  exact bindAll_alike host middleware b.defs (resetRouter_alike hp hd)

/-- A rebuild of definitions that index succeeds, and is in sync. -/
theorem rebuildChains_synced {host : Host} {state : RouterState η}
    (h : Replays host state.defs) (middleware : MiddlewareStack η) :
    (rebuildChains host state middleware).2 = .ok () ∧
      Synced host middleware (rebuildChains host state middleware).1 := by
  have hframe := rebuildChains_framed host state middleware
  obtain ⟨htables, hresult⟩ := rebuildChains_index host state middleware
  have hok : (rebuildChains host state middleware).2 = .ok () := hresult.trans h
  refine ⟨hok, ⟨?_, ?_, ?_⟩, ?_⟩
  · obtain ⟨hindex, hroutes⟩ := bindAll_index host middleware state.defs (resetRouter state)
    rw [rebuildChains] at hok ⊢
    rw [hindex]
    exact bindRoutes_coherent host _ (RouteIndex.coherent_of_fastIndex_eq_none rfl)
      (Prod.ext rfl (hroutes.symm.trans hok))
  · rw [hframe.defs]
    exact h
  · rw [hframe.defs]
    exact htables.symm
  · exact (rebuildChains_alike host hframe.defs hframe.params hframe.devTrace middleware).1.targets

theorem Synced.rebuild_alike {host : Host} {middleware : MiddlewareStack η}
    {state : RouterState η} (h : Synced host middleware state) :
    Alike (rebuildChains host state middleware).1 state := by
  have hframe := rebuildChains_framed host state middleware
  exact ⟨(rebuildChains_index host state middleware).1.trans h.indexed.tables, h.targets,
    hframe.params, hframe.devTrace⟩

/-- States in sync answer as their rebuild does. -/
theorem Synced.answer_eq {host : Host} {middleware : MiddlewareStack η}
    {state : RouterState η} (h : Synced host middleware state) (path : JsString) :
    answer host (rebuildChains host state middleware).1.index path =
      answer host state.index path := by
  have hrebuilt := (rebuildChains_synced h.indexed.replays middleware).2
  rw [Router.answer_eq host hrebuilt.indexed.coherent, Router.answer_eq host h.indexed.coherent]
  exact answerOf_congr host h.rebuild_alike.tables path

end

/-! ### Registering -/

theorem popDef_pushDef {state partial' : RouterState η} {d : RouteDef η}
    (h : Framed (pushDef state d) partial') :
    (popDef partial' d.name (d.name.bind (OrderedMap.get? state.named))).defs = state.defs ∧
      (popDef partial' d.name (d.name.bind (OrderedMap.get? state.named))).named =
        state.named := by
  constructor
  · show partial'.defs.dropLast = state.defs
    rw [h.defs]
    exact List.dropLast_concat
  · have hnamed := h.named
    rw [pushDef] at hnamed
    cases hname : d.name with
    | none =>
        rw [hname] at hnamed
        exact hnamed
    | some name =>
        rw [hname] at hnamed
        rw [Option.bind_some]
        cases hprev : OrderedMap.get? state.named name with
        | none =>
            show OrderedMap.delete partial'.named name = state.named
            rw [hnamed]
            exact OrderedMap.delete_set hprev d
        | some previous =>
            show OrderedMap.set partial'.named name previous = state.named
            rw [hnamed]
            exact (OrderedMap.set_set _ _ _ _).trans (OrderedMap.set_eq_self hprev)

structure Unchanged (state next : RouterState η) : Prop where
  defs : next.defs = state.defs
  named : next.named = state.named
  sunkPaths : next.sunkPaths = state.sunkPaths
  routerPrefix : next.routerPrefix = state.routerPrefix
  alike : Alike next state

theorem Unchanged.refl (state : RouterState η) : Unchanged state state :=
  ⟨rfl, rfl, rfl, rfl, .refl state⟩

theorem Unchanged.answer_eq {host : Host} {state next : RouterState η}
    (h : Unchanged state next) (hstate : state.index.Coherent) (hnext : next.index.Coherent)
    (path : JsString) : answer host next.index path = answer host state.index path := by
  rw [Router.answer_eq host hnext, Router.answer_eq host hstate]
  exact answerOf_congr host h.alike.tables path

variable [DecidableEq η]

theorem bindDef_index (host : Host) (state : RouterState η) (d : RouteDef η)
    (middleware : MiddlewareStack η) :
    (bindDef host state d middleware).1.index = (bindRoutes host [d.path] state.index).1 ∧
      (bindDef host state d middleware).2 = (bindRoutes host [d.path] state.index).2 := by
  have hone : bindAll host middleware [d] state = bindDef host state d middleware := by
    rw [bindAll]
    generalize bindDef host state d middleware = r
    obtain ⟨next, result⟩ := r
    cases result <;> rfl
  rw [← hone]
  exact bindAll_index host middleware [d] state

/-- A definition that binds is one the replay takes too. -/
theorem Indexed.bindDef {host : Host} {state next : RouterState η} (h : Indexed host state)
    {d : RouteDef η} {middleware : MiddlewareStack η}
    (hok : bindDef host (pushDef state d) d middleware = (next, .ok ())) : Indexed host next := by
  obtain ⟨hindex, hresult⟩ := bindDef_index host (pushDef state d) d middleware
  rw [hok] at hindex hresult
  have hdefs : next.defs = state.defs ++ [d] := by
    have hframe := bindDef_framed host (pushDef state d) d middleware
    rw [hok] at hframe
    exact hframe.defs
  have hstep := bindRoutes_congr host [d.path] h.tables
  have hreplay : bindRoutes host (next.defs.map RouteDef.path) createRouteIndex =
      bindRoutes host [d.path]
        (bindRoutes host (state.defs.map RouteDef.path) createRouteIndex).1 := by
    rw [hdefs, List.map_append, List.map_cons, List.map_nil, bindRoutes_append]
    have hr := h.replays
    rw [Replays] at hr
    generalize bindRoutes host (state.defs.map RouteDef.path) createRouteIndex = r at hr
    obtain ⟨index, result⟩ := r
    change result = .ok () at hr
    subst hr
    rfl
  refine ⟨?_, ?_, ?_⟩
  · exact bindRoutes_coherent host [d.path] h.coherent
      (Prod.ext hindex.symm hresult.symm)
  · rw [Replays, hreplay, hstep.2]
    exact hresult.symm
  · rw [hreplay, hstep.1]
    exact congrArg RouteIndex.tables hindex.symm

theorem Synced.bindDef {host : Host} {middleware : MiddlewareStack η}
    {state next : RouterState η} (h : Synced host middleware state) {d : RouteDef η}
    (hok : bindDef host (pushDef state d) d middleware = (next, .ok ())) :
    Synced host middleware next := by
  have hindexed := h.indexed.bindDef hok
  refine ⟨hindexed, ?_⟩
  have hframe := bindDef_framed host (pushDef state d) d middleware
  rw [hok] at hframe
  have hreset : Alike (resetRouter next) (resetRouter state) :=
    resetRouter_alike hframe.params hframe.devTrace
  obtain ⟨hearlier, hearlierOk⟩ := bindAll_alike host middleware state.defs hreset
  have hpush : Alike state (pushDef state d) := ⟨rfl, rfl, rfl, rfl⟩
  have hready := (hearlier.trans h.rebuild_alike).trans hpush
  have hlast := (bindDef_alike host hready d middleware).1
  rw [hok] at hlast
  have hsplit : (rebuildChains host next middleware).1 = (Router.bindDef host
      (bindAll host middleware state.defs (resetRouter next)).1 d middleware).1 := by
    have hstate := (rebuildChains_synced h.indexed.replays middleware).1
    have hall : (bindAll host middleware state.defs (resetRouter next)).2 = .ok () :=
      hearlierOk.trans hstate
    rw [rebuildChains, hframe.defs]
    show (bindAll host middleware (state.defs ++ [d]) (resetRouter next)).1 = _
    rw [bindAll_append]
    generalize bindAll host middleware state.defs (resetRouter next) = r at hall
    obtain ⟨mid, result⟩ := r
    change result = .ok () at hall
    subst hall
    dsimp only
    rw [bindAll]
    generalize Router.bindDef host mid d middleware = q
    obtain ⟨last, result⟩ := q
    cases result <;> rfl
  rw [hsplit]
  exact hlast.targets

/-- `registerDef` either binds its definition or throws; then the definitions
are as before and everything else has been rebuilt from them. -/
theorem registerDef_cases (host : Host) (state : RouterState η) (r : Registration η)
    (middleware : MiddlewareStack η) (h : Replays host state.defs) :
    (∃ d, (registerDef host state r middleware).2 = .ok d ∧
        bindDef host (pushDef state d) d middleware =
          ((registerDef host state r middleware).1, .ok ())) ∨
      (∃ e, registerDef host state r middleware = (state, .error e)) ∨
      ∃ e mid, registerDef host state r middleware =
          ((rebuildChains host mid middleware).1, .error e) ∧
        mid.defs = state.defs ∧ mid.named = state.named ∧
        mid.paramMiddlewares = state.paramMiddlewares ∧ mid.devTrace = state.devTrace ∧
        mid.sunkPaths = state.sunkPaths ∧ mid.routerPrefix = state.routerPrefix := by
  rw [registerDef]
  cases checkedDef host state r with
  | error e => exact .inr (.inl ⟨e, rfl⟩)
  | ok d =>
      have hframe := bindDef_framed host (pushDef state d) d middleware
      dsimp only
      generalize hb : bindDef host (pushDef state d) d middleware = bound at hframe
      obtain ⟨next, result⟩ := bound
      cases result with
      | ok _ => exact .inl ⟨d, rfl, hb⟩
      | error e =>
          obtain ⟨hdefs, hnamed⟩ := popDef_pushDef hframe
          dsimp only
          generalize hmid : popDef next d.name (d.name.bind (OrderedMap.get? state.named)) = mid
            at hdefs hnamed
          have hreplays : Replays host mid.defs := hdefs ▸ h
          have hok := (rebuildChains_synced hreplays middleware).1
          refine .inr (.inr ⟨e, mid, ?_, hdefs, hnamed, ?_⟩)
          · generalize rebuildChains host mid middleware = rebuilt at hok
            obtain ⟨final, result⟩ := rebuilt
            change result = .ok () at hok
            subst hok
            rfl
          · rw [← hmid]
            exact ⟨hframe.params, hframe.devTrace, hframe.sunkPaths, hframe.routerPrefix⟩

theorem registerDef_indexed {host : Host} {state : RouterState η} (h : Indexed host state)
    (r : Registration η) (middleware : MiddlewareStack η) :
    Indexed host (registerDef host state r middleware).1 := by
  rcases registerDef_cases host state r middleware h.replays with
    ⟨d, -, hbind⟩ | ⟨e, heq⟩ | ⟨e, mid, heq, hdefs, -⟩
  · exact h.bindDef hbind
  · rw [heq]
    exact h
  · rw [heq]
    exact (rebuildChains_synced (hdefs ▸ h.replays) middleware).2.indexed

theorem registerDef_synced {host : Host} {middleware : MiddlewareStack η}
    {state : RouterState η} (h : Synced host middleware state) (r : Registration η) :
    Synced host middleware (registerDef host state r middleware).1 := by
  rcases registerDef_cases host state r middleware h.indexed.replays with
    ⟨d, -, hbind⟩ | ⟨e, heq⟩ | ⟨e, mid, heq, hdefs, -⟩
  · exact h.bindDef hbind
  · rw [heq]
    exact h
  · rw [heq]
    exact (rebuildChains_synced (hdefs ▸ h.indexed.replays) middleware).2

/-- A registration that throws leaves no trace. -/
theorem registerDef_error {host : Host} {middleware : MiddlewareStack η}
    {state : RouterState η} (h : Synced host middleware state) (r : Registration η)
    (e : RouteError) (he : (registerDef host state r middleware).2 = .error e) :
    Unchanged state (registerDef host state r middleware).1 := by
  rcases registerDef_cases host state r middleware h.indexed.replays with
    ⟨d, hok, -⟩ | ⟨e', heq⟩ | ⟨e', mid, heq, hdefs, hnamed, hparams, hdev, hsunk, hpre⟩
  · rw [hok] at he
    cases he
  · rw [heq]
    exact .refl state
  · have hframe := rebuildChains_framed host mid middleware
    rw [heq]
    exact ⟨hframe.defs.trans hdefs, hframe.named.trans hnamed, hframe.sunkPaths.trans hsunk,
      hframe.routerPrefix.trans hpre,
      (rebuildChains_alike host hdefs hparams hdev middleware).1.trans h.rebuild_alike⟩

end Keala.Router
