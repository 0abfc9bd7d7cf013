import Keala.Core.Registration
import Keala.Router.TrieSpec

/-!
Whole setup sequences. The routes of an application always index again; its
targets are those of a rebuild unless an `app.use` call threw with some of its
functions already on the stack.
-/

namespace Keala.Core

open Keala.Js Keala.Router

variable {η : Type}

/-- The routing half of an application is what a rebuild makes. -/
def App.Indexed (host : Host) (app : App η) : Prop := Router.Indexed host app.router

theorem flush_indexed {host : Host} {app : App η} (h : app.Indexed host)
    (scope : Option MiddlewareScope) (pending : List η) (changed : Bool) :
    (flush scope pending changed app).1.Indexed host := by
  rw [flush]
  split
  · exact h
  · exact h

theorem matchRequest_cases {host : Host} {app : App η} (h : app.Indexed host)
    (path : JsString) : ∃ index : RouteIndex, index.Coherent ∧
      index.tables = app.router.index.tables ∧
      (matchRequest host path app).1 = { app with router := { app.router with index } } := by
  rw [matchRequest]
  cases hm : matchRoute host app.router.index path with
  | error e => exact ⟨app.router.index, h.coherent, rfl, rfl⟩
  | ok r =>
      obtain ⟨htables, hcoherent⟩ := matchRoute_ok h.coherent hm
      exact ⟨r.1, hcoherent, htables, rfl⟩

theorem matchRequest_indexed {host : Host} {app : App η} (h : app.Indexed host)
    (path : JsString) : (matchRequest host path app).1.Indexed host := by
  obtain ⟨index, hcoherent, htables, heq⟩ := matchRequest_cases h path
  rw [heq]
  exact ⟨hcoherent, h.replays, h.tables.trans htables.symm⟩

variable [DecidableEq η]

/-- The router of an application is what a rebuild makes of its definitions
under its middleware. -/
def App.Synced (host : Host) (app : App η) : Prop :=
  Router.Synced host app.middleware app.router

mutual

/-- No `app.use` call in this call throws once it has put functions on the
stack. -/
def SetupCall.Intact (host : Host) (noOpMeta : NoOpMeta η) : SetupCall η → App η → Prop
  | .use pattern args, app =>
      match useScope host noOpMeta pattern args app with
      | .error _ => True
      | .ok scope => UseArgs.Intact host noOpMeta scope args [] false app
  | .on _, _ => True
  | .param _ _, _ => True
  | .markSunk _ _, _ => True
  | .request _, _ => True

def UseArgs.Intact (host : Host) (noOpMeta : NoOpMeta η) (scope : Option MiddlewareScope) :
    UseArgs η → List η → Bool → App η → Prop
  | .nil, _, _, _ => True
  | .handler fn rest, pending, changed, app =>
      UseArgs.Intact host noOpMeta scope rest (pending ++ [fn]) changed app
  | .plugin install rest, pending, changed, app =>
      if scope.isSome then changed = false
      else
        let (app, changed) := flush scope pending changed app
        Install.Intact host noOpMeta install app ∧
          match Install.run host noOpMeta install app with
          | (_, .error _) => changed = false
          | (app, .ok ()) => UseArgs.Intact host noOpMeta scope rest [] changed app
  | .other _, _, changed, _ => changed = false

def Install.Intact (host : Host) (noOpMeta : NoOpMeta η) : Install η → App η → Prop
  | .done, _ => True
  | .throws, _ => True
  | .call call caught rest, app =>
      SetupCall.Intact host noOpMeta call app ∧
        match SetupCall.run host noOpMeta call app with
        | (app, .error _) => caught = true → Install.Intact host noOpMeta rest app
        | (app, .ok ()) => Install.Intact host noOpMeta rest app

end

def IntactRun (host : Host) (noOpMeta : NoOpMeta η) : List (SetupCall η) → App η → Prop
  | [], _ => True
  | call :: calls, app =>
      call.Intact host noOpMeta app ∧
        IntactRun host noOpMeta calls (call.run host noOpMeta app).1

/-! ### Single calls -/

theorem createApp_synced (host : Host) (devTrace : Bool) :
    (createApp devTrace : App η).Synced host :=
  ⟨⟨RouteIndex.coherent_of_fastIndex_eq_none rfl, rfl, rfl⟩, rfl⟩

theorem rebuildApp_synced {host : Host} {app : App η} (h : app.Indexed host) :
    (rebuildApp host app).2 = .ok () ∧ (rebuildApp host app).1.Synced host :=
  rebuildChains_synced h.replays app.middleware

theorem addParam_cases (host : Host) (name : JsString) (middleware : η) (app : App η) :
    (∃ e, addParam host name middleware app = (app, .error e)) ∨
      ∃ router : RouterState η, router.defs = app.router.defs ∧
        addParam host name middleware app = rebuildApp host { app with router } := by
  rw [addParam]
  split
  · exact .inl ⟨_, rfl⟩
  · split
    · exact .inl ⟨_, rfl⟩
    · exact .inr ⟨{ app.router with
        paramMiddlewares := OrderedMap.set app.router.paramMiddlewares name (.user middleware) },
        rfl, rfl⟩

/-- A flush that leaves `changed` unset has added nothing. -/
theorem flush_synced {host : Host} {app : App η} (scope : Option MiddlewareScope)
    (pending : List η) {changed : Bool} (h : changed = false → app.Synced host)
    (hchanged : (flush scope pending changed app).2 = false) :
    (flush scope pending changed app).1.Synced host := by
  rw [flush] at hchanged ⊢
  split at hchanged
  · next hp =>
      rw [if_pos hp]
      exact h hchanged
  · cases hchanged

theorem sinkPath_synced {host : Host} {app : App η} (h : app.Synced host) (path : JsString)
    (methods : Option (List JsString)) : (sinkPath path methods app).Synced host := by
  refine ⟨⟨h.indexed.coherent, h.indexed.replays, h.indexed.tables⟩, ?_⟩
  have halike := (rebuildChains_alike host (a := (sinkPath path methods app).router)
    (b := app.router) rfl rfl rfl app.middleware).1
  exact halike.targets.trans h.targets

theorem matchRequest_synced {host : Host} {app : App η} (h : app.Synced host)
    (path : JsString) : (matchRequest host path app).1.Synced host := by
  have hindexed := matchRequest_indexed h.indexed path
  obtain ⟨index, -, -, heq⟩ := matchRequest_cases h.indexed path
  rw [heq] at hindexed ⊢
  refine ⟨hindexed, ?_⟩
  have halike := (rebuildChains_alike host (a := { app.router with index }) (b := app.router)
    rfl rfl rfl app.middleware).1
  exact halike.targets.trans h.targets

/-! ### The routing half -/

mutual

theorem SetupCall.run_indexed (host : Host) (noOpMeta : NoOpMeta η) :
    ∀ (call : SetupCall η) (app : App η), app.Indexed host →
      (call.run host noOpMeta app).1.Indexed host
  | .on r, app, h => by
      rw [SetupCall.run]
      exact registerDef_indexed h r app.middleware
  | .param name middleware, app, h => by
      rw [SetupCall.run]
      rcases addParam_cases host name middleware app with ⟨e, heq⟩ | ⟨router, hdefs, heq⟩
      · rw [heq]
        exact h
      · rw [heq]
        have hreplays : Replays host router.defs := hdefs ▸ h.replays
        exact (rebuildChains_synced hreplays app.middleware).2.indexed
  | .use pattern args, app, h => by
      rw [SetupCall.run]
      split
      · exact h
      · next scope _ =>
          have hargs := UseArgs.run_indexed host noOpMeta scope args [] false app h
          generalize UseArgs.run host noOpMeta scope args [] false app = r at hargs
          obtain ⟨next, result⟩ := r
          cases result with
          | error e => exact hargs
          | ok changed =>
              dsimp only
              split
              · exact (rebuildApp_synced hargs).2.indexed
              · exact hargs
  | .markSunk path methods, app, h => by
      rw [SetupCall.run]
      exact ⟨h.coherent, h.replays, h.tables⟩
  | .request path, app, h => by
      rw [SetupCall.run]
      exact matchRequest_indexed h path

theorem UseArgs.run_indexed (host : Host) (noOpMeta : NoOpMeta η)
    (scope : Option MiddlewareScope) :
    ∀ (args : UseArgs η) (pending : List η) (changed : Bool) (app : App η), app.Indexed host →
      (UseArgs.run host noOpMeta scope args pending changed app).1.Indexed host
  | .nil, pending, changed, app, h => by
      rw [UseArgs.run]
      exact flush_indexed h scope pending changed
  | .handler fn rest, pending, changed, app, h => by
      rw [UseArgs.run]
      exact UseArgs.run_indexed host noOpMeta scope rest (pending ++ [fn]) changed app h
  | .plugin install rest, pending, changed, app, h => by
      rw [UseArgs.run]
      split
      · exact h
      · have hflush := flush_indexed h scope pending changed
        generalize flush scope pending changed app = flushed at hflush
        obtain ⟨mid, flag⟩ := flushed
        have hinstall := Install.run_indexed host noOpMeta install mid hflush
        dsimp only
        generalize Install.run host noOpMeta install mid = r at hinstall
        obtain ⟨next, result⟩ := r
        cases result with
        | error e => exact hinstall
        | ok _ => exact UseArgs.run_indexed host noOpMeta scope rest [] flag next hinstall
  | .other rest, pending, changed, app, h => by
      rw [UseArgs.run]
      exact h

theorem Install.run_indexed (host : Host) (noOpMeta : NoOpMeta η) :
    ∀ (install : Install η) (app : App η), app.Indexed host →
      (install.run host noOpMeta app).1.Indexed host
  | .done, app, h => by
      rw [Install.run]
      exact h
  | .throws, app, h => by
      rw [Install.run]
      exact h
  | .call call caught rest, app, h => by
      rw [Install.run]
      have hcall := SetupCall.run_indexed host noOpMeta call app h
      generalize SetupCall.run host noOpMeta call app = r at hcall
      obtain ⟨next, result⟩ := r
      cases result with
      | ok _ => exact Install.run_indexed host noOpMeta rest next hcall
      | error e =>
          dsimp only
          split
          · exact Install.run_indexed host noOpMeta rest next hcall
          · exact hcall

end

/-! ### The chains -/

mutual

/-- An intact call keeps the router in sync, whether it throws or not. -/
theorem SetupCall.run_synced (host : Host) (noOpMeta : NoOpMeta η) :
    ∀ (call : SetupCall η) (app : App η), call.Intact host noOpMeta app → app.Synced host →
      (call.run host noOpMeta app).1.Synced host
  | .on r, app, _, h => by
      rw [SetupCall.run]
      exact registerDef_synced h r
  | .param name middleware, app, _, h => by
      rw [SetupCall.run]
      rcases addParam_cases host name middleware app with ⟨e, heq⟩ | ⟨router, hdefs, heq⟩
      · rw [heq]
        exact h
      · rw [heq]
        have hreplays : Replays host router.defs := hdefs ▸ h.indexed.replays
        exact (rebuildChains_synced hreplays app.middleware).2
  | .use pattern args, app, hintact, h => by
      rw [SetupCall.Intact] at hintact
      rw [SetupCall.run]
      split
      · exact h
      · next scope hscope =>
          rw [hscope] at hintact
          have hindexed := UseArgs.run_indexed host noOpMeta scope args [] false app h.indexed
          have hsync := UseArgs.run_synced host noOpMeta scope args [] false app hintact
            h.indexed fun _ => h
          generalize UseArgs.run host noOpMeta scope args [] false app = r at hindexed hsync
          obtain ⟨next, result⟩ := r
          cases result with
          | error e => exact hsync
          | ok changed =>
              cases changed with
              | true => exact (rebuildApp_synced hindexed).2
              | false => exact hsync rfl
  | .markSunk path methods, app, _, h => by
      rw [SetupCall.run]
      exact sinkPath_synced h path methods
  | .request path, app, _, h => by
      rw [SetupCall.run]
      exact matchRequest_synced h path

/-- The argument loop falls out of sync only where it says so. -/
theorem UseArgs.run_synced (host : Host) (noOpMeta : NoOpMeta η)
    (scope : Option MiddlewareScope) :
    ∀ (args : UseArgs η) (pending : List η) (changed : Bool) (app : App η),
      UseArgs.Intact host noOpMeta scope args pending changed app → app.Indexed host →
      (changed = false → app.Synced host) →
      match UseArgs.run host noOpMeta scope args pending changed app with
      | (next, .error _) => next.Synced host
      | (next, .ok changed) => changed = false → next.Synced host
  | .nil, pending, changed, app, _, _, h => by
      rw [UseArgs.run]
      exact flush_synced _ _ h
  | .handler fn rest, pending, changed, app, hintact, hindexed, h => by
      rw [UseArgs.Intact] at hintact
      rw [UseArgs.run]
      exact UseArgs.run_synced host noOpMeta scope rest _ changed app hintact hindexed h
  | .plugin install rest, pending, changed, app, hintact, hindexed, h => by
      rw [UseArgs.Intact] at hintact
      rw [UseArgs.run]
      by_cases hscope : scope.isSome
      · rw [if_pos hscope] at hintact ⊢
        exact h hintact
      · rw [if_neg hscope] at hintact ⊢
        have hflushed := flush_indexed hindexed scope pending changed
        have hsync := flush_synced scope pending h
        generalize flush scope pending changed app = flushed at hintact hflushed hsync
        obtain ⟨mid, flag⟩ := flushed
        obtain ⟨hinstall, hafter⟩ := hintact
        have hmid := Install.run_indexed host noOpMeta install mid hflushed
        have hkeep := Install.run_synced host noOpMeta install mid hinstall
        dsimp only at hafter hsync ⊢
        generalize Install.run host noOpMeta install mid = r at hafter hmid hkeep
        obtain ⟨next, result⟩ := r
        cases result with
        | error e => exact hkeep (hsync hafter)
        | ok _ =>
            exact UseArgs.run_synced host noOpMeta scope rest [] flag next hafter hmid
              fun hflag => hkeep (hsync hflag)
  | .other rest, pending, changed, app, hintact, _, h => by
      rw [UseArgs.Intact] at hintact
      rw [UseArgs.run]
      exact h hintact

theorem Install.run_synced (host : Host) (noOpMeta : NoOpMeta η) :
    ∀ (install : Install η) (app : App η), install.Intact host noOpMeta app →
      app.Synced host → (install.run host noOpMeta app).1.Synced host
  | .done, app, _, h => by
      rw [Install.run]
      exact h
  | .throws, app, _, h => by
      rw [Install.run]
      exact h
  | .call call caught rest, app, hintact, h => by
      rw [Install.Intact] at hintact
      rw [Install.run]
      obtain ⟨hcall, hafter⟩ := hintact
      have hnext := SetupCall.run_synced host noOpMeta call app hcall h
      generalize SetupCall.run host noOpMeta call app = r at hnext hafter
      obtain ⟨next, result⟩ := r
      cases result with
      | ok _ => exact Install.run_synced host noOpMeta rest next hafter hnext
      | error e =>
          dsimp only
          split
          · next hcaught =>
              exact Install.run_synced host noOpMeta rest next (hafter hcaught) hnext
          · exact hnext

end

/-! ### Runs -/

theorem setup_synced (host : Host) (noOpMeta : NoOpMeta η) (calls : List (SetupCall η))
    (app : App η) (h : app.Synced host) (hintact : IntactRun host noOpMeta calls app) :
    (setup host noOpMeta calls app).Synced host := by
  induction calls generalizing app with
  | nil => exact h
  | cons call calls ih =>
      obtain ⟨hcall, hcalls⟩ := hintact
      exact ih _ (SetupCall.run_synced host noOpMeta call app hcall h) hcalls

/-- After every sequence of intact setup calls the index, the targets and every
answer are those of a rebuild, and a registration that throws changes none of
them. -/
theorem setup_rebuild_eq (host : Host) (noOpMeta : NoOpMeta η) (devTrace : Bool)
    (calls : List (SetupCall η)) (hintact : IntactRun host noOpMeta calls (createApp devTrace)) :
    let app := setup host noOpMeta calls (createApp devTrace)
    let rebuilt := (rebuildChains host app.router app.middleware).1
    (rebuildChains host app.router app.middleware).2 = .ok () ∧
      rebuilt.index.tables = app.router.index.tables ∧
      rebuilt.targets = app.router.targets ∧
      (∀ path, answer host rebuilt.index path = answer host app.router.index path) ∧
      ∀ r e, (registerDef host app.router r app.middleware).2 = .error e →
        let next := (registerDef host app.router r app.middleware).1
        next.defs = app.router.defs ∧ next.named = app.router.named ∧
          next.index.tables = app.router.index.tables ∧ next.targets = app.router.targets ∧
          ∀ path, answer host next.index path = answer host app.router.index path := by
  intro app rebuilt
  have hsync : app.Synced host :=
    setup_synced host noOpMeta calls _ (createApp_synced host devTrace) hintact
  refine ⟨(rebuildChains_synced hsync.indexed.replays app.middleware).1,
    hsync.rebuild_alike.tables, hsync.targets, hsync.answer_eq, ?_⟩
  intro r e he next
  have hsame := registerDef_error hsync r e he
  have hnext := registerDef_synced hsync r
  exact ⟨hsame.defs, hsame.named, hsame.alike.tables, hsame.alike.targets,
    hsame.answer_eq hsync.indexed.coherent hnext.indexed.coherent⟩

def getRoute (path : JsString) (handler : ℕ) : Registration ℕ where
  method := js "GET"
  path
  handlers := [.user handler]
  name := none
  prefixMiddleware := []

theorem setup_rebuild_eq_late_use :
    let app := setup digitsHost (fun _ => none)
      [.use none (.handler 7 .nil), .on (getRoute (js "/users/:id") 1),
        .on (getRoute (js "/users/:name") 2), .request (js "/users/5")] (createApp false)
    (rebuildChains digitsHost app.router app.middleware).1.targets = app.router.targets :=
  (setup_rebuild_eq digitsHost (fun _ => none) false
    [.use none (.handler 7 .nil), .on (getRoute (js "/users/:id") 1),
      .on (getRoute (js "/users/:name") 2), .request (js "/users/5")]
    ⟨trivial, trivial, trivial, trivial, trivial⟩).2.2.1

/-- `app.get("/x", handler)`, then `app.use(fn, plugin, 42)`, which throws. -/
def staleApp : App ℕ :=
  setup digitsHost (fun _ => none)
    [.on (getRoute (js "/x") 1), .use none (.handler 7 (.plugin .done (.other .nil)))]
    (createApp false)

/-- The call leaves `fn` on the stack and the chains not recomposed: a rebuild
puts `fn` ahead of the route. -/
theorem staleApp_rebuild_ne :
    (staleApp.router.targets 0).methods = [(js "GET", .direct (.user 1))] ∧
      ((rebuildChains digitsHost staleApp.router staleApp.middleware).1.targets 0).methods =
        [(js "GET", .composed ⟨[.user 7, .user 1]⟩)] ∧
      (rebuildChains digitsHost staleApp.router staleApp.middleware).1.targets 0 ≠
        staleApp.router.targets 0 := by
  decide +kernel

end Keala.Core
