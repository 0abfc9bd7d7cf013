import Keala.Core.SetupRuns

/-!
`registerMiddleware` on its own: which `app.use` calls leave the middleware stack
as it was when they throw.
-/

namespace Keala.Core

open Keala.Js Keala.Router

variable {η : Type} [DecidableEq η]

def registerMiddleware (host : Host) (noOpMeta : NoOpMeta η) (pattern : Option JsString)
    (args : UseArgs η) (app : App η) : App η × Except RouteError Bool :=
  match useScope host noOpMeta pattern args app with
  | .error e => (app, .error e)
  | .ok scope => UseArgs.run host noOpMeta scope args [] false app

/-- `app.use` is `registerMiddleware` and, when it has added something, a rebuild
of the route chains. -/
theorem run_use (host : Host) (noOpMeta : NoOpMeta η) (pattern : Option JsString)
    (args : UseArgs η) (app : App η) :
    SetupCall.run host noOpMeta (.use pattern args) app =
      match registerMiddleware host noOpMeta pattern args app with
      | (app, .error e) => (app, .error e)
      | (app, .ok changed) => if changed then rebuildApp host app else (app, .ok ()) := by
  rw [SetupCall.run, registerMiddleware]
  cases useScope host noOpMeta pattern args app with
  | error e => rfl
  | ok scope => rfl

/-- Every plugin among the arguments leaves the stack alone. -/
def UseArgs.Quiet (host : Host) (noOpMeta : NoOpMeta η) : UseArgs η → Prop
  | .nil => True
  | .handler _ rest => rest.Quiet host noOpMeta
  | .plugin install rest =>
      (∀ app, (install.run host noOpMeta app).1.middleware = app.middleware) ∧
        rest.Quiet host noOpMeta
  | .other rest => rest.Quiet host noOpMeta

def App.withLayer (app : App η) (fn : η) : App η :=
  { app with middleware := addMiddleware app.middleware none [fn] }

/-- One of the arguments throws: a plugin whose `install` does, or a value that is
neither function nor plugin. -/
def UseArgs.Throws (host : Host) (noOpMeta : NoOpMeta η) : UseArgs η → App η → Prop
  | .nil, _ => False
  | .handler fn rest, app => rest.Throws host noOpMeta (app.withLayer fn)
  | .plugin install rest, app =>
      match install.run host noOpMeta app with
      | (_, .error _) => True
      | (app, .ok ()) => rest.Throws host noOpMeta app
  | .other _, _ => True

/-- The arguments are torn apart: a plugin stands right behind a function, and it
or an argument behind it throws. The flag tells whether the argument in front is
a function. -/
def UseArgs.Torn (host : Host) (noOpMeta : NoOpMeta η) : UseArgs η → Bool → App η → Prop
  | .nil, _, _ => False
  | .handler fn rest, _, app => rest.Torn host noOpMeta true (app.withLayer fn)
  | .plugin install rest, true, app => (UseArgs.plugin install rest).Throws host noOpMeta app
  | .plugin install rest, false, app =>
      match install.run host noOpMeta app with
      | (_, .error _) => False
      | (app, .ok ()) => rest.Torn host noOpMeta false app
  | .other _, _, _ => False

/-- The flag `changed` tells whether layers have been added to a stack. -/
def Grown (stack : MiddlewareStack η) (changed : Bool) (app : App η) : Prop :=
  if changed then stack.layers.length < app.middleware.layers.length else app.middleware = stack

omit [DecidableEq η] in
theorem Grown.flush {stack : MiddlewareStack η} {changed : Bool} {app : App η}
    (h : Grown stack changed app) (scope : Option MiddlewareScope) (pending : List η) :
    Grown stack (flush scope pending changed app).2 (flush scope pending changed app).1 := by
  rw [Core.flush]
  split
  · exact h
  · next hpending =>
      have hlength : (addMiddleware app.middleware scope pending).layers.length =
          app.middleware.layers.length + pending.length := by
        show (app.middleware.layers ++ pending.map _).length = _
        rw [List.length_append, List.length_map]
      have hpos : 0 < pending.length := by
        rw [List.isEmpty_iff] at hpending
        exact List.length_pos_of_ne_nil hpending
      show stack.layers.length < (addMiddleware app.middleware scope pending).layers.length
      rw [Grown] at h
      split at h
      · omega
      · rw [h] at hlength ⊢
        omega

omit [DecidableEq η] in
/-- A stack with more layers is another stack. -/
theorem Grown.eq_iff {stack : MiddlewareStack η} {changed : Bool} {app : App η}
    (h : Grown stack changed app) : app.middleware = stack ↔ changed = false := by
  rw [Grown] at h
  cases changed with
  | false => exact iff_of_true h rfl
  | true =>
      refine iff_of_false ?_ (by decide)
      intro heq
      rw [heq] at h
      exact absurd h (Nat.lt_irrefl _)

/-- A scoped call throws before it adds anything. -/
theorem UseArgs.run_scoped (host : Host) (noOpMeta : NoOpMeta η) (scope : MiddlewareScope) :
    ∀ (args : UseArgs η) (pending : List η) (changed : Bool) (app : App η) (e : RouteError),
      (args.run host noOpMeta (some scope) pending changed app).2 = .error e →
        (args.run host noOpMeta (some scope) pending changed app).1 = app
  | .nil, _, _, _, _, herror => by
      rw [UseArgs.run] at herror
      cases herror
  | .handler fn rest, pending, changed, app, e, herror => by
      rw [UseArgs.run] at herror ⊢
      exact UseArgs.run_scoped host noOpMeta scope rest _ changed app e herror
  | .plugin install rest, _, _, _, _, _ => by
      rw [UseArgs.run]
      rfl
  | .other rest, _, _, _, _, _ => by
      rw [UseArgs.run]

omit [DecidableEq η] in
/-- Functions that wait join the stack one behind the other. -/
theorem flush_concat (pending : List η) (fn : η) (changed : Bool) (app : App η) :
    (flush none (pending ++ [fn]) changed app).1 =
      (flush none pending changed app).1.withLayer fn := by
  rw [flush, if_neg (by simp), flush]
  split
  · next hnone =>
      rw [List.isEmpty_iff] at hnone
      rw [hnone]
      rfl
  · simp [App.withLayer, addMiddleware, rebuildFallbacks]

/-- The loop of an unscoped call that has changed the stack: it is still the stack
of the start where the loop throws only if no argument throws. -/
theorem UseArgs.run_changed (host : Host) (noOpMeta : NoOpMeta η) (stack : MiddlewareStack η) :
    ∀ (args : UseArgs η) (pending : List η) (app : App η),
      args.Quiet host noOpMeta → Grown stack true app →
        ((∀ e, (args.run host noOpMeta none pending true app).2 = .error e →
          (args.run host noOpMeta none pending true app).1.middleware = stack) ↔
            ¬args.Throws host noOpMeta (flush none pending true app).1)
  | .nil, pending, app, _, _ => by
      rw [UseArgs.run, UseArgs.Throws]
      refine iff_of_true ?_ not_false
      intro e herror
      cases herror
  | .handler fn rest, pending, app, hquiet, hgrown => by
      rw [UseArgs.run, UseArgs.Throws, ← flush_concat]
      exact UseArgs.run_changed host noOpMeta stack rest _ app hquiet hgrown
  | .plugin install rest, pending, app, hquiet, hgrown => by
      obtain ⟨hinstall, hrest⟩ := hquiet
      rw [UseArgs.run, UseArgs.Throws, if_neg (by simp)]
      have hflag : (flush none pending true app).2 = true := by
        rw [flush]
        split
        · rfl
        · rfl
      have hflushed := hgrown.flush none pending
      generalize flush none pending true app = flushed at hflushed hflag ⊢
      obtain ⟨mid, flag⟩ := flushed
      dsimp only at hflushed hflag ⊢
      subst hflag
      have hkept := hinstall mid
      generalize install.run host noOpMeta mid = result at hkept ⊢
      obtain ⟨next, outcome⟩ := result
      have hnext : Grown stack true next := by
        rw [Grown, hkept]
        exact hflushed
      cases outcome with
      | error e =>
          refine iff_of_false (fun h => ?_) (not_not_intro trivial)
          exact Bool.true_eq_false.mp (hnext.eq_iff.mp (h e rfl))
      | ok _ => exact UseArgs.run_changed host noOpMeta stack rest [] next hrest hnext
  | .other rest, pending, app, _, hgrown => by
      rw [UseArgs.run, UseArgs.Throws]
      refine iff_of_false (fun h => ?_) (not_not_intro trivial)
      exact Bool.true_eq_false.mp (hgrown.eq_iff.mp (h _ rfl))

/-- The loop of an unscoped call: when it throws, it has changed the stack just if
the arguments are torn. -/
theorem UseArgs.run_unscoped (host : Host) (noOpMeta : NoOpMeta η) :
    ∀ (args : UseArgs η) (pending : List η) (app : App η), args.Quiet host noOpMeta →
      ((∀ e, (args.run host noOpMeta none pending false app).2 = .error e →
        (args.run host noOpMeta none pending false app).1.middleware = app.middleware) ↔
          ¬args.Torn host noOpMeta (!pending.isEmpty) (flush none pending false app).1)
  | .nil, pending, app, _ => by
      rw [UseArgs.run, UseArgs.Torn]
      refine iff_of_true ?_ not_false
      intro e herror
      cases herror
  | .handler fn rest, pending, app, hquiet => by
      have hbehind : (!(pending ++ [fn]).isEmpty) = true := by simp
      rw [UseArgs.run, UseArgs.Torn, ← flush_concat, ← hbehind]
      exact UseArgs.run_unscoped host noOpMeta rest _ app hquiet
  | .plugin install rest, [], app, hquiet => by
      obtain ⟨hinstall, hrest⟩ := hquiet
      have hkept := hinstall app
      rw [UseArgs.run, if_neg (by simp)]
      have hnone : flush none [] false app = (app, false) := rfl
      rw [hnone]
      show _ ↔ ¬(UseArgs.plugin install rest).Torn host noOpMeta false app
      rw [UseArgs.Torn]
      dsimp only
      generalize install.run host noOpMeta app = result at hkept ⊢
      obtain ⟨next, outcome⟩ := result
      cases outcome with
      | error e => exact iff_of_true (fun _ _ => hkept) not_false
      | ok _ =>
          dsimp only at hkept ⊢
          rw [← hkept]
          exact UseArgs.run_unscoped host noOpMeta rest [] next hrest
  | .plugin install rest, fn :: pending, app, hquiet => by
      -- The functions in front join the stack, which is as if it had no one waiting.
      have hfresh : Grown app.middleware false app := rfl
      have hgrown : Grown app.middleware true (flush none (fn :: pending) false app).1 :=
        hfresh.flush none (fn :: pending)
      have hrun : (UseArgs.plugin install rest).run host noOpMeta none (fn :: pending) false app =
          (UseArgs.plugin install rest).run host noOpMeta none [] true
            (flush none (fn :: pending) false app).1 := by
        rw [UseArgs.run, UseArgs.run]
        rfl
      rw [hrun]
      exact UseArgs.run_changed host noOpMeta app.middleware _ [] _ hquiet hgrown
  | .other rest, pending, app, _ => by
      rw [UseArgs.run, UseArgs.Torn]
      exact iff_of_true (fun _ _ => rfl) not_false

/-- A call of `registerMiddleware` that throws leaves the stack as it was, unless
it passes the checks without a scope and its arguments are torn. -/
theorem registerMiddleware_atomic_iff (host : Host) (noOpMeta : NoOpMeta η)
    (pattern : Option JsString) (args : UseArgs η) (hquiet : args.Quiet host noOpMeta)
    (app : App η) :
    (∀ e, (registerMiddleware host noOpMeta pattern args app).2 = .error e →
      (registerMiddleware host noOpMeta pattern args app).1.middleware = app.middleware) ↔
      (useScope host noOpMeta pattern args app = .ok none →
        ¬args.Torn host noOpMeta false app) := by
  rw [registerMiddleware]
  cases hscope : useScope host noOpMeta pattern args app with
  | error e => exact iff_of_true (fun _ _ => rfl) fun h => by cases h
  | ok scope =>
      cases scope with
      | none =>
          have hloop := UseArgs.run_unscoped host noOpMeta args [] app hquiet
          exact hloop.trans ⟨fun h _ => h, fun h => h rfl⟩
      | some scope =>
          refine iff_of_true ?_ fun h => by cases h
          intro e herror
          have hkept := UseArgs.run_scoped host noOpMeta scope args [] false app e herror
          exact congrArg App.middleware hkept

/-- A plugin in front of the functions tears nothing. -/
theorem registerMiddleware_atomic_plugin_first :
    (registerMiddleware digitsHost (fun _ => none) none
      (.plugin .done (.handler 7 (.other .nil))) (createApp false)).1.middleware =
        createMiddlewareStack :=
  (registerMiddleware_atomic_iff digitsHost (fun _ => none) none
    (.plugin .done (.handler 7 (.other .nil))) ⟨fun _ => by rw [Install.run], trivial⟩
    (createApp false)).mpr (fun _ => by simp [UseArgs.Torn, Install.run])
      .invalidMiddleware (by decide +kernel)

def tornArgs : UseArgs ℕ := .handler 7 (.plugin .done (.other .nil))

/-- The call throws, and `fn` stays on the stack. -/
theorem registerMiddleware_torn :
    (registerMiddleware digitsHost (fun _ => none) none tornArgs (createApp false)).2 =
        .error .invalidMiddleware ∧
      (registerMiddleware digitsHost (fun _ => none) none tornArgs
        (createApp false)).1.middleware.global = [7] ∧
      (createApp false : App ℕ).middleware.global = [] := by
  decide +kernel

end Keala.Core
