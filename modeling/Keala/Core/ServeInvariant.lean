import Keala.Core.GateFrames

/-!
What every operation on a served request keeps: the counter, the decrements made
for each request, the pool and the owners of contexts, and the registered
callbacks.
-/

namespace Keala.Core

open Keala.Http

def Serving.Gone (s : Serving) : Prop := s.retired = true ∧ s.parting = false

instance (s : Serving) : Decidable s.Gone := by
  rw [Serving.Gone]
  infer_instance

def Serving.Keeps (s : Serving) (c : ContextId) : Prop := s.context = some c ∧ ¬s.Gone

/-- No context has two owners, and the pool owns what no request keeps. -/
structure Owned (st : ServeState) : Prop where
  nodup : st.pool.Nodup
  pooled : ∀ c ∈ st.pool, c < st.constructed
  kept : ∀ r c, (st.serving r).Keeps c → c < st.constructed ∧ c ∉ st.pool
  alone : ∀ r q c, (st.serving r).Keeps c → (st.serving q).Keeps c → r = q

structure Sound (config : AppConfig) (st : ServeState) : Prop where
  gate : GateInv config.overload st.lifecycle
  counted : ∀ r, st.decrements r = if st.lifecycle.phase r = .released then 1 else 0
  contexts : Owned st
  returned : ∀ r, st.returns r = if (st.serving r).Gone then 1 else 0
  parted : ∀ r, (st.serving r).parting = true → (st.serving r).retired = true
  /-- The slot of a kept context tells who won the race. -/
  flags : ∀ r c, (st.serving r).Keeps c →
    (st.deadlineAnswered c = true ↔ (st.serving r).answer = some .deadline)
  callbacks : st.lifecycle.callbacks = st.subscribed

structure Touches (r : RequestId) (st st' : ServeState) : Prop where
  serving : ∀ q, q ≠ r → st'.serving q = st.serving q
  phase : ∀ q, q ≠ r → st'.lifecycle.phase q = st.lifecycle.phase q
  microtasks : st'.microtasks = st.microtasks

variable {config : AppConfig} {st st' mid : ServeState} {r : RequestId}

theorem Touches.refl (r : RequestId) (st : ServeState) : Touches r st st :=
  ⟨fun _ _ => rfl, fun _ _ => rfl, rfl⟩

theorem Touches.trans (h : Touches r st mid) (h' : Touches r mid st') : Touches r st st' :=
  ⟨fun q hq => (h'.serving q hq).trans (h.serving q hq),
    fun q hq => (h'.phase q hq).trans (h.phase q hq), h'.microtasks.trans h.microtasks⟩

/-! ### Updates of a request's variables -/

@[simp] theorem setServing_serving_self (st : ServeState) (r : RequestId) (s : Serving) :
    (st.setServing r s).serving r = s := Function.update_self _ _ _

theorem setServing_serving_ne (st : ServeState) {r q : RequestId} (h : q ≠ r) (s : Serving) :
    (st.setServing r s).serving q = st.serving q := Function.update_of_ne h _ _

@[simp] theorem setServing_lifecycle (st : ServeState) (r : RequestId) (s : Serving) :
    (st.setServing r s).lifecycle = st.lifecycle := rfl

theorem setServing_touches (st : ServeState) (r : RequestId) (s : Serving) :
    Touches r st (st.setServing r s) :=
  ⟨fun _ hq => setServing_serving_ne st hq s, fun _ _ => rfl, rfl⟩

/-- What holds of the new variables and of every other request's holds of all. -/
theorem forall_setServing {P : RequestId → Serving → Prop} {s : Serving} (hr : P r s)
    (hother : ∀ q, q ≠ r → P q (st.serving q)) (q : RequestId) :
    P q ((st.setServing r s).serving q) := by
  by_cases heq : q = r
  · subst heq
    rw [setServing_serving_self]
    exact hr
  · rw [setServing_serving_ne st heq]
    exact hother q heq

/-- A request never gains a context by an update of its variables. -/
theorem Owned.setServing (h : Owned st) {s : Serving}
    (hkeeps : ∀ c, s.Keeps c → (st.serving r).Keeps c) : Owned (st.setServing r s) := by
  have hback : ∀ q c, ((st.setServing r s).serving q).Keeps c → (st.serving q).Keeps c := by
    intro q
    exact forall_setServing (P := fun q s => ∀ c, s.Keeps c → (st.serving q).Keeps c) hkeeps
      (fun q _ c hc => hc) q
  exact ⟨h.nodup, h.pooled, fun q c hc => h.kept q c (hback q c hc),
    fun q q' c hq hq' => h.alone q q' c (hback q c hq) (hback q' c hq')⟩

/-- The variables of the closures that have no part in retiring. -/
structure SameContext (s s' : Serving) : Prop where
  context : s'.context = s.context
  answer : s'.answer = some .deadline ↔ s.answer = some .deadline
  retired : s'.retired = s.retired
  parting : s'.parting = s.parting

theorem SameContext.gone {s s' : Serving} (h : SameContext s s') : s'.Gone ↔ s.Gone := by
  rw [Serving.Gone, Serving.Gone, h.retired, h.parting]

theorem SameContext.keeps {s s' : Serving} (h : SameContext s s') (c : ContextId) :
    s'.Keeps c ↔ s.Keeps c := by
  rw [Serving.Keeps, Serving.Keeps, h.context, h.gone]

theorem Sound.setServing (h : Sound config st) {s : Serving}
    (hsame : SameContext (st.serving r) s) : Sound config (st.setServing r s) where
  gate := h.gate
  counted := h.counted
  contexts := h.contexts.setServing fun c => (hsame.keeps c).mp
  returned := forall_setServing (P := fun q s => st.returns q = if s.Gone then 1 else 0)
    ((h.returned r).trans (if_congr hsame.gone rfl rfl).symm) fun q _ => h.returned q
  parted := forall_setServing (P := fun _ s => s.parting = true → s.retired = true)
    (by rw [hsame.parting, hsame.retired]; exact h.parted r) fun q _ => h.parted q
  flags := forall_setServing
    (P := fun _ s => ∀ c, s.Keeps c → (st.deadlineAnswered c = true ↔ s.answer = some .deadline))
    (by
      intro c hc
      rw [hsame.answer]
      exact h.flags r c ((hsame.keeps c).mp hc))
    fun q _ => h.flags q
  callbacks := h.callbacks

theorem Sound.setStage (h : Sound config st) (stage : Stage) :
    Sound config (st.setStage r stage) :=
  h.setServing ⟨rfl, Iff.rfl, rfl, rfl⟩

/-- The microtasks have no part in it. -/
theorem Sound.setMicrotasks (h : Sound config st) (microtasks : List Microtask) :
    Sound config { st with microtasks } :=
  ⟨h.gate, h.counted, ⟨h.contexts.nodup, h.contexts.pooled, h.contexts.kept, h.contexts.alone⟩,
    h.returned, h.parted, h.flags, h.callbacks⟩

/-! ### Leaving the counter -/

theorem leave_touches {lc : LifecycleState}
    (hphase : ∀ q, q ≠ r → lc.phase q = st.lifecycle.phase q) : Touches r st (st.leave r lc) :=
  ⟨fun _ _ => rfl, hphase, rfl⟩

theorem leave_phase_self (st : ServeState) (r : RequestId) :
    (st.lifecycle.setPhase r .released).phase r = .released := Function.update_self _ _ _

theorem leave_phase_ne (st : ServeState) {r q : RequestId} (h : q ≠ r) :
    (st.lifecycle.setPhase r .released).phase q = st.lifecycle.phase q :=
  Function.update_of_ne h _ _

theorem Sound.leave (h : Sound config st) (hr : st.lifecycle.phase r = .running)
    {lc : LifecycleState} (hgate : GateInv config.overload lc)
    (hlc : Undisturbed (st.lifecycle.setPhase r .released) lc) : Sound config (st.leave r lc) where
  gate := hgate
  counted := by
    intro q
    show Function.update st.decrements r (st.decrements r + 1) q =
      if lc.phase q = .released then 1 else 0
    rw [hlc.phase]
    by_cases heq : q = r
    · subst heq
      rw [Function.update_self, leave_phase_self, h.counted q, hr]
      rfl
    · rw [Function.update_of_ne heq, leave_phase_ne st heq]
      exact h.counted q
  contexts := ⟨h.contexts.nodup, h.contexts.pooled, h.contexts.kept, h.contexts.alone⟩
  returned := h.returned
  parted := h.parted
  flags := h.flags
  callbacks := hlc.callbacks.trans h.callbacks

theorem Sound.releaseInFlight (h : Sound config st) (hr : st.lifecycle.phase r = .running) :
    Sound config (st.releaseInFlight config r) :=
  h.leave hr (h.gate.release hr) (releaseInFlight_undisturbed _ _)

theorem releaseInFlight_phase_self (config : AppConfig) (st : ServeState) (r : RequestId) :
    (st.releaseInFlight config r).lifecycle.phase r = .released := by
  show (Core.releaseInFlight config.overload _).phase r = _
  rw [(releaseInFlight_undisturbed _ _).phase]
  exact leave_phase_self st r

theorem releaseInFlight_touches (config : AppConfig) (st : ServeState) (r : RequestId) :
    Touches r st (st.releaseInFlight config r) := by
  refine leave_touches ?_
  intro q hq
  rw [(releaseInFlight_undisturbed _ _).phase]
  exact leave_phase_ne st hq

/-- Without a bound and without close waiters a release is a bare decrement. -/
theorem releaseInFlight_none {lc : LifecycleState} (h : lc.closeWaiters = []) :
    Core.releaseInFlight none lc = { lc with inFlight := lc.inFlight - 1 } := by
  have hcapped : ¬(lc.queue ≠ [] ∧ (none : Option LifecycleOverload).isSome) := by simp
  rw [Core.releaseInFlight]
  dsimp only
  rw [if_neg hcapped]
  exact if_neg fun hne => hne.2 h

/-- No close waiter exists before an application starts draining, so an uncapped
one settles as the others do. -/
theorem settle_eq (h : GateInv config.overload st.lifecycle) (r : RequestId) (value : Reply) :
    st.settle config r value = st.settleRequest config r value := by
  rw [ServeState.settle]
  cases hover : config.overload with
  | some overload => rfl
  | none =>
      show st.settleUncappedRequest config r value = _
      rw [ServeState.settleUncappedRequest]
      split
      · rfl
      · next hd =>
          have hquiet : (st.lifecycle.setPhase r .released).closeWaiters = [] :=
            h.quiet (Bool.not_eq_true _ ▸ hd)
          rw [ServeState.settleRequest, if_neg fun hdrain => hd hdrain.1,
            ServeState.releaseInFlight, hover, releaseInFlight_none hquiet]

end Keala.Core
