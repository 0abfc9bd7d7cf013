import Keala.Core.GateFrames
import Keala.Core.Close

/-!
What a graceful close keeps: the bookkeeping of its promises, and the order in
which it calls the shutdown handlers.
-/

namespace Keala.Core

/-! ### The gate while it drains -/

theorem releaseInFlight_drained (overload : Option LifecycleOverload) (lc : LifecycleState)
    (h : lc.queue = []) :
    (releaseInFlight overload lc).inFlight = lc.inFlight - 1 ∧
      (((releaseInFlight overload lc).woken = lc.woken ∧
          (releaseInFlight overload lc).closeWaiters = lc.closeWaiters) ∨
        (releaseInFlight overload lc).woken = lc.woken ++ lc.closeWaiters ∧
          (releaseInFlight overload lc).closeWaiters = [] ∧ lc.inFlight - 1 = 0) := by
  rw [releaseInFlight]
  dsimp only
  rw [if_neg (c := lc.queue ≠ [] ∧ overload.isSome) fun hne => hne.1 h]
  split
  · next hzero => exact ⟨rfl, .inr ⟨rfl, rfl, hzero.1⟩⟩
  · exact ⟨rfl, .inl ⟨rfl, rfl⟩⟩

/-- While the gate drains the counter only falls, and the waiters are woken
together, at zero. -/
structure Drains (lc lc' : LifecycleState) : Prop where
  draining : lc'.draining = true
  inFlight : lc'.inFlight ≤ lc.inFlight
  waiters : (lc'.woken = lc.woken ∧ lc'.closeWaiters = lc.closeWaiters) ∨
    lc'.woken = lc.woken ++ lc.closeWaiters ∧ lc'.closeWaiters = [] ∧ lc'.inFlight = 0

theorem GateInv.drains {overload : Option LifecycleOverload} {lc lc' : LifecycleState}
    {e : GateEvent} (h : GateInv overload lc) (hd : lc.draining = true) (he : e.own = true)
    (hstep : gateStep overload lc e = some lc') : Drains lc lc' := by
  -- While it drains nobody waits in the queue, so nothing but a release moves the counter.
  have hqueue := h.drained hd
  have hdraining := (h.draining_step hd hstep).1
  cases e with
  | arrive r =>
      rw [gateStep] at hstep
      split at hstep
      · cases hstep
        rw [Core.admitRequest.eq_def, if_pos hd]
        exact ⟨hd, le_refl _, .inl ⟨rfl, rfl⟩⟩
      · cases hstep
  | wake r =>
      rw [gateStep] at hstep
      split at hstep
      · next hr =>
          obtain ⟨value, hvalue, rfl⟩ := Option.map_eq_some_iff.mp hstep
          have hsettled := h.slots.settled_eq hvalue
          have htaken := h.slots.taken_iff r hr
          rw [hsettled, List.singleton_inj] at htaken
          cases value with
          | admitted =>
              have hheld : Core.wakeRequest overload lc r .admitted = lc.setPhase r .running := by
                rw [Core.wakeRequest, if_pos (htaken.mpr rfl)]
              rw [hheld]
              exact ⟨hd, le_refl _, .inl ⟨rfl, rfl⟩⟩
          | refused reason =>
              have hfalse : lc.taken r = false := by
                rw [← Bool.not_eq_true, htaken]
                simp
              have hheld : Core.wakeRequest overload lc r (.refused reason) =
                  lc.setPhase r .refused := by
                rw [Core.wakeRequest, Core.refuseRequest,
                  if_neg (by rw [hfalse]; exact Bool.false_ne_true)]
              rw [hheld]
              exact ⟨hd, le_refl _, .inl ⟨rfl, rfl⟩⟩
      · cases hstep
  | release r =>
      rw [gateStep] at hstep
      split at hstep
      · cases hstep
        obtain ⟨hcount, hwaiters⟩ := releaseInFlight_drained overload
          (lc.setPhase r .released) hqueue
        refine ⟨hdraining, ?_, ?_⟩
        · rw [hcount]
          change lc.inFlight - 1 ≤ lc.inFlight
          omega
        · rcases hwaiters with hkept | ⟨hwoken, hnone, hzero⟩
          · exact .inl hkept
          · exact .inr ⟨hwoken, hnone, hcount.trans hzero⟩
      · cases hstep
  | timeout s =>
      rw [gateStep] at hstep
      split at hstep
      · next ht =>
          have hs := h.slots.mem_queue_of_timer ht
          rw [hqueue] at hs
          exact absurd hs List.not_mem_nil
      · cases hstep
  | abort r =>
      rw [gateStep] at hstep
      split at hstep
      · cases hstep
      · cases hstep
        have hnone : lc.listeners r = [] := by
          rw [List.eq_nil_iff_forall_not_mem]
          intro s hs
          have hmem := (h.slots.listened r s hs).1
          rw [hqueue] at hmem
          exact List.not_mem_nil hmem
        rw [Core.abortRequest, hnone]
        exact ⟨hd, le_refl _, .inl ⟨rfl, rfl⟩⟩
  | close => cases he
  | subscribe waiter => cases he

theorem startDraining_draining {lc : LifecycleState} (hd : lc.draining = true)
    (hqueue : lc.queue = []) : startDraining lc = lc := by
  rw [startDraining, hqueue, List.foldl_nil]
  rw [show { lc with draining := true, queue := [] } = lc by rw [← hd, ← hqueue]]

/-! ### The invariant -/

def CloseState.through (s : CloseState) : List ℕ := s.pending ++ s.settled.map Prod.fst

def CloseState.behind (s : CloseState) : List Hook :=
  match s.loop with
  | none => []
  | some loop => if loop.called then loop.rest else loop.hook :: loop.rest

/-- What the variables of the promises say of each other. -/
structure Books (overload : Option LifecycleOverload) (s : CloseState) : Prop where
  gate : GateInv overload s.lifecycle
  draining : 0 < s.made → s.lifecycle.draining = true
  fresh : ∀ k, s.made ≤ k → (s.runs k).ended = none ∧ (s.runs k).timer = false
  callbacks : ∀ k ∈ s.lifecycle.callbacks, k < s.made
  escalate : ∀ k, s.escalate = some k → k < s.made
  nodup : s.through.Nodup
  ended : ∀ k ∈ s.through, (s.runs k).ended.isSome
  zero : ∀ k, (s.runs k).ended = some .zero → s.lifecycle.inFlight = 0
  settled : ∀ k status, (k, status) ∈ s.settled → status.timedOut = false → status.inFlight = 0
  indexed : s.registered.map Hook.index = List.range s.registered.length
  answered : ∀ promise, (false, promise) ∈ s.returned → promise = 0
  promised : s.creating = false → s.closePromise = if s.made = 0 then none else some 0

structure Idle (s : CloseState) : Prop where
  ran : s.shutdownRan = false
  handlers : s.shutdownHandlers = s.registered
  awaited : s.awaited = []
  started : s.started = []
  loop : s.loop = none
  pending : s.pending = []
  settled : s.settled = []

structure Waiting (s : CloseState) : Prop where
  idle : Idle s
  made : s.made ≤ 1
  ended : ∀ k, (s.runs k).ended = none

/-- The loop of the first promise has taken the handlers, and has `hooks` before it. -/
structure Between (s : CloseState) (hooks : List Hook) : Prop where
  ran : s.shutdownRan = true
  made : 0 < s.made
  ended : (s.runs 0).ended.isSome
  registered : s.registered = s.awaited ++ s.shutdownHandlers
  awaited : s.awaited = s.started ++ hooks

/-- A drain has ended and the loop is under way, or through. -/
structure Ran (s : CloseState) : Prop where
  between : Between s s.behind
  loop : ∀ loop, s.loop = some loop → loop.close = 0 ∧ loop.cap = (s.runs 0).cap
  through : 0 ∈ s.through ↔ s.loop = none

structure CloseInv (overload : Option LifecycleOverload) (s : CloseState) : Prop where
  books : Books overload s
  phase : Waiting s ∨ Ran s

structure Ending (overload : Option LifecycleOverload) (s : CloseState) (k : ℕ) : Prop where
  books : Books overload s
  made : k < s.made
  ended : (s.runs k).ended.isSome
  through : k ∉ s.through
  phase : Idle s ∧ k = 0 ∨ Ran s ∧ k ≠ 0

/-! ### What a call keeps -/

structure Later (s s' : CloseState) : Prop where
  made : s.made ≤ s'.made
  cap : ∀ k, k < s.made → (s'.runs k).cap = (s.runs k).cap
  ended : ∀ k why, (s.runs k).ended = some why → (s'.runs k).ended = some why
  taken : s.shutdownRan = false → s'.shutdownRan = true → s'.awaited = s.registered
  kept : s.shutdownRan = true → s'.shutdownRan = true ∧ s'.awaited = s.awaited
  promise : ∀ k, s.closePromise = some k → s'.closePromise = some k ∧ s'.made = s.made

/-- What the calls of `close()` and the loop leave alone. -/
structure Moves (s s' : CloseState) : Prop extends Later s s' where
  creating : s'.creating = s.creating
  registered : s'.registered = s.registered
  settled : s'.settled = s.settled
  draining : s.lifecycle.draining = true →
    s'.lifecycle.draining = true ∧ s'.lifecycle.inFlight = s.lifecycle.inFlight

/-- A call after the handlers were taken leaves the loop alone. -/
structure Aside (s s' : CloseState) : Prop where
  loop : s'.loop = s.loop
  started : s'.started = s.started

theorem Later.refl (s : CloseState) : Later s s where
  made := le_refl _
  cap _ _ := rfl
  ended _ _ h := h
  taken h h' := by
    rw [h] at h'
    cases h'
  kept h := ⟨h, rfl⟩
  promise _ h := ⟨h, rfl⟩

theorem Moves.refl (s : CloseState) : Moves s s :=
  { Later.refl s with
    creating := rfl
    registered := rfl
    settled := rfl
    draining := fun h => ⟨h, rfl⟩ }

theorem Moves.trans {s mid s' : CloseState} (h : Moves s mid) (h' : Moves mid s') : Moves s s' where
  made := h.made.trans h'.made
  cap k hk := (h'.cap k (hk.trans_le h.made)).trans (h.cap k hk)
  ended k why hk := h'.ended k why (h.ended k why hk)
  taken hs hs' := by
    by_cases hmid : mid.shutdownRan = true
    · rw [(h'.kept hmid).2, h.taken hs hmid]
    · rw [h'.taken (by simpa using hmid) hs', h.registered]
  kept hs := by
    obtain ⟨hmid, hawaited⟩ := h.kept hs
    exact ⟨(h'.kept hmid).1, (h'.kept hmid).2.trans hawaited⟩
  promise k hk := by
    obtain ⟨hmid, hmade⟩ := h.promise k hk
    exact ⟨(h'.promise k hmid).1, (h'.promise k hmid).2.trans hmade⟩
  creating := h'.creating.trans h.creating
  registered := h'.registered.trans h.registered
  settled := h'.settled.trans h.settled
  draining hd := by
    obtain ⟨hmid, hcount⟩ := h.draining hd
    exact ⟨(h'.draining hmid).1, (h'.draining hmid).2.trans hcount⟩

theorem Aside.refl (s : CloseState) : Aside s s := ⟨rfl, rfl⟩

theorem Aside.trans {s mid s' : CloseState} (h : Aside s mid) (h' : Aside mid s') : Aside s s' :=
  ⟨h'.loop.trans h.loop, h'.started.trans h.started⟩

def Goes (s s' : CloseState) : Prop := Moves s s' ∧ (s.shutdownRan = true → Aside s s')

theorem Goes.refl (s : CloseState) : Goes s s := ⟨.refl s, fun _ => .refl s⟩

theorem Goes.trans {s mid s' : CloseState} (h : Goes s mid) (h' : Goes mid s') : Goes s s' :=
  ⟨h.1.trans h'.1, fun hs => (h.2 hs).trans (h'.2 (h.1.kept hs).1)⟩

/-! ### The variables of a promise -/

@[simp] theorem CloseState.setRun_self (s : CloseState) (k : ℕ) (run : CloseRun) :
    (s.setRun k run).runs k = run := by
  rw [setRun]
  exact Function.update_self k run s.runs

theorem CloseState.setRun_of_ne (s : CloseState) {k j : ℕ} (run : CloseRun) (h : j ≠ k) :
    (s.setRun k run).runs j = s.runs j := by
  rw [setRun]
  exact Function.update_of_ne h run s.runs

theorem Books.setRun {overload : Option LifecycleOverload} {s : CloseState} (h : Books overload s)
    {k : ℕ} (hk : k < s.made) {run : CloseRun} (hended : (s.runs k).ended.isSome → run.ended.isSome)
    (hzero : run.ended = some .zero → s.lifecycle.inFlight = 0) :
    Books overload (s.setRun k run) :=
  { h with
    fresh := by
      intro j hj
      rw [s.setRun_of_ne run (Nat.ne_of_gt (hk.trans_le hj))]
      exact h.fresh j hj
    ended := by
      intro j hj
      by_cases heq : j = k
      · subst heq
        rw [s.setRun_self]
        exact hended (h.ended j hj)
      · rw [s.setRun_of_ne run heq]
        exact h.ended j hj
    zero := by
      intro j hj
      by_cases heq : j = k
      · subst heq
        rw [s.setRun_self] at hj
        exact hzero hj
      · rw [s.setRun_of_ne run heq] at hj
        exact h.zero j hj }

theorem Moves.setRun {s : CloseState} {k : ℕ} {run : CloseRun}
    (hended : ∀ why, (s.runs k).ended = some why → run.ended = some why)
    (hcap : run.cap = (s.runs k).cap) : Moves s (s.setRun k run) :=
  { Moves.refl s with
    ended := by
      intro j why hj
      by_cases heq : j = k
      · subst heq
        rw [s.setRun_self]
        exact hended why hj
      · rw [s.setRun_of_ne run heq]
        exact hj
    cap := by
      intro j _
      by_cases heq : j = k
      · subst heq
        rw [s.setRun_self]
        exact hcap
      · rw [s.setRun_of_ne run heq] }

/-- The handlers are through for `k`. -/
theorem Books.skip {overload : Option LifecycleOverload} {s : CloseState} (h : Books overload s)
    {k : ℕ} (hk : k ∉ s.through) (hended : (s.runs k).ended.isSome) :
    Books overload (s.skipHandlers k) := by
  have hperm : (s.skipHandlers k).through.Perm (k :: s.through) := by
    change ((s.pending ++ [k]) ++ _).Perm _
    rw [List.append_assoc, List.singleton_append]
    exact List.perm_middle
  refine { h with nodup := ?_, ended := ?_ }
  · rw [hperm.nodup_iff]
    exact List.nodup_cons.mpr ⟨hk, h.nodup⟩
  · intro j hj
    rcases List.mem_cons.mp (hperm.mem_iff.mp hj) with rfl | hj
    · exact hended
    · exact h.ended j hj

end Keala.Core
