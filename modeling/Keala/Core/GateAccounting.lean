import Keala.Core.GateArrivals

/-!
Every event keeps the invariant of the gate, so every run does; from it the
capacity accounting follows.
-/

namespace Keala.Core

/-! ### Runs -/

theorem SlotsCoherent.settled_eq {lc : LifecycleState} (h : SlotsCoherent lc) {r : RequestId}
    {value : Verdict} (hvalue : (lc.settlements r).head? = some value) :
    lc.settlements r = [value] := by
  have honce := h.settled_once r
  cases hl : lc.settlements r with
  | nil => rw [hl] at hvalue; cases hvalue
  | cons v vs =>
      rw [hl] at hvalue honce
      cases hvalue
      rw [List.length_cons] at honce
      rw [List.length_eq_zero_iff.mp (by omega : vs.length = 0)]

theorem GateInv.wakeRequest {overload : Option LifecycleOverload} {lc : LifecycleState}
    (h : GateInv overload lc) {r : RequestId} {value : Verdict} (hr : lc.phase r = .waiting)
    (hvalue : (lc.settlements r).head? = some value) :
    GateInv overload (wakeRequest overload lc r value) := by
  have hsettled := h.slots.settled_eq hvalue
  have hnot : ¬(lc.phase r = .waiting ∧ lc.settlements r = []) := by
    rintro ⟨-, hnil⟩
    exact absurd (hsettled.symm.trans hnil) (by simp)
  have htaken := h.slots.taken_iff r hr
  rw [hsettled, List.singleton_inj] at htaken
  cases value with
  | admitted =>
      show GateInv overload (if lc.taken r then lc.setPhase r .running else _)
      rw [if_pos (htaken.mpr rfl)]
      exact h.setPhase hnot (by decide) (by decide) (iff_of_true rfl (.inr ⟨hr, hsettled⟩))
  | refused reason =>
      have hfalse : lc.taken r = false := by
        rw [← Bool.not_eq_true, htaken]
        simp
      refine h.refuseRequest hfalse hnot ?_
      rintro (hrun | ⟨-, hadmitted⟩)
      · exact absurd (hr.symm.trans hrun) (by decide)
      · exact absurd (hsettled.symm.trans hadmitted) (by simp)

theorem createLifecycle_not_waiting {r : RequestId} (hr : createLifecycle.phase r = .waiting) :
    False :=
  Phase.noConfusion (show Phase.unseen = .waiting from hr)

theorem createLifecycle_inv (overload : Option LifecycleOverload) :
    GateInv overload createLifecycle := by
  refine ⟨⟨List.nodup_nil, fun s hs => absurd hs List.not_mem_nil, fun _ _ => rfl, List.nodup_nil,
    fun s hs => absurd hs List.not_mem_nil, fun s hs => absurd hs List.not_mem_nil,
    fun r s hs => absurd hs List.not_mem_nil, fun r hr => (createLifecycle_not_waiting hr).elim,
    fun _ => Nat.zero_le _, fun _ _ => ⟨rfl, rfl⟩,
    fun r hr => (createLifecycle_not_waiting hr).elim⟩,
    ⟨∅, ?_, rfl⟩, ⟨List.Sublist.refl [], List.nodup_nil, fun r hr => absurd hr List.not_mem_nil⟩,
    fun m _ => Int.natCast_nonneg m, fun hne => absurd rfl hne, fun _ _ => Nat.zero_le _,
    fun _ => rfl, fun _ => rfl, fun _ => rfl⟩
  intro r
  exact iff_of_false (Finset.notMem_empty r) (not_holds_of_unseen rfl)

theorem GateInv.step {overload : Option LifecycleOverload} {lc lc' : LifecycleState}
    {e : GateEvent} (h : GateInv overload lc) (hstep : gateStep overload lc e = some lc') :
    GateInv overload lc' := by
  cases e with
  | arrive r =>
      rw [gateStep] at hstep
      split at hstep
      · next hr =>
          cases hstep
          exact h.admitRequest hr
      · cases hstep
  | wake r =>
      rw [gateStep] at hstep
      split at hstep
      · next hr =>
          obtain ⟨value, hvalue, rfl⟩ := Option.map_eq_some_iff.mp hstep
          exact h.wakeRequest hr hvalue
      · cases hstep
  | release r =>
      rw [gateStep] at hstep
      split at hstep
      · next hr =>
          cases hstep
          exact h.release hr
      · cases hstep
  | timeout s =>
      rw [gateStep] at hstep
      split at hstep
      · next ht =>
          cases hstep
          exact h.leaveSlot (h.slots.mem_queue_of_timer ht)
      · cases hstep
  | abort r =>
      rw [gateStep] at hstep
      split at hstep
      · cases hstep
      · cases hstep
        exact h.abortRequest r
  | close =>
      rw [gateStep] at hstep
      split at hstep
      · cases hstep
      · cases hstep
        exact h.startDraining
  | subscribe waiter =>
      rw [gateStep] at hstep
      split at hstep
      · next hd =>
          cases hstep
          rw [subscribeSettled]
          split
          · exact h
          · next hne =>
              exact ⟨h.slots.congr rfl rfl rfl rfl rfl rfl rfl rfl,
                h.counted.congr (fun _ => Iff.rfl) rfl,
                ⟨h.order.sublist, h.order.nodup, h.order.seen⟩, h.limit, h.full, h.short,
                h.drained, fun hf => absurd (hd.symm.trans hf) (by decide),
                fun hzero => absurd hzero hne⟩
      · cases hstep

theorem gate_inv {overload : Option LifecycleOverload} {lc : LifecycleState}
    (h : (gate overload).Reachable lc) : GateInv overload lc :=
  h.invariant (createLifecycle_inv overload) fun _ _ _ hinv hstep => hinv.step hstep

/-! ### Draining -/

theorem releaseInFlight_of_queue_nil (overload : Option LifecycleOverload) (lc : LifecycleState)
    (h : lc.queue = []) : (releaseInFlight overload lc).phase = lc.phase ∧
      (releaseInFlight overload lc).settlements = lc.settlements ∧
      (releaseInFlight overload lc).draining = lc.draining := by
  rw [releaseInFlight]
  dsimp only
  rw [if_neg (c := lc.queue ≠ [] ∧ overload.isSome) fun hne => hne.1 h]
  split
  · exact ⟨rfl, rfl, rfl⟩
  · exact ⟨rfl, rfl, rfl⟩

theorem admitted_setPhase {lc : LifecycleState} {r q : RequestId} {phase : Phase}
    (hwaiting : phase ≠ .waiting)
    (hr : phase = .running ∨ phase = .released → lc.Admitted r)
    (h : (lc.setPhase r phase).Admitted q) : lc.Admitted q := by
  by_cases heq : q = r
  · subst heq
    rcases h with h | h
    · rw [holds_setPhase, if_pos rfl] at h
      exact hr (.inl (h.resolve_right fun hw => hwaiting hw.1))
    · change Function.update lc.phase q phase q = .released at h
      rw [Function.update_self] at h
      exact hr (.inr h)
  · rcases h with h | h
    · rw [holds_setPhase, if_neg heq] at h
      exact .inl h
    · change Function.update lc.phase r phase q = .released at h
      rw [Function.update_of_ne heq] at h
      exact .inr h

theorem refuseRequest_admitted {overload : Option LifecycleOverload} {lc : LifecycleState}
    {r q : RequestId} (htaken : lc.taken r = false)
    (h : (refuseRequest overload lc r).Admitted q) : lc.Admitted q := by
  rw [refuseRequest, if_neg (by rw [htaken]; exact Bool.false_ne_true)] at h
  exact admitted_setPhase (by decide) (by simp) h

theorem refuseRequest_draining {overload : Option LifecycleOverload} {lc : LifecycleState}
    {r : RequestId} (htaken : lc.taken r = false) :
    (refuseRequest overload lc r).draining = lc.draining := by
  rw [refuseRequest, if_neg (by rw [htaken]; exact Bool.false_ne_true)]
  rfl

/-- While draining, no event admits a request. -/
theorem GateInv.draining_step {overload : Option LifecycleOverload} {lc lc' : LifecycleState}
    {e : GateEvent} (h : GateInv overload lc) (hd : lc.draining = true)
    (hstep : gateStep overload lc e = some lc') :
    lc'.draining = true ∧ ∀ q, lc'.Admitted q → lc.Admitted q := by
  -- The queue has been rejected: no slot is left that could be admitted.
  have hqueue := h.drained hd
  cases e with
  | arrive r =>
      rw [gateStep] at hstep
      split at hstep
      · cases hstep
        rw [Core.admitRequest.eq_def, if_pos hd]
        exact ⟨hd, fun q => admitted_setPhase (by decide) (by simp)⟩
      · cases hstep
  | wake r =>
      rw [gateStep] at hstep
      split at hstep
      · next hr =>
          obtain ⟨value, hvalue, rfl⟩ := Option.map_eq_some_iff.mp hstep
          have hsettled := h.slots.settled_eq hvalue
          have htaken := h.slots.taken_iff r hr
          rw [hsettled, List.singleton_inj] at htaken
          cases value with
          | admitted =>
              show (if lc.taken r then lc.setPhase r .running else _).draining = true ∧
                ∀ q, (if lc.taken r then lc.setPhase r .running else _).Admitted q → lc.Admitted q
              rw [if_pos (htaken.mpr rfl)]
              exact ⟨hd, fun q => admitted_setPhase (by decide)
                fun _ => .inl (.inr ⟨hr, hsettled⟩)⟩
          | refused reason =>
              have hfalse : lc.taken r = false := by
                rw [← Bool.not_eq_true, htaken]
                simp
              exact ⟨(refuseRequest_draining hfalse).trans hd,
                fun q => refuseRequest_admitted hfalse⟩
      · cases hstep
  | release r =>
      rw [gateStep] at hstep
      split at hstep
      · next hr =>
          -- A release would refill from the queue, which is empty.
          cases hstep
          obtain ⟨hphase, hsettled, hdraining⟩ := releaseInFlight_of_queue_nil overload
            (lc.setPhase r .released) hqueue
          refine ⟨hdraining.trans hd, ?_⟩
          intro q hq
          have hq' : (lc.setPhase r .released).Admitted q := by
            rw [LifecycleState.Admitted, LifecycleState.Holds, hphase, hsettled] at hq
            exact hq
          exact admitted_setPhase (by decide) (fun _ => .inl (.inl hr)) hq'
      · cases hstep
  | timeout s =>
      rw [gateStep] at hstep
      split at hstep
      · next ht =>
          have hs := h.slots.mem_queue_of_timer ht
          rw [hqueue] at hs
          exact absurd hs List.not_mem_nil
      · cases hstep
  | abort r =>
      rw [gateStep] at hstep
      split at hstep
      · cases hstep
      · cases hstep
        have hnone : lc.listeners r = [] := by
          rw [List.eq_nil_iff_forall_not_mem]
          intro s hs
          have hmem := (h.slots.listened r s hs).1
          rw [hqueue] at hmem
          exact List.not_mem_nil hmem
        rw [Core.abortRequest, hnone]
        exact ⟨hd, fun q hq => hq⟩
  | close =>
      rw [gateStep, if_pos hd] at hstep
      cases hstep
  | subscribe waiter =>
      rw [gateStep, if_pos hd] at hstep
      cases hstep
      rw [subscribeSettled]
      split
      · exact ⟨hd, fun q hq => hq⟩
      · exact ⟨hd, fun q hq => hq⟩

/-! ### The accounting -/

/-- Until its one answer exactly one slot of the queue stands for the request,
then none. -/
def LifecycleState.AnsweredOnce (lc : LifecycleState) (r : RequestId) : Prop :=
  (lc.settlements r = [] ∧ ∃! s, s ∈ lc.queue ∧ lc.slots s = .armedFor r) ∨
    (lc.settlements r).length = 1 ∧ ∀ s ∈ lc.queue, lc.slots s ≠ .armedFor r

/-- A request that waits while it is unanswered is answered once. -/
theorem SlotsCoherent.answered_once {lc : LifecycleState} (h : SlotsCoherent lc) {r : RequestId}
    (hwait : lc.settlements r = [] → lc.phase r = .waiting) : lc.AnsweredOnce r := by
  have honce := h.settled_once r
  rw [LifecycleState.AnsweredOnce]
  cases hsettled : lc.settlements r with
  | nil =>
      obtain ⟨s, hs, hslot⟩ := h.waiting r (hwait hsettled) hsettled
      exact .inl ⟨rfl, s, ⟨hs, hslot⟩, fun s' hs' => h.slot_unique hs'.1 hs hs'.2 hslot⟩
  | cons v vs =>
      rw [hsettled, List.length_cons] at honce
      refine .inr ⟨by rw [List.length_cons]; omega, ?_⟩
      intro s hs hslot
      exact absurd (hsettled.symm.trans (h.armed hs hslot).2.1) (by simp)

/-- A queued request can always leave the queue: its timer is set, and fires
into one answer. -/
theorem GateInv.timeout_answers {overload : Option LifecycleOverload} {lc : LifecycleState}
    (h : GateInv overload lc) {s : SlotId} {r : RequestId} (hs : s ∈ lc.queue)
    (hr : lc.slots s = .armedFor r) : ∃ lc', gateStep overload lc (.timeout s) = some lc' ∧
      lc'.settlements r = [.refused .queue] := by
  refine ⟨Core.refusedSlot lc s r .queue, ?_, Function.update_self _ _ _⟩
  rw [gateStep, if_pos (by rw [hr]; rfl), leaveSlot_eq h.slots hs hr]

/-- Capacity accounting of the gate with the built-in strategies. A request that
waits is in the queue until it is answered. -/
theorem gate_accounting (overload : LifecycleOverload) {m : ℕ}
    (hm : overload.maxConcurrency = some m) {lc : LifecycleState}
    (h : (gate (some overload)).Reachable lc) :
    (0 ≤ lc.inFlight ∧ lc.inFlight ≤ m) ∧
      (∃ holders : Finset RequestId, (∀ r, r ∈ holders ↔ lc.Holds r) ∧
        lc.inFlight = holders.card) ∧
      lc.queue.length ≤ overload.maxQueue ∧
      (lc.queue ≠ [] → lc.inFlight = m) ∧
      (∀ r, r ∈ lc.enqueued ∨ lc.phase r = .waiting → lc.AnsweredOnce r) ∧
      (∀ s ∈ lc.queue, ∀ r, lc.slots s = .armedFor r →
        ∃ lc', gateStep (some overload) lc (.timeout s) = some lc' ∧
          lc'.settlements r = [.refused .queue]) ∧
      (lc.enqueued.Nodup ∧ (lc.transferred ++ lc.waitingRequests).Sublist lc.enqueued) ∧
      (lc.draining = true → lc.queue = [] ∧ ∀ e lc', gateStep (some overload) lc e = some lc' →
        lc'.draining = true ∧ ∀ r, lc'.Admitted r → lc.Admitted r) ∧
      (lc.queue.Nodup ∧ (∀ s ∈ lc.queue, ∃ r, lc.slots s = .armedFor r) ∧
        (∀ s ∈ lc.queue, ∀ s' ∈ lc.queue, lc.slots s = lc.slots s' → s = s') ∧
        ∀ s ∈ lc.waiterPool, s ∉ lc.queue ∧ lc.slots s = .idle) := by
  have hinv := gate_inv h
  have hle : lc.inFlight ≤ m := hinv.limit m hm
  refine ⟨⟨hinv.counted.nonneg, hle⟩, hinv.counted, hinv.short overload rfl, ?_, ?_,
    fun s hs r hr => hinv.timeout_answers hs hr,
    ⟨hinv.order.nodup, hinv.order.sublist⟩, ?_, hinv.slots.queue_nodup, ?_, ?_, ?_⟩
  · intro hne
    have hfull := hinv.full hne
    have hroom : ¬lc.inFlight < m := by
      intro hlt
      have htrue : hasRoom (some overload) lc.inFlight = true := by
        rw [hasRoom_eq_true_iff]
        intro m' hm'
        have heq : m = m' := Option.some.inj (hm.symm.trans hm')
        exact heq ▸ hlt
      exact absurd (htrue.symm.trans hfull) (by decide)
    omega
  · rintro r (hr | hr)
    · exact hinv.slots.answered_once (hinv.order.seen r hr).2
    · exact hinv.slots.answered_once fun _ => hr
  · intro hd
    exact ⟨hinv.drained hd, fun e lc' hstep => hinv.draining_step hd hstep⟩
  · intro s hs
    obtain ⟨r, hr, -⟩ := hinv.slots.queued s hs
    exact ⟨r, hr⟩
  · intro s hs s' hs' heq
    obtain ⟨r, hr, -⟩ := hinv.slots.queued s hs
    exact hinv.slots.slot_unique hs hs' hr (heq ▸ hr)
  · intro s hs
    have hnot := (hinv.slots.pooled s hs).2
    exact ⟨hnot, hinv.slots.idle s hnot⟩

def smallOverload : LifecycleOverload where
  maxConcurrency := some 1
  maxQueue := 1
  queueTimeoutMs := 10
  strategy := .queue
  maxConcurrency_pos := by
    intro m hm
    cases hm
    decide
  queueTimeoutMs_pos := by decide

theorem gate_accounting_small : ∃ lc, (gate (some smallOverload)).runFrom createLifecycle
      [.arrive 0, .arrive 1, .arrive 2, .release 0] = some lc ∧ lc.inFlight ≤ (1 : ℕ) :=
  ⟨_, rfl, (gate_accounting smallOverload rfl
    (Lts.reachable_of_run [.arrive 0, .arrive 1, .arrive 2, .release 0] rfl)).1.2⟩

end Keala.Core
