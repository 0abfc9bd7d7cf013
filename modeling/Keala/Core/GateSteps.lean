import Keala.Core.GateInvariant

/-!
The events by which requests leave the gate: answers, releases, timeouts, aborts
and the start of draining.
-/

namespace Keala.Core

/-! ### States that differ where the invariant does not look -/

theorem SlotsCoherent.congr {lc lc' : LifecycleState} (h : SlotsCoherent lc)
    (hqueue : lc'.queue = lc.queue) (hslots : lc'.slots = lc.slots)
    (hpool : lc'.waiterPool = lc.waiterPool) (hbuilt : lc'.constructed = lc.constructed)
    (hlisten : lc'.listeners = lc.listeners) (hphase : lc'.phase = lc.phase)
    (hsettled : lc'.settlements = lc.settlements) (htaken : lc'.taken = lc.taken) :
    SlotsCoherent lc' := by
  obtain ⟨_, _, queue', pool', _, _, slots', built', taken', settled', _, listen', phase', _,
    _⟩ := lc'
  dsimp only at hqueue hslots hpool hbuilt hlisten hphase hsettled htaken
  subst hqueue hslots hpool hbuilt hlisten hphase hsettled htaken
  exact ⟨h.queue_nodup, h.queued, h.idle, h.pool_nodup, h.pooled, h.built, h.listened, h.waiting,
    h.settled_once, h.unseen, h.taken_iff⟩

/-! ### Phases -/

theorem SlotsCoherent.setPhase {lc : LifecycleState} (h : SlotsCoherent lc) {r : RequestId}
    (hr : ¬(lc.phase r = .waiting ∧ lc.settlements r = [])) {phase : Phase}
    (hwaiting : phase ≠ .waiting) (hunseen : phase ≠ .unseen) :
    SlotsCoherent (lc.setPhase r phase) := by
  refine ⟨h.queue_nodup, ?_, h.idle, h.pool_nodup, h.pooled, h.built, h.listened, ?_,
    h.settled_once, ?_, ?_⟩
  · intro s hs
    obtain ⟨q, hslot, hphase, hsettled, hrest⟩ := h.queued s hs
    have hne : q ≠ r := by
      rintro rfl
      exact hr ⟨hphase, hsettled⟩
    exact ⟨q, hslot, (Function.update_of_ne hne _ _).trans hphase, hsettled, hrest⟩
  · intro q hphase hsettled
    change Function.update lc.phase r phase q = .waiting at hphase
    by_cases heq : q = r
    · subst heq
      rw [Function.update_self] at hphase
      exact absurd hphase hwaiting
    · rw [Function.update_of_ne heq] at hphase
      exact h.waiting q hphase hsettled
  · intro q hphase
    change Function.update lc.phase r phase q = .unseen at hphase
    by_cases heq : q = r
    · subst heq
      rw [Function.update_self] at hphase
      exact absurd hphase hunseen
    · rw [Function.update_of_ne heq] at hphase
      exact h.unseen q hphase
  · intro q hphase
    change Function.update lc.phase r phase q = .waiting at hphase
    by_cases heq : q = r
    · subst heq
      rw [Function.update_self] at hphase
      exact absurd hphase hwaiting
    · rw [Function.update_of_ne heq] at hphase
      exact h.taken_iff q hphase

theorem InOrder.setPhase {lc : LifecycleState} (h : InOrder lc) {r : RequestId}
    (hr : ¬(lc.phase r = .waiting ∧ lc.settlements r = [])) {phase : Phase}
    (hunseen : phase ≠ .unseen) : InOrder (lc.setPhase r phase) := by
  refine ⟨h.sublist, h.nodup, ?_⟩
  intro q hq
  obtain ⟨hseen, hwait⟩ := h.seen q hq
  show Function.update lc.phase r phase q ≠ .unseen ∧
    (lc.settlements q = [] → Function.update lc.phase r phase q = .waiting)
  by_cases heq : q = r
  · subst heq
    rw [Function.update_self]
    exact ⟨hunseen, fun hsettled => absurd ⟨hwait hsettled, hsettled⟩ hr⟩
  · rw [Function.update_of_ne heq]
    exact ⟨hseen, hwait⟩

/-- A request that is answered without touching the counter. -/
theorem GateInv.setPhase {overload : Option LifecycleOverload} {lc : LifecycleState}
    (h : GateInv overload lc) {r : RequestId}
    (hr : ¬(lc.phase r = .waiting ∧ lc.settlements r = [])) {phase : Phase}
    (hwaiting : phase ≠ .waiting) (hunseen : phase ≠ .unseen)
    (hholds : phase = .running ↔ lc.Holds r) : GateInv overload (lc.setPhase r phase) := by
  refine ⟨h.slots.setPhase hr hwaiting hunseen, h.counted.congr ?_ rfl,
    h.order.setPhase hr hunseen, h.limit, h.full, h.short, h.drained, h.quiet, h.woken⟩
  intro q
  rw [holds_setPhase]
  split
  · next heq =>
      subst heq
      rw [← hholds]
      exact or_iff_left fun hw => hwaiting hw.1
  · exact Iff.rfl

/-- A request that holds nothing is refused. -/
theorem GateInv.refuseRequest {overload : Option LifecycleOverload} {lc : LifecycleState}
    (h : GateInv overload lc) {r : RequestId} (htaken : lc.taken r = false)
    (hr : ¬(lc.phase r = .waiting ∧ lc.settlements r = [])) (hholds : ¬lc.Holds r) :
    GateInv overload (refuseRequest overload lc r) := by
  rw [Core.refuseRequest]
  rw [if_neg (by rw [htaken]; exact Bool.false_ne_true)]
  exact h.setPhase hr (by decide) (by decide) (iff_of_false (by decide) hholds)

/-! ### Releases -/

theorem gateInv_releaseInFlight {overload : Option LifecycleOverload} {lc : LifecycleState}
    (h : SlotsCoherent lc) (horder : InOrder lc)
    (hcount : Counted { lc with inFlight := lc.inFlight - 1 })
    (hlimit : WithinLimit overload (lc.inFlight - 1))
    (hsome : lc.queue ≠ [] → overload.isSome = true)
    (hshort : ∀ config, overload = some config → lc.queue.length ≤ config.maxQueue)
    (hdrained : lc.draining = true → lc.queue = [])
    (hquiet : lc.draining = false → lc.closeWaiters = []) :
    GateInv overload (releaseInFlight overload lc) := by
  have hslots : SlotsCoherent { lc with inFlight := lc.inFlight - 1 } :=
    h.congr rfl rfl rfl rfl rfl rfl rfl rfl
  have horder' : InOrder { lc with inFlight := lc.inFlight - 1 } :=
    ⟨horder.sublist, horder.nodup, horder.seen⟩
  have hrefilled : Refilled overload lc
      (if lc.queue ≠ [] ∧ overload.isSome then
        refillFromQueue overload lc.queue { lc with inFlight := lc.inFlight - 1 }
      else { lc with inFlight := lc.inFlight - 1 }) := by
    split
    · have hr := refillFromQueue_refilled overload lc.queue { lc with inFlight := lc.inFlight - 1 }
        rfl hslots hcount horder' hlimit
      exact ⟨hr.slots, hr.counted, hr.order, hr.limit, hr.full, hr.short, hr.phase, hr.draining,
        hr.closeWaiters⟩
    · next hno =>
        have hempty : lc.queue = [] := by
          by_contra hne
          exact hno ⟨hne, hsome hne⟩
        exact ⟨hslots, hcount, horder', hlimit, fun hne => absurd hempty hne, Nat.le_refl _, rfl,
          rfl, rfl⟩
  rw [releaseInFlight]
  dsimp only
  generalize (if lc.queue ≠ [] ∧ overload.isSome then
      refillFromQueue overload lc.queue { lc with inFlight := lc.inFlight - 1 }
    else { lc with inFlight := lc.inFlight - 1 }) = mid at hrefilled
  obtain ⟨hslots, hcount, horder, hlimit, hfull, hle, hphase, hdraining, hwaiters⟩ := hrefilled
  have hshort' : ∀ config, overload = some config → mid.queue.length ≤ config.maxQueue :=
    fun config hconfig => hle.trans (hshort config hconfig)
  have hdrained' : mid.draining = true → mid.queue = [] := by
    intro hd
    rw [hdraining] at hd
    rw [hdrained hd] at hle
    exact List.length_eq_zero_iff.mp (Nat.le_zero.mp hle)
  split
  · exact ⟨hslots.congr rfl rfl rfl rfl rfl rfl rfl rfl, hcount.congr (fun _ => Iff.rfl) rfl,
      ⟨horder.sublist, horder.nodup, horder.seen⟩, hlimit, hfull, hshort', hdrained',
      fun _ => rfl, fun _ => rfl⟩
  · next hwake =>
      refine ⟨hslots, hcount, horder, hlimit, hfull, hshort', hdrained', ?_, ?_⟩
      · intro hd
        rw [hwaiters]
        exact hquiet (hdraining ▸ hd)
      · intro hzero
        by_contra hne
        exact hwake ⟨hzero, hne⟩

theorem GateInv.queue_isSome {overload : Option LifecycleOverload} {lc : LifecycleState}
    (h : GateInv overload lc) (hne : lc.queue ≠ []) : overload.isSome = true := by
  have hfull := h.full hne
  cases overload with
  | none => exact absurd hfull (by simp [hasRoom])
  | some config => rfl

theorem GateInv.release {overload : Option LifecycleOverload} {lc : LifecycleState}
    (h : GateInv overload lc) {r : RequestId} (hr : lc.phase r = .running) :
    GateInv overload (releaseInFlight overload (lc.setPhase r .released)) := by
  have hnot : ¬(lc.phase r = .waiting ∧ lc.settlements r = []) := by
    rintro ⟨hw, -⟩
    exact absurd (hr.symm.trans hw) (by decide)
  have hcount : Counted { lc.setPhase r .released with
      inFlight := (lc.setPhase r .released).inFlight - 1 } := by
    refine h.counted.erase (.inl hr) ?_ rfl
    intro q
    refine (holds_setPhase lc r q .released).trans ?_
    split
    · next heq => exact iff_of_false (by simp) fun hq => hq.1 heq
    · next heq => exact ⟨fun hq => ⟨heq, hq⟩, And.right⟩
  exact gateInv_releaseInFlight (h.slots.setPhase hnot (by decide) (by decide))
    (h.order.setPhase hnot (by decide)) hcount h.limit.pred h.queue_isSome h.short h.drained h.quiet

/-! ### Leaving the queue -/

theorem SlotsCoherent.refusedSlot {lc : LifecycleState} (h : SlotsCoherent lc) {s : SlotId}
    {r : RequestId} (hs : s ∈ lc.queue) (hr : lc.slots s = .armedFor r)
    (reason : OverloadReason) : SlotsCoherent (refusedSlot lc s r reason) :=
  h.refused hs hr reason

theorem GateInv.refusedSlot {overload : Option LifecycleOverload} {lc : LifecycleState}
    (h : GateInv overload lc) {s : SlotId} {r : RequestId} (hs : s ∈ lc.queue)
    (hr : lc.slots s = .armedFor r) (reason : OverloadReason) :
    GateInv overload (refusedSlot lc s r reason) := by
  refine ⟨h.slots.refusedSlot hs hr reason, h.counted.refusedSlot h.slots hs hr reason,
    h.order.refusedSlot h.slots reason, h.limit, ?_, ?_, ?_, h.quiet, h.woken⟩
  · intro _
    exact h.full (List.ne_nil_of_mem hs)
  · intro config hconfig
    exact (List.length_erase_le).trans (h.short config hconfig)
  · intro hd
    show lc.queue.erase s = []
    rw [h.drained hd]
    rfl

theorem leaveSlot_eq {lc : LifecycleState} (h : SlotsCoherent lc) {s : SlotId} {r : RequestId}
    (hs : s ∈ lc.queue) (hr : lc.slots s = .armedFor r) :
    leaveSlot lc s = refusedSlot lc s r .queue := by
  obtain ⟨-, hsettled, -, hlisten⟩ := h.armed hs hr
  exact leaveSlot_armed hr (by rw [hlisten]; simp) hsettled

theorem GateInv.leaveSlot {overload : Option LifecycleOverload} {lc : LifecycleState}
    (h : GateInv overload lc) {s : SlotId} (hs : s ∈ lc.queue) :
    GateInv overload (leaveSlot lc s) := by
  obtain ⟨r, hr, -⟩ := h.slots.queued s hs
  rw [leaveSlot_eq h.slots hs hr]
  exact h.refusedSlot hs hr .queue

theorem GateInv.abortRequest {overload : Option LifecycleOverload} {lc : LifecycleState}
    (h : GateInv overload lc) (r : RequestId) : GateInv overload (abortRequest lc r) := by
  rw [Core.abortRequest]
  cases hl : lc.listeners r with
  | nil =>
      have hkeep : Function.update lc.listeners r [] = lc.listeners := by
        rw [← hl, Function.update_eq_self]
      rw [hkeep]
      exact ⟨h.slots.congr rfl rfl rfl rfl rfl rfl rfl rfl, h.counted.congr (fun _ => Iff.rfl) rfl,
        ⟨h.order.sublist, h.order.nodup, h.order.seen⟩, h.limit, h.full, h.short, h.drained,
        h.quiet, h.woken⟩
  | cons s rest =>
      obtain ⟨hs, hr⟩ := h.slots.listened r s (hl ▸ List.mem_cons_self)
      obtain ⟨-, hsettled, -, hlisten⟩ := h.slots.armed hs hr
      obtain ⟨-, rfl⟩ := List.cons.inj (hl.symm.trans hlisten)
      have hslot : { lc with
          aborted := Function.update lc.aborted r true
          listeners := Function.update lc.listeners r [] }.slots s = .armedFor r := hr
      rw [List.foldl_cons, List.foldl_nil,
        leaveSlot_armed hslot (by dsimp only; rw [Function.update_self]; rfl) hsettled]
      have hrefused := h.refusedSlot hs hr .queue
      have hkeep : Function.update (Function.update lc.listeners r []) r [] =
          Function.update lc.listeners r [] := Function.update_idem _ _ _
      exact ⟨hrefused.slots.congr rfl rfl rfl rfl hkeep rfl rfl rfl,
        hrefused.counted.congr (fun _ => Iff.rfl) rfl,
        ⟨hrefused.order.sublist, hrefused.order.nodup, hrefused.order.seen⟩, hrefused.limit,
        hrefused.full, hrefused.short, hrefused.drained, hrefused.quiet, hrefused.woken⟩

/-! ### Draining -/

/-- Dropping the slots of the queue one after the other. -/
theorem dropQueue (queue : List SlotId) (lc : LifecycleState) (hqueue : lc.queue = queue)
    (h : SlotsCoherent lc) (hcount : Counted lc) (horder : InOrder lc) :
    ∃ lc', queue.foldl (fun lc s => dropSlot lc s .draining) { lc with queue := [] } = lc' ∧
      SlotsCoherent lc' ∧ Counted lc' ∧ InOrder lc' ∧ lc'.queue = [] ∧
      lc'.inFlight = lc.inFlight ∧ lc'.closeWaiters = lc.closeWaiters ∧
      lc'.draining = lc.draining := by
  induction queue generalizing lc with
  | nil =>
      have hsame : { lc with queue := [] } = lc := by rw [← hqueue]
      exact ⟨lc, hsame, h, hcount, horder, hqueue, rfl, rfl, rfl⟩
  | cons s rest ih =>
      have hs : s ∈ lc.queue := hqueue ▸ List.mem_cons_self
      obtain ⟨r, hr, -, hsettled, -, hlisten⟩ := h.queued s hs
      have hrest : (refusedSlot lc s r .draining).queue = rest := by
        show lc.queue.erase s = rest
        rw [hqueue, List.erase_cons_head]
      obtain ⟨lc', heq, hkeep⟩ := ih (refusedSlot lc s r .draining) hrest
        (h.refusedSlot hs hr .draining) (hcount.refusedSlot h hs hr .draining)
        (horder.refusedSlot h .draining)
      refine ⟨lc', ?_, hkeep⟩
      have hslot : { lc with queue := [] }.slots s = .armedFor r := hr
      rw [List.foldl_cons, dropSlot_armed .draining hslot (by rw [hlisten]; simp) hsettled]
      exact heq

theorem GateInv.startDraining {overload : Option LifecycleOverload} {lc : LifecycleState}
    (h : GateInv overload lc) : GateInv overload (startDraining lc) := by
  obtain ⟨lc', heq, hslots, hcount, horder, hqueue, hflight, hwaiters, hdraining⟩ :=
    dropQueue lc.queue { lc with draining := true } rfl
      (h.slots.congr rfl rfl rfl rfl rfl rfl rfl rfl) (h.counted.congr (fun _ => Iff.rfl) rfl)
      ⟨h.order.sublist, h.order.nodup, h.order.seen⟩
  have hstart : Core.startDraining lc = lc' := heq
  rw [hstart]
  refine ⟨hslots, hcount, horder, ?_, fun hne => absurd hqueue hne, ?_, fun _ => hqueue, ?_, ?_⟩
  · rw [hflight]
    exact h.limit
  · intro config _
    rw [hqueue]
    exact Nat.zero_le _
  · intro hd
    have htrue : lc'.draining = true := hdraining
    exact absurd (htrue.symm.trans hd) (by decide)
  · intro hzero
    rw [hwaiters]
    exact h.woken (hflight.symm.trans hzero)

end Keala.Core
