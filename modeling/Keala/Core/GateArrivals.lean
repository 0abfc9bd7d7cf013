import Keala.Core.GateSteps

/-!
Arrivals: immediate admission, refusal, and the ways into the queue.
-/

namespace Keala.Core

theorem SlotsCoherent.listeners_eq_nil {lc : LifecycleState} (h : SlotsCoherent lc)
    {r : RequestId} (hr : lc.phase r = .unseen) : lc.listeners r = [] := by
  rw [List.eq_nil_iff_forall_not_mem]
  intro s hs
  obtain ⟨hmem, hslot⟩ := h.listened r s hs
  exact absurd (hr.symm.trans (h.armed hmem hslot).1) (by decide)

/-- A popped or new slot stands for nobody. -/
theorem popSlot_spec {lc : LifecycleState} (h : SlotsCoherent lc) :
    ∃ pool built s, popSlot lc = ({ lc with waiterPool := pool, constructed := built }, s) ∧
      pool.Nodup ∧ (∀ s' ∈ pool, s' < built ∧ s' ∉ lc.queue) ∧ (∀ s' ∈ lc.queue, s' < built) ∧
      s ∉ lc.queue ∧ s ∉ pool ∧ s < built := by
  rw [popSlot]
  cases hlast : lc.waiterPool.getLast? with
  | some s =>
      obtain ⟨front, hfront⟩ := List.getLast?_eq_some_iff.mp hlast
      have hdrop : lc.waiterPool.dropLast = front := by rw [hfront, List.dropLast_concat]
      have hnodup := h.pool_nodup
      rw [hfront, List.nodup_append] at hnodup
      have hs : s ∈ lc.waiterPool := hfront ▸ List.mem_append_right _ (List.mem_singleton_self s)
      refine ⟨front, lc.constructed, s, by dsimp only; rw [hdrop], hnodup.1, ?_, h.built,
        (h.pooled s hs).2, ?_, (h.pooled s hs).1⟩
      · intro s' hs'
        exact h.pooled s' (hfront ▸ List.mem_append_left _ hs')
      · intro hmem
        exact hnodup.2.2 s hmem s (List.mem_singleton_self s) rfl
  | none =>
      have hnil := List.getLast?_eq_none_iff.mp hlast
      refine ⟨[], lc.constructed + 1, lc.constructed, by dsimp only; rw [← hnil],
        List.nodup_nil, fun s' hs' => absurd hs' List.not_mem_nil, ?_, ?_, List.not_mem_nil,
        Nat.lt_succ_self _⟩
      · intro s' hs'
        exact Nat.lt_succ_of_lt (h.built s' hs')
      · intro hmem
        exact absurd (h.built _ hmem) (Nat.lt_irrefl _)

def joined (lc : LifecycleState) (pool : List SlotId) (built : ℕ) (s : SlotId) (r : RequestId) :
    LifecycleState :=
  { lc with
    waiterPool := pool
    constructed := built
    slots := Function.update lc.slots s (.armedFor r)
    listeners := Function.update lc.listeners r [s]
    queue := lc.queue ++ [s]
    enqueued := lc.enqueued ++ [r]
    phase := Function.update lc.phase r .waiting }

/-- The client of the new request is already gone: the slot goes back and the
promise is settled. -/
def turnedAway (lc : LifecycleState) (pool : List SlotId) (built : ℕ) (r : RequestId) :
    LifecycleState :=
  { lc with
    waiterPool := pool
    constructed := built
    settlements := Function.update lc.settlements r [.refused .queue]
    phase := Function.update lc.phase r .waiting }

theorem enqueueRequest_cases (config : LifecycleOverload) {lc : LifecycleState}
    (h : SlotsCoherent lc) {r : RequestId} (hr : lc.phase r = .unseen) :
    (∃ pool built s, pool.Nodup ∧ (∀ s' ∈ pool, s' < built ∧ s' ∉ lc.queue ∧ s' ≠ s) ∧
        (∀ s' ∈ lc.queue, s' < built) ∧ s ∉ lc.queue ∧ s < built ∧
        (enqueueRequest config lc r).setPhase r .waiting = joined lc pool built s r) ∨
      ∃ pool built, pool.Nodup ∧ (∀ s' ∈ pool, s' < built ∧ s' ∉ lc.queue) ∧
        (∀ s' ∈ lc.queue, s' < built) ∧
        (enqueueRequest config lc r).setPhase r .waiting = turnedAway lc pool built r := by
  obtain ⟨pool, built, s, hpop, hnodup, hpool, hqueue, hs, hsp, hbuilt⟩ := popSlot_spec h
  have hlisten := h.listeners_eq_nil hr
  have hsettled := (h.unseen r hr).1
  have htimer : decide (0 < config.queueTimeoutMs) = true := by
    simpa using config.queueTimeoutMs_pos
  have hslot : (⟨false, some r, some r, some r, some r, decide (0 < config.queueTimeoutMs)⟩ :
      WaiterSlot) = .armedFor r := by rw [htimer]; rfl
  rw [enqueueRequest, hpop]
  dsimp only
  rw [armSlot]
  dsimp only
  rw [hslot]
  cases ha : lc.aborted r with
  | true =>
      -- The signal was aborted on arrival: the slot is armed and given back at once.
      refine .inr ⟨if pool.length < WAITER_POOL_MAX then pool ++ [s] else pool, built, ?_, ?_,
        hqueue, ?_⟩
      · split
        · exact List.nodup_append.mpr ⟨hnodup, List.nodup_singleton s, by
            rintro a ha b hb rfl
            rw [List.mem_singleton] at hb
            exact hsp (hb ▸ ha)⟩
        · exact hnodup
      · intro s' hs'
        have hcases : s' ∈ pool ∨ s' = s := by
          split at hs'
          · simpa using hs'
          · exact .inl hs'
        rcases hcases with hmem | rfl
        · exact hpool s' hmem
        · exact ⟨hbuilt, hs⟩
      · have hslot : { lc with
            waiterPool := pool
            constructed := built
            slots := Function.update lc.slots s (.armedFor r) }.slots s = .armedFor r :=
          Function.update_self _ _ _
        rw [if_pos rfl, finishSlot_armed (.refused .queue) hslot (by rw [hlisten]; rfl) hsettled]
        have hidle : Function.update (Function.update lc.slots s (.armedFor r)) s .idle =
            lc.slots := by
          rw [Function.update_idem, ← h.idle s hs, Function.update_eq_self]
        have hkeep : Function.update lc.listeners r [] = lc.listeners := by
          rw [← hlisten, Function.update_eq_self]
        rw [finished]
        dsimp only
        rw [hidle, hkeep, h.idle s hs]
        rfl
  | false =>
      -- The slot joins the queue.
      refine .inl ⟨pool, built, s, hnodup, ?_, hqueue, hs, hbuilt, ?_⟩
      · intro s' hs'
        exact ⟨(hpool s' hs').1, (hpool s' hs').2, fun heq => hsp (heq ▸ hs')⟩
      · rw [if_neg Bool.false_ne_true]
        dsimp only
        rw [if_neg (by rw [Function.update_self]; simp), hlisten, List.nil_append]
        rfl

/-- A request that is turned away at the queue still holds nothing. -/
theorem gateInv_turnedAway {overload : Option LifecycleOverload} {lc : LifecycleState}
    (h : GateInv overload lc) {r : RequestId} (hr : lc.phase r = .unseen)
    {pool : List SlotId} {built : ℕ} (hnodup : pool.Nodup)
    (hpool : ∀ s' ∈ pool, s' < built ∧ s' ∉ lc.queue) (hqueue : ∀ s' ∈ lc.queue, s' < built) :
    GateInv overload (turnedAway lc pool built r) := by
  have hother : ∀ q, q ≠ r → Function.update lc.settlements r [.refused .queue] q =
      lc.settlements q ∧ Function.update lc.phase r .waiting q = lc.phase q := fun q hq =>
    ⟨Function.update_of_ne hq _ _, Function.update_of_ne hq _ _⟩
  have hself : Function.update lc.settlements r [.refused .queue] r = [.refused .queue] :=
    Function.update_self _ _ _
  have htaken := (h.slots.unseen r hr).2
  -- No slot stands for the request, which is refused before it is in the queue.
  have hslots : SlotsCoherent (turnedAway lc pool built r) := by
    refine ⟨h.slots.queue_nodup, ?_, h.slots.idle, hnodup, hpool, hqueue, h.slots.listened, ?_, ?_,
      ?_, ?_⟩
    · intro s hs
      obtain ⟨q, hslot, hphase, hsettled, hrest⟩ := h.slots.queued s hs
      have hne : q ≠ r := by
        rintro rfl
        exact absurd (hr.symm.trans hphase) (by decide)
      exact ⟨q, hslot, (hother q hne).2.trans hphase, (hother q hne).1.trans hsettled, hrest⟩
    · intro q hphase hsettled
      change Function.update lc.phase r .waiting q = .waiting at hphase
      change Function.update lc.settlements r [.refused .queue] q = [] at hsettled
      by_cases heq : q = r
      · subst heq
        exact absurd (hself.symm.trans hsettled) (by simp)
      · rw [(hother q heq).2] at hphase
        rw [(hother q heq).1] at hsettled
        exact h.slots.waiting q hphase hsettled
    · intro q
      show (Function.update lc.settlements r [.refused .queue] q).length ≤ 1
      by_cases heq : q = r
      · subst heq
        rw [hself]
        exact Nat.le_refl 1
      · rw [(hother q heq).1]
        exact h.slots.settled_once q
    · intro q hphase
      change Function.update lc.phase r .waiting q = .unseen at hphase
      have heq : q ≠ r := by
        rintro rfl
        rw [Function.update_self] at hphase
        exact absurd hphase (by decide)
      rw [(hother q heq).2] at hphase
      obtain ⟨hsettled, htaken'⟩ := h.slots.unseen q hphase
      exact ⟨(hother q heq).1.trans hsettled, htaken'⟩
    · intro q hphase
      change Function.update lc.phase r .waiting q = .waiting at hphase
      show lc.taken q = true ↔ Function.update lc.settlements r [.refused .queue] q = [.admitted]
      by_cases heq : q = r
      · subst heq
        rw [hself, htaken]
        simp
      · rw [(hother q heq).2] at hphase
        rw [(hother q heq).1]
        exact h.slots.taken_iff q hphase
  refine ⟨hslots, h.counted.congr ?_ rfl, ⟨h.order.sublist, h.order.nodup, ?_⟩, h.limit, h.full,
    h.short, h.drained, h.quiet, h.woken⟩
  · intro q
    show Function.update lc.phase r .waiting q = .running ∨
      Function.update lc.phase r .waiting q = .waiting ∧
        Function.update lc.settlements r [.refused .queue] q = [.admitted] ↔ _
    by_cases heq : q = r
    · subst heq
      rw [hself, Function.update_self]
      refine iff_of_false (by simp) ?_
      rintro (hrun | ⟨hwait, -⟩)
      · exact absurd (hr.symm.trans hrun) (by decide)
      · exact absurd (hr.symm.trans hwait) (by decide)
    · rw [(hother q heq).1, (hother q heq).2]
      rfl
  · intro q hq
    obtain ⟨hseen, hwait⟩ := h.order.seen q hq
    have heq : q ≠ r := by
      rintro rfl
      exact hseen hr
    show Function.update lc.phase r .waiting q ≠ .unseen ∧
      (Function.update lc.settlements r [.refused .queue] q = [] →
        Function.update lc.phase r .waiting q = .waiting)
    rw [(hother q heq).1, (hother q heq).2]
    exact ⟨hseen, hwait⟩

/-- A request joins the queue only where there is no room. -/
theorem gateInv_joined {overload : Option LifecycleOverload} {lc : LifecycleState}
    (h : GateInv overload lc) {r : RequestId} (hr : lc.phase r = .unseen)
    {pool : List SlotId} {built : ℕ} {s : SlotId} (hnodup : pool.Nodup)
    (hpool : ∀ s' ∈ pool, s' < built ∧ s' ∉ lc.queue ∧ s' ≠ s)
    (hqueue : ∀ s' ∈ lc.queue, s' < built) (hs : s ∉ lc.queue) (hbuilt : s < built)
    (hroom : hasRoom overload lc.inFlight = false) (hdraining : lc.draining = false)
    (hshort : ∀ config, overload = some config → lc.queue.length < config.maxQueue) :
    GateInv overload (joined lc pool built s r) := by
  have hphase : ∀ q, q ≠ r → Function.update lc.phase r .waiting q = lc.phase q := fun q hq =>
    Function.update_of_ne hq _ _
  have hslot : ∀ q, q ∈ lc.queue → Function.update lc.slots s (.armedFor r) q = lc.slots q := by
    intro q hq
    refine Function.update_of_ne ?_ _ _
    rintro rfl
    exact hs hq
  obtain ⟨hsettled, htaken⟩ := h.slots.unseen r hr
  have hmem : ∀ q, q ∈ lc.queue ++ [s] ↔ q ∈ lc.queue ∨ q = s := by simp
  have hslots : SlotsCoherent (joined lc pool built s r) := by
    -- The new slot stands for the new request, the others are as they were.
    refine ⟨?_, ?_, ?_, hnodup, ?_, ?_, ?_, ?_, h.slots.settled_once, ?_, ?_⟩
    · refine List.nodup_append.mpr ⟨h.slots.queue_nodup, List.nodup_singleton s, ?_⟩
      rintro a ha b hb rfl
      rw [List.mem_singleton] at hb
      exact hs (hb ▸ ha)
    · intro q hq
      rcases (hmem q).mp hq with hq | rfl
      · obtain ⟨r', hslot', hphase', hsettled', htaken', hlisten'⟩ := h.slots.queued q hq
        have hne : r' ≠ r := by
          rintro rfl
          exact absurd (hr.symm.trans hphase') (by decide)
        exact ⟨r', (hslot q hq).trans hslot', (hphase r' hne).trans hphase', hsettled', htaken',
          (Function.update_of_ne hne _ _).trans hlisten'⟩
      · exact ⟨r, Function.update_self _ _ _, Function.update_self _ _ _, hsettled, htaken,
          Function.update_self _ _ _⟩
    · intro q hq
      have hnot := mt (hmem q).mpr hq
      rw [not_or] at hnot
      exact (Function.update_of_ne hnot.2 _ _).trans (h.slots.idle q hnot.1)
    · intro q hq
      obtain ⟨hlt, hnot, hne⟩ := hpool q hq
      exact ⟨hlt, fun hq' => ((hmem q).mp hq').elim hnot hne⟩
    · intro q hq
      rcases (hmem q).mp hq with hq | rfl
      · exact hqueue q hq
      · exact hbuilt
    · intro q s' hs'
      change s' ∈ Function.update lc.listeners r [s] q at hs'
      by_cases heq : q = r
      · subst heq
        rw [Function.update_self, List.mem_singleton] at hs'
        subst hs'
        exact ⟨(hmem s').mpr (.inr rfl), Function.update_self _ _ _⟩
      · rw [Function.update_of_ne heq] at hs'
        obtain ⟨hq, hslot'⟩ := h.slots.listened q s' hs'
        exact ⟨(hmem s').mpr (.inl hq), (hslot s' hq).trans hslot'⟩
    · intro q hphase' hsettled'
      change Function.update lc.phase r .waiting q = .waiting at hphase'
      by_cases heq : q = r
      · subst heq
        exact ⟨s, (hmem s).mpr (.inr rfl), Function.update_self _ _ _⟩
      · rw [hphase q heq] at hphase'
        obtain ⟨s', hq, hslot'⟩ := h.slots.waiting q hphase' hsettled'
        exact ⟨s', (hmem s').mpr (.inl hq), (hslot s' hq).trans hslot'⟩
    · intro q hphase'
      change Function.update lc.phase r .waiting q = .unseen at hphase'
      have heq : q ≠ r := by
        rintro rfl
        rw [Function.update_self] at hphase'
        exact absurd hphase' (by decide)
      rw [hphase q heq] at hphase'
      exact h.slots.unseen q hphase'
    · intro q hphase'
      change Function.update lc.phase r .waiting q = .waiting at hphase'
      show lc.taken q = true ↔ lc.settlements q = [.admitted]
      by_cases heq : q = r
      · subst heq
        rw [htaken, hsettled]
        simp
      · rw [hphase q heq] at hphase'
        exact h.slots.taken_iff q hphase'
  refine ⟨hslots, h.counted.congr ?_ rfl, ⟨?_, ?_, ?_⟩, h.limit, fun _ => hroom, ?_, ?_, h.quiet,
    h.woken⟩
  · intro q
    show Function.update lc.phase r .waiting q = .running ∨
      Function.update lc.phase r .waiting q = .waiting ∧ lc.settlements q = [.admitted] ↔ _
    by_cases heq : q = r
    · subst heq
      rw [Function.update_self, hsettled]
      refine iff_of_false (by simp) ?_
      rintro (hrun | ⟨hwait, -⟩)
      · exact absurd (hr.symm.trans hrun) (by decide)
      · exact absurd (hr.symm.trans hwait) (by decide)
    · rw [hphase q heq]
      rfl
  · -- The new request comes last.
    have hwaiting : (joined lc pool built s r).waitingRequests = lc.waitingRequests ++ [r] := by
      show (lc.queue ++ [s]).filterMap (fun q =>
        (Function.update lc.slots s (.armedFor r) q).request) = _
      rw [List.filterMap_append, filterMap_request_update hs]
      show lc.waitingRequests ++
        [s].filterMap (fun q => (Function.update lc.slots s (.armedFor r) q).request) = _
      rw [List.filterMap_cons_some (b := r) (by rw [Function.update_self]; rfl)]
      rfl
    rw [hwaiting, ← List.append_assoc]
    exact h.order.sublist.append (List.Sublist.refl [r])
  · refine List.nodup_append.mpr ⟨h.order.nodup, List.nodup_singleton r, ?_⟩
    rintro a ha b hb rfl
    rw [List.mem_singleton] at hb
    subst hb
    exact (h.order.seen a ha).1 hr
  · intro q hq
    change q ∈ lc.enqueued ++ [r] at hq
    show Function.update lc.phase r .waiting q ≠ .unseen ∧
      (lc.settlements q = [] → Function.update lc.phase r .waiting q = .waiting)
    by_cases heq : q = r
    · subst heq
      rw [Function.update_self]
      exact ⟨by decide, fun _ => rfl⟩
    · have hq' : q ∈ lc.enqueued := by simpa [heq] using hq
      rw [hphase q heq]
      exact h.order.seen q hq'
  · intro config hconfig
    show (lc.queue ++ [s]).length ≤ config.maxQueue
    rw [List.length_append, List.length_singleton]
    exact hshort config hconfig
  · intro hd
    exact absurd (hdraining.symm.trans hd) (by decide)

theorem not_holds_of_unseen {lc : LifecycleState} {r : RequestId} (hr : lc.phase r = .unseen) :
    ¬lc.Holds r := by
  rintro (hrun | ⟨hwait, -⟩)
  · exact absurd (hr.symm.trans hrun) (by decide)
  · exact absurd (hr.symm.trans hwait) (by decide)

/-- Immediate admission: there is room, so nobody waits. -/
theorem GateInv.admit {overload : Option LifecycleOverload} {lc : LifecycleState}
    (h : GateInv overload lc) {r : RequestId} (hr : lc.phase r = .unseen)
    (hroom : hasRoom overload lc.inFlight = true) :
    GateInv overload (({ lc with inFlight := lc.inFlight + 1 } : LifecycleState).setPhase r
      .running) := by
  have hempty : lc.queue = [] := by
    by_contra hne
    exact absurd (hroom.symm.trans (h.full hne)) (by decide)
  have hnot : ¬(lc.phase r = .waiting ∧ lc.settlements r = []) := by
    rintro ⟨hw, -⟩
    exact absurd (hr.symm.trans hw) (by decide)
  have hslots := h.slots.setPhase hnot (by decide : Phase.running ≠ .waiting) (by decide)
  have horder := h.order.setPhase hnot (by decide : Phase.running ≠ .unseen)
  refine ⟨hslots.congr rfl rfl rfl rfl rfl rfl rfl rfl, ?_,
    ⟨horder.sublist, horder.nodup, horder.seen⟩, WithinLimit.succ hroom,
    fun hne => absurd hempty hne, h.short, h.drained, h.quiet, ?_⟩
  · refine h.counted.insert (not_holds_of_unseen hr) ?_ rfl
    intro q
    refine (holds_setPhase _ r q .running).trans ?_
    split
    · next heq => exact iff_of_true (.inl rfl) (.inl heq)
    · next heq => exact ⟨.inr, fun hq => hq.resolve_left heq⟩
  · intro hzero
    have hpos := h.counted.nonneg
    change lc.inFlight + 1 = 0 at hzero
    omega

theorem GateInv.admitRequest {overload : Option LifecycleOverload} {lc : LifecycleState}
    (h : GateInv overload lc) {r : RequestId} (hr : lc.phase r = .unseen) :
    GateInv overload (admitRequest overload lc r) := by
  have hnot : ¬(lc.phase r = .waiting ∧ lc.settlements r = []) := by
    rintro ⟨hw, -⟩
    exact absurd (hr.symm.trans hw) (by decide)
  have hholds := not_holds_of_unseen hr
  have hrefuse := h.refuseRequest (h.slots.unseen r hr).2 hnot hholds
  rw [Core.admitRequest.eq_def]
  split
  · exact h.setPhase hnot (by decide) (by decide) (iff_of_false (by decide) hholds)
  · next hdraining =>
      split
      · next hroom => exact h.admit hr hroom
      · next hroom =>
          cases overload with
          | none => exact h
          | some config =>
              dsimp only
              split
              · exact hrefuse
              · split
                · exact hrefuse
                · next hshort =>
                    rcases enqueueRequest_cases config h.slots hr with
                      ⟨pool, built, s, hnodup, hpool, hqueue, hs, hbuilt, heq⟩ |
                      ⟨pool, built, hnodup, hpool, hqueue, heq⟩
                    · rw [heq]
                      exact gateInv_joined h hr hnodup hpool hqueue hs hbuilt
                        (Bool.not_eq_true _ ▸ hroom) (Bool.not_eq_true _ ▸ hdraining)
                        fun config' hconfig => by
                          cases hconfig
                          omega
                    · rw [heq]
                      exact gateInv_turnedAway h hr hnodup hpool hqueue

end Keala.Core
