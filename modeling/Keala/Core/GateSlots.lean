import Keala.Core.Lifecycle
import Mathlib.Data.Finset.Card

/-!
The waiter slots of the admission gate. A slot in the queue is armed for one
waiting request, every other slot is idle; taking one slot out of the queue
and finishing it keeps this.
-/

namespace Keala.Core

def WaiterSlot.armedFor (r : RequestId) : WaiterSlot :=
  ⟨false, some r, some r, some r, some r, true⟩

@[simp] theorem WaiterSlot.armedFor_settled (r : RequestId) : (armedFor r).settled = false := rfl

@[simp] theorem WaiterSlot.armedFor_request (r : RequestId) :
    (armedFor r).request = some r := rfl

@[simp] theorem WaiterSlot.armedFor_timer (r : RequestId) : (armedFor r).timer = true := rfl

theorem WaiterSlot.armedFor_injective {r r' : RequestId} (h : armedFor r = armedFor r') :
    r = r' :=
  Option.some.inj (congrArg WaiterSlot.request h)

/-- The slots, the promises and the signals fit together. -/
structure SlotsCoherent (lc : LifecycleState) : Prop where
  queue_nodup : lc.queue.Nodup
  queued : ∀ s ∈ lc.queue, ∃ r, lc.slots s = .armedFor r ∧ lc.phase r = .waiting ∧
    lc.settlements r = [] ∧ lc.taken r = false ∧ lc.listeners r = [s]
  idle : ∀ s, s ∉ lc.queue → lc.slots s = .idle
  pool_nodup : lc.waiterPool.Nodup
  pooled : ∀ s ∈ lc.waiterPool, s < lc.constructed ∧ s ∉ lc.queue
  built : ∀ s ∈ lc.queue, s < lc.constructed
  listened : ∀ r s, s ∈ lc.listeners r → s ∈ lc.queue ∧ lc.slots s = .armedFor r
  waiting : ∀ r, lc.phase r = .waiting → lc.settlements r = [] →
    ∃ s ∈ lc.queue, lc.slots s = .armedFor r
  settled_once : ∀ r, (lc.settlements r).length ≤ 1
  unseen : ∀ r, lc.phase r = .unseen → lc.settlements r = [] ∧ lc.taken r = false
  taken_iff : ∀ r, lc.phase r = .waiting →
    (lc.taken r = true ↔ lc.settlements r = [.admitted])

namespace SlotsCoherent

variable {lc : LifecycleState}

/-- Two slots of the queue never stand for one request. -/
theorem slot_unique (h : SlotsCoherent lc) {s s' : SlotId} (hs : s ∈ lc.queue) (hs' : s' ∈ lc.queue)
    {r : RequestId} (hr : lc.slots s = .armedFor r) (hr' : lc.slots s' = .armedFor r) :
    s = s' := by
  obtain ⟨q, hq, -, -, -, hlisten⟩ := h.queued s hs
  obtain ⟨q', hq', -, -, -, hlisten'⟩ := h.queued s' hs'
  obtain rfl := WaiterSlot.armedFor_injective (hr.symm.trans hq)
  obtain rfl := WaiterSlot.armedFor_injective (hr'.symm.trans hq')
  exact List.singleton_inj.mp (hlisten.symm.trans hlisten')

theorem armed (h : SlotsCoherent lc) {s : SlotId} (hs : s ∈ lc.queue) {r : RequestId}
    (hr : lc.slots s = .armedFor r) : lc.phase r = .waiting ∧ lc.settlements r = [] ∧
      lc.taken r = false ∧ lc.listeners r = [s] := by
  obtain ⟨q, hq, hrest⟩ := h.queued s hs
  obtain rfl := WaiterSlot.armedFor_injective (hr.symm.trans hq)
  exact hrest

theorem mem_queue_of_timer (h : SlotsCoherent lc) {s : SlotId} (ht : (lc.slots s).timer = true) :
    s ∈ lc.queue := by
  by_contra hs
  rw [h.idle s hs] at ht
  exact Bool.noConfusion ht

end SlotsCoherent

/-! ### Finishing a slot -/

def finished (lc : LifecycleState) (s : SlotId) (r : RequestId) (value : Verdict) :
    LifecycleState :=
  { lc with
    slots := Function.update lc.slots s .idle
    listeners := Function.update lc.listeners r []
    waiterPool := if lc.waiterPool.length < WAITER_POOL_MAX then lc.waiterPool ++ [s]
      else lc.waiterPool
    settlements := Function.update lc.settlements r [value] }

theorem finishSlot_armed {lc : LifecycleState} {s : SlotId} {r : RequestId} (value : Verdict)
    (hslot : lc.slots s = .armedFor r) (hlisten : (lc.listeners r).erase s = [])
    (hsettled : lc.settlements r = []) :
    finishSlot lc s value = finished lc s r value := by
  rw [finishSlot, hslot]
  show { lc with
    slots := Function.update lc.slots s .idle
    listeners := Function.update lc.listeners r ((lc.listeners r).erase s)
    waiterPool := if lc.waiterPool.length < WAITER_POOL_MAX then lc.waiterPool ++ [s]
      else lc.waiterPool
    settlements := Function.update lc.settlements r (lc.settlements r ++ [value]) } = _
  rw [hlisten, hsettled]
  rfl

theorem dropSlot_armed {lc : LifecycleState} {s : SlotId} {r : RequestId}
    (reason : OverloadReason) (hslot : lc.slots s = .armedFor r)
    (hlisten : (lc.listeners r).erase s = []) (hsettled : lc.settlements r = []) :
    dropSlot lc s reason = finished lc s r (.refused reason) := by
  rw [dropSlot, hslot, if_neg (by simp)]
  exact finishSlot_armed _ hslot hlisten hsettled

theorem leaveSlot_armed {lc : LifecycleState} {s : SlotId} {r : RequestId}
    (hslot : lc.slots s = .armedFor r) (hlisten : (lc.listeners r).erase s = [])
    (hsettled : lc.settlements r = []) :
    leaveSlot lc s = finished { lc with queue := lc.queue.erase s } s r (.refused .queue) := by
  rw [leaveSlot, hslot, if_neg (by simp)]
  exact finishSlot_armed _ hslot hlisten hsettled

theorem admitSlot_armed {lc : LifecycleState} {s : SlotId} {r : RequestId}
    (hslot : lc.slots s = .armedFor r) (hlisten : (lc.listeners r).erase s = [])
    (hsettled : lc.settlements r = []) (htaken : lc.taken r = false) :
    admitSlot lc s = finished
      { lc with
        taken := Function.update lc.taken r true
        inFlight := lc.inFlight + 1
        transferred := lc.transferred ++ [r] } s r .admitted := by
  rw [admitSlot, hslot]
  show finishSlot { takeSlot lc r with transferred := (takeSlot lc r).transferred ++ [r] } s
    .admitted = _
  rw [takeSlot, if_neg (by rw [htaken]; decide)]
  exact finishSlot_armed _ hslot hlisten hsettled

/-- Taking a slot out of the queue and finishing it keeps the slots coherent;
the request holds a taken slot exactly when it was admitted. -/
theorem SlotsCoherent.finished {lc : LifecycleState} (h : SlotsCoherent lc) {s : SlotId}
    {r : RequestId} (hs : s ∈ lc.queue) (hr : lc.slots s = .armedFor r) (value : Verdict)
    (taken : Bool) (htaken : taken = true ↔ value = .admitted) :
    SlotsCoherent (finished
      { lc with queue := lc.queue.erase s, taken := Function.update lc.taken r taken } s r
      value) := by
  obtain ⟨hphase, -, -, -⟩ := h.armed hs hr
  have hother : ∀ s' ∈ lc.queue.erase s, s' ≠ s ∧ s' ∈ lc.queue := fun s' hs' =>
    (h.queue_nodup.mem_erase_iff).mp hs'
  -- The slots that stay in the queue are armed for other requests.
  have hreq : ∀ s' ∈ lc.queue.erase s, ∀ r', lc.slots s' = .armedFor r' → r' ≠ r := by
    rintro s' hs' r' hr' rfl
    exact (hother s' hs').1 (h.slot_unique (hother s' hs').2 hs hr' hr)
  refine ⟨h.queue_nodup.erase s, ?_, ?_, ?_, ?_, ?_, ?_, ?_, ?_, ?_, ?_⟩
  · intro s' hs'
    obtain ⟨hne, hmem⟩ := hother s' hs'
    obtain ⟨r', hslot', hphase', hsettled', htaken', hlisten'⟩ := h.queued s' hmem
    have hner := hreq s' hs' r' hslot'
    refine ⟨r', ?_, hphase', ?_, ?_, ?_⟩
    · exact (Function.update_of_ne hne _ _).trans hslot'
    · exact (Function.update_of_ne hner _ _).trans hsettled'
    · exact (Function.update_of_ne hner _ _).trans htaken'
    · exact (Function.update_of_ne hner _ _).trans hlisten'
  · intro s' hs'
    show Function.update lc.slots s .idle s' = .idle
    by_cases heq : s' = s
    · subst heq
      exact Function.update_self _ _ _
    · rw [Function.update_of_ne heq]
      exact h.idle s' fun hmem => hs' ((h.queue_nodup.mem_erase_iff).mpr ⟨heq, hmem⟩)
  · -- The slot is recycled while the pool has room.
    show (if lc.waiterPool.length < WAITER_POOL_MAX then lc.waiterPool ++ [s]
      else lc.waiterPool).Nodup
    split
    · refine List.nodup_append.mpr ⟨h.pool_nodup, List.nodup_singleton s, ?_⟩
      rintro a ha b hb rfl
      rw [List.mem_singleton] at hb
      exact (h.pooled a ha).2 (hb ▸ hs)
    · exact h.pool_nodup
  · intro s' hs'
    change s' ∈ (if lc.waiterPool.length < WAITER_POOL_MAX then lc.waiterPool ++ [s]
      else lc.waiterPool) at hs'
    have hcases : s' ∈ lc.waiterPool ∨ s' = s := by
      split at hs'
      · simpa using hs'
      · exact .inl hs'
    rcases hcases with hpool | rfl
    · obtain ⟨hbuilt, hnot⟩ := h.pooled s' hpool
      exact ⟨hbuilt, fun hmem => hnot (hother s' hmem).2⟩
    · exact ⟨h.built s' hs, fun hmem => (hother s' hmem).1 rfl⟩
  · intro s' hs'
    exact h.built s' (hother s' hs').2
  · intro r' s' hs'
    change s' ∈ Function.update lc.listeners r [] r' at hs'
    by_cases heq : r' = r
    · subst heq
      rw [Function.update_self] at hs'
      exact absurd hs' List.not_mem_nil
    · rw [Function.update_of_ne heq] at hs'
      obtain ⟨hmem, hslot'⟩ := h.listened r' s' hs'
      have hne : s' ≠ s := by
        rintro rfl
        exact heq (WaiterSlot.armedFor_injective (hslot'.symm.trans hr))
      exact ⟨(h.queue_nodup.mem_erase_iff).mpr ⟨hne, hmem⟩,
        (Function.update_of_ne hne _ _).trans hslot'⟩
  · -- A request that still waits is another one, and its slot stays.
    intro r' hphase' hsettled'
    change Function.update lc.settlements r [value] r' = [] at hsettled'
    have heq : r' ≠ r := by
      rintro rfl
      rw [Function.update_self] at hsettled'
      exact absurd hsettled' (by simp)
    rw [Function.update_of_ne heq] at hsettled'
    obtain ⟨s', hmem, hslot'⟩ := h.waiting r' hphase' hsettled'
    have hne : s' ≠ s := by
      rintro rfl
      exact heq (WaiterSlot.armedFor_injective (hslot'.symm.trans hr))
    exact ⟨s', (h.queue_nodup.mem_erase_iff).mpr ⟨hne, hmem⟩,
      (Function.update_of_ne hne _ _).trans hslot'⟩
  · intro r'
    show (Function.update lc.settlements r [value] r').length ≤ 1
    by_cases heq : r' = r
    · subst heq
      rw [Function.update_self]
      exact Nat.le_refl 1
    · rw [Function.update_of_ne heq]
      exact h.settled_once r'
  · intro r' hphase'
    have heq : r' ≠ r := by
      rintro rfl
      exact absurd (hphase.symm.trans hphase') (by decide)
    obtain ⟨hsettled', htaken'⟩ := h.unseen r' hphase'
    exact ⟨(Function.update_of_ne heq _ _).trans hsettled',
      (Function.update_of_ne heq _ _).trans htaken'⟩
  · intro r' hphase'
    show Function.update lc.taken r taken r' = true ↔
      Function.update lc.settlements r [value] r' = [.admitted]
    by_cases heq : r' = r
    · subst heq
      rw [Function.update_self, Function.update_self, htaken]
      exact List.singleton_inj.symm
    · rw [Function.update_of_ne heq, Function.update_of_ne heq]
      exact h.taken_iff r' hphase'

/-- A refusal leaves the taken flags as they are. -/
theorem SlotsCoherent.refused {lc : LifecycleState} (h : SlotsCoherent lc) {s : SlotId}
    {r : RequestId} (hs : s ∈ lc.queue) (hr : lc.slots s = .armedFor r) (reason : OverloadReason) :
    SlotsCoherent (Core.finished { lc with queue := lc.queue.erase s } s r (.refused reason)) := by
  have hkeep : Function.update lc.taken r false = lc.taken := by
    rw [← (h.armed hs hr).2.2.1, Function.update_eq_self]
  have hfinished := h.finished hs hr (.refused reason) false (by simp)
  rw [hkeep] at hfinished
  exact hfinished

end Keala.Core
