import Keala.Core.GateSlots

/-!
The invariant of the admission gate, kept by every event: the counter counts the
holders, nobody waits beside a free slot, and the queue is served in order.
-/

namespace Keala.Core

def LifecycleState.Holds (lc : LifecycleState) (r : RequestId) : Prop :=
  lc.phase r = .running ∨ lc.phase r = .waiting ∧ lc.settlements r = [.admitted]

def LifecycleState.Admitted (lc : LifecycleState) (r : RequestId) : Prop :=
  lc.Holds r ∨ lc.phase r = .released

def LifecycleState.waitingRequests (lc : LifecycleState) : List RequestId :=
  lc.queue.filterMap fun s => (lc.slots s).request

def Counted (lc : LifecycleState) : Prop :=
  ∃ holders : Finset RequestId, (∀ r, r ∈ holders ↔ lc.Holds r) ∧ lc.inFlight = holders.card

/-- The requests admitted from the queue and those still in it, in order. -/
structure InOrder (lc : LifecycleState) : Prop where
  sublist : (lc.transferred ++ lc.waitingRequests).Sublist lc.enqueued
  nodup : lc.enqueued.Nodup
  seen : ∀ r ∈ lc.enqueued, lc.phase r ≠ .unseen ∧
    (lc.settlements r = [] → lc.phase r = .waiting)

def WithinLimit (overload : Option LifecycleOverload) (inFlight : ℤ) : Prop :=
  ∀ m, overload.bind LifecycleOverload.maxConcurrency = some m → inFlight ≤ m

structure GateInv (overload : Option LifecycleOverload) (lc : LifecycleState) : Prop where
  slots : SlotsCoherent lc
  counted : Counted lc
  order : InOrder lc
  limit : WithinLimit overload lc.inFlight
  /-- No idle slot while someone waits. -/
  full : lc.queue ≠ [] → hasRoom overload lc.inFlight = false
  short : ∀ config, overload = some config → lc.queue.length ≤ config.maxQueue
  drained : lc.draining = true → lc.queue = []
  quiet : lc.draining = false → lc.closeWaiters = []
  woken : lc.inFlight = 0 → lc.closeWaiters = []

/-! ### The counter -/

theorem hasRoom_eq_true_iff (overload : Option LifecycleOverload) (n : ℤ) :
    hasRoom overload n = true ↔
      ∀ m, overload.bind LifecycleOverload.maxConcurrency = some m → n < m := by
  rw [hasRoom]
  cases overload.bind LifecycleOverload.maxConcurrency with
  | none => simp
  | some m => simp

/-- Room that a release makes. -/
theorem WithinLimit.pred {overload : Option LifecycleOverload} {n : ℤ}
    (h : WithinLimit overload n) : WithinLimit overload (n - 1) := by
  intro m hm
  have hn := h m hm
  omega

theorem WithinLimit.succ {overload : Option LifecycleOverload} {n : ℤ}
    (h : hasRoom overload n = true) : WithinLimit overload (n + 1) := by
  intro m hm
  have hn := (hasRoom_eq_true_iff overload n).mp h m hm
  omega

theorem Counted.nonneg {lc : LifecycleState} (h : Counted lc) : 0 ≤ lc.inFlight := by
  obtain ⟨holders, -, hcount⟩ := h
  omega

theorem Counted.congr {lc lc' : LifecycleState} (h : Counted lc)
    (hholds : ∀ r, lc'.Holds r ↔ lc.Holds r) (hcount : lc'.inFlight = lc.inFlight) :
    Counted lc' := by
  obtain ⟨holders, hmem, hcard⟩ := h
  exact ⟨holders, fun r => (hmem r).trans (hholds r).symm, hcount.trans hcard⟩

theorem Counted.insert {lc lc' : LifecycleState} (h : Counted lc) {r : RequestId}
    (hnew : ¬lc.Holds r) (hholds : ∀ q, lc'.Holds q ↔ q = r ∨ lc.Holds q)
    (hcount : lc'.inFlight = lc.inFlight + 1) : Counted lc' := by
  obtain ⟨holders, hmem, hcard⟩ := h
  refine ⟨Insert.insert r holders, ?_, ?_⟩
  · intro q
    rw [Finset.mem_insert, hmem, hholds]
  · have hnot : r ∉ holders := fun hr => hnew ((hmem r).mp hr)
    rw [Finset.card_insert_of_notMem hnot]
    push_cast
    omega

theorem Counted.erase {lc lc' : LifecycleState} (h : Counted lc) {r : RequestId}
    (hold : lc.Holds r) (hholds : ∀ q, lc'.Holds q ↔ q ≠ r ∧ lc.Holds q)
    (hcount : lc'.inFlight = lc.inFlight - 1) : Counted lc' := by
  obtain ⟨holders, hmem, hcard⟩ := h
  refine ⟨holders.erase r, ?_, ?_⟩
  · intro q
    rw [Finset.mem_erase, hmem, hholds]
  · have hr := (hmem r).mpr hold
    have hpos := Finset.card_pos.mpr ⟨r, hr⟩
    rw [Finset.card_erase_of_mem hr]
    omega

/-! ### Who holds a slot -/

theorem holds_setPhase (lc : LifecycleState) (r q : RequestId) (phase : Phase) :
    (lc.setPhase r phase).Holds q ↔
      if q = r then phase = .running ∨ phase = .waiting ∧ lc.settlements r = [.admitted]
      else lc.Holds q := by
  by_cases heq : q = r
  · subst heq
    rw [if_pos rfl]
    show Function.update lc.phase q phase q = .running ∨
      Function.update lc.phase q phase q = .waiting ∧ lc.settlements q = [.admitted] ↔ _
    rw [Function.update_self]
  · rw [if_neg heq]
    show Function.update lc.phase r phase q = .running ∨
      Function.update lc.phase r phase q = .waiting ∧ lc.settlements q = [.admitted] ↔ _
    rw [Function.update_of_ne heq]
    rfl

theorem holds_finished (lc : LifecycleState) (s : SlotId) (r q : RequestId) (value : Verdict)
    (hphase : lc.phase r = .waiting) : (finished lc s r value).Holds q ↔
      if q = r then value = .admitted else lc.Holds q := by
  by_cases heq : q = r
  · subst heq
    rw [if_pos rfl]
    show lc.phase q = .running ∨ lc.phase q = .waiting ∧
      Function.update lc.settlements q [value] q = [.admitted] ↔ _
    rw [hphase, Function.update_self, List.singleton_inj]
    simp
  · rw [if_neg heq]
    show lc.phase q = .running ∨ lc.phase q = .waiting ∧
      Function.update lc.settlements r [value] q = [.admitted] ↔ _
    rw [Function.update_of_ne heq]
    rfl

/-- A request in the queue holds nothing yet. -/
theorem SlotsCoherent.not_holds {lc : LifecycleState} (h : SlotsCoherent lc) {s : SlotId}
    {r : RequestId} (hs : s ∈ lc.queue) (hr : lc.slots s = .armedFor r) : ¬lc.Holds r := by
  obtain ⟨hphase, hsettled, -, -⟩ := h.armed hs hr
  rintro (hrun | ⟨-, hadmitted⟩)
  · exact absurd (hphase.symm.trans hrun) (by decide)
  · exact absurd (hsettled.symm.trans hadmitted) (by simp)

/-! ### Taking one slot out -/

def refusedSlot (lc : LifecycleState) (s : SlotId) (r : RequestId) (reason : OverloadReason) :
    LifecycleState :=
  finished { lc with queue := lc.queue.erase s } s r (.refused reason)

def admittedSlot (lc : LifecycleState) (s : SlotId) (r : RequestId) : LifecycleState :=
  finished
    { lc with
      queue := lc.queue.erase s
      taken := Function.update lc.taken r true
      inFlight := lc.inFlight + 1
      transferred := lc.transferred ++ [r] } s r .admitted

theorem filterMap_request_update {queue : List SlotId} {s : SlotId} (hs : s ∉ queue)
    (slots : SlotId → WaiterSlot) (slot : WaiterSlot) :
    queue.filterMap (fun q => (Function.update slots s slot q).request) =
      queue.filterMap fun q => (slots q).request := by
  apply List.filterMap_congr
  intro q hq
  have hne : q ≠ s := by
    rintro rfl
    exact hs hq
  rw [Function.update_of_ne hne]

/-- A settled promise stays settled, an open one keeps its request waiting. -/
theorem InOrder.seen_update {lc : LifecycleState} (h : InOrder lc) (r : RequestId)
    (value : Verdict) : ∀ q ∈ lc.enqueued, lc.phase q ≠ .unseen ∧
      (Function.update lc.settlements r [value] q = [] → lc.phase q = .waiting) := by
  intro q hq
  obtain ⟨hseen, hwait⟩ := h.seen q hq
  refine ⟨hseen, ?_⟩
  intro hsettled
  by_cases heq : q = r
  · subst heq
    rw [Function.update_self] at hsettled
    exact absurd hsettled (by simp)
  · rw [Function.update_of_ne heq] at hsettled
    exact hwait hsettled

theorem InOrder.refusedSlot {lc : LifecycleState} (horder : InOrder lc) (h : SlotsCoherent lc)
    {s : SlotId} {r : RequestId} (reason : OverloadReason) :
    InOrder (refusedSlot lc s r reason) := by
  refine ⟨?_, horder.nodup, horder.seen_update r _⟩
  have hsub : ((lc.queue.erase s).filterMap fun q => (lc.slots q).request).Sublist
      lc.waitingRequests := (List.erase_sublist).filterMap _
  show (lc.transferred ++ (lc.queue.erase s).filterMap fun q =>
    (Function.update lc.slots s .idle q).request).Sublist lc.enqueued
  rw [filterMap_request_update h.queue_nodup.not_mem_erase]
  exact (hsub.append_left lc.transferred).trans horder.sublist

/-- The head of the queue is admitted next. -/
theorem InOrder.admittedSlot {lc : LifecycleState} (horder : InOrder lc) (h : SlotsCoherent lc)
    {s : SlotId} {rest : List SlotId} {r : RequestId} (hqueue : lc.queue = s :: rest)
    (hr : lc.slots s = .armedFor r) : InOrder (admittedSlot lc s r) := by
  refine ⟨?_, horder.nodup, horder.seen_update r _⟩
  have herase : lc.queue.erase s = rest := by rw [hqueue, List.erase_cons_head]
  have hwaiting : lc.waitingRequests =
      r :: (lc.queue.erase s).filterMap fun q => (lc.slots q).request := by
    rw [herase, LifecycleState.waitingRequests, hqueue, List.filterMap_cons_some (by rw [hr]; rfl)]
  have hsub := horder.sublist
  rw [hwaiting] at hsub
  show ((lc.transferred ++ [r]) ++ (lc.queue.erase s).filterMap fun q =>
    (Function.update lc.slots s .idle q).request).Sublist lc.enqueued
  rw [filterMap_request_update h.queue_nodup.not_mem_erase, List.append_assoc]
  exact hsub

theorem holds_refusedSlot {lc : LifecycleState} (h : SlotsCoherent lc) {s : SlotId}
    {r : RequestId} (hs : s ∈ lc.queue) (hr : lc.slots s = .armedFor r) (reason : OverloadReason)
    (q : RequestId) : (refusedSlot lc s r reason).Holds q ↔ lc.Holds q := by
  have hphase := (h.armed hs hr).1
  refine (holds_finished { lc with queue := lc.queue.erase s } s r q _ hphase).trans ?_
  split
  · next heq =>
      subst heq
      exact iff_of_false (by simp) (h.not_holds hs hr)
  · exact Iff.rfl

theorem holds_admittedSlot {lc : LifecycleState} (h : SlotsCoherent lc) {s : SlotId}
    {r : RequestId} (hs : s ∈ lc.queue) (hr : lc.slots s = .armedFor r) (q : RequestId) :
    (admittedSlot lc s r).Holds q ↔ q = r ∨ lc.Holds q := by
  have hphase := (h.armed hs hr).1
  refine (holds_finished { lc with queue := lc.queue.erase s } s r q .admitted hphase).trans ?_
  split
  · next heq => exact iff_of_true rfl (.inl heq)
  · next heq => exact ⟨.inr, fun hq => hq.resolve_left heq⟩

theorem Counted.refusedSlot {lc : LifecycleState} (hcount : Counted lc) (h : SlotsCoherent lc)
    {s : SlotId} {r : RequestId} (hs : s ∈ lc.queue) (hr : lc.slots s = .armedFor r)
    (reason : OverloadReason) : Counted (refusedSlot lc s r reason) :=
  hcount.congr (holds_refusedSlot h hs hr reason) rfl

theorem Counted.admittedSlot {lc : LifecycleState} (hcount : Counted lc) (h : SlotsCoherent lc)
    {s : SlotId} {r : RequestId} (hs : s ∈ lc.queue) (hr : lc.slots s = .armedFor r) :
    Counted (admittedSlot lc s r) :=
  hcount.insert (h.not_holds hs hr) (holds_admittedSlot h hs hr) rfl

/-! ### Serving the queue -/

structure Refilled (overload : Option LifecycleOverload) (lc lc' : LifecycleState) : Prop where
  slots : SlotsCoherent lc'
  counted : Counted lc'
  order : InOrder lc'
  limit : WithinLimit overload lc'.inFlight
  full : lc'.queue ≠ [] → hasRoom overload lc'.inFlight = false
  short : lc'.queue.length ≤ lc.queue.length
  phase : lc'.phase = lc.phase
  draining : lc'.draining = lc.draining
  closeWaiters : lc'.closeWaiters = lc.closeWaiters

/-- One turn of the refill loop: the head of the queue is admitted. -/
theorem admitSlot_head {lc : LifecycleState} (h : SlotsCoherent lc) {s : SlotId}
    {rest : List SlotId} (hqueue : lc.queue = s :: rest) :
    ∃ r, lc.slots s = .armedFor r ∧
      admitSlot { lc with queue := rest } s = admittedSlot lc s r := by
  have hs : s ∈ lc.queue := hqueue ▸ List.mem_cons_self
  obtain ⟨r, hr, -, hsettled, htaken, hlisten⟩ := h.queued s hs
  refine ⟨r, hr, ?_⟩
  have hslot : { lc with queue := rest }.slots s = .armedFor r := hr
  rw [admitSlot_armed hslot (by rw [hlisten]; simp) hsettled htaken, admittedSlot, hqueue,
    List.erase_cons_head]

theorem SlotsCoherent.admittedSlot {lc : LifecycleState} (h : SlotsCoherent lc) {s : SlotId}
    {r : RequestId} (hs : s ∈ lc.queue) (hr : lc.slots s = .armedFor r) :
    SlotsCoherent (admittedSlot lc s r) := by
  have hfinished := h.finished hs hr .admitted true (by simp)
  exact ⟨hfinished.queue_nodup, hfinished.queued, hfinished.idle, hfinished.pool_nodup,
    hfinished.pooled, hfinished.built, hfinished.listened, hfinished.waiting,
    hfinished.settled_once, hfinished.unseen, hfinished.taken_iff⟩

theorem refillFromQueue_refilled (overload : Option LifecycleOverload) (queue : List SlotId)
    (lc : LifecycleState) (hqueue : lc.queue = queue) (h : SlotsCoherent lc)
    (hcount : Counted lc) (horder : InOrder lc) (hlimit : WithinLimit overload lc.inFlight) :
    Refilled overload lc (refillFromQueue overload queue lc) := by
  induction queue generalizing lc with
  | nil =>
      have hsame : refillFromQueue overload [] lc = lc := by
        rw [refillFromQueue, ← hqueue]
      rw [hsame]
      exact ⟨h, hcount, horder, hlimit, fun hne => absurd hqueue hne, Nat.le_refl _, rfl, rfl, rfl⟩
  | cons s rest ih =>
      rw [refillFromQueue]
      cases hroom : hasRoom overload lc.inFlight with
      | false =>
          have hsame : { lc with queue := s :: rest } = lc := by rw [← hqueue]
          rw [if_neg Bool.false_ne_true, hsame]
          exact ⟨h, hcount, horder, hlimit, fun _ => hroom, Nat.le_refl _, rfl, rfl, rfl⟩
      | true =>
          obtain ⟨r, hr, hadmit⟩ := admitSlot_head h hqueue
          have hs : s ∈ lc.queue := hqueue ▸ List.mem_cons_self
          have hrest : (admittedSlot lc s r).queue = rest := by
            show lc.queue.erase s = rest
            rw [hqueue, List.erase_cons_head]
          rw [if_pos rfl, hadmit]
          have hrec := ih (admittedSlot lc s r) hrest (h.admittedSlot hs hr)
            (hcount.admittedSlot h hs hr) (horder.admittedSlot h hqueue hr)
            (WithinLimit.succ hroom)
          refine ⟨hrec.slots, hrec.counted, hrec.order, hrec.limit, hrec.full, ?_, hrec.phase,
            hrec.draining, hrec.closeWaiters⟩
          have hshort := hrec.short
          rw [hrest] at hshort
          rw [hqueue, List.length_cons]
          omega

end Keala.Core
