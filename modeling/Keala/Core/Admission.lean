import Keala.Core.GateAccounting
import Mathlib.Algebra.BigOperators.Group.Finset.Basic
import Mathlib.Algebra.BigOperators.Ring.Finset

/-!
The admission gate under a custom strategy (`src/core/lifecycle-admission.ts`).
The strategy is the environment: it decides as it likes, at once or through a
promise, and calls the `admit` closures it was given whenever it likes, also
from waiters of its own.
-/

namespace Keala.Core

inductive Decision
  | null
  | response
  /-- Another value that is not thenable. -/
  | garbage
  /-- `undefined`, or a value whose `then` getter throws. -/
  | undefined
  | threw
  | promise
  deriving DecidableEq

inductive Wake
  | null
  | response
  | garbage
  | rejected
  deriving DecidableEq

inductive Consultation
  | none
  /-- `onSaturated` has not returned. -/
  | asked
  | promised
  | decided
  /-- The gate itself threw. -/
  | escaped
  deriving DecidableEq

structure CustomGate where
  lifecycle : LifecycleState
  consultation : RequestId → Consultation
  /-- What a request has added to the counter. -/
  net : RequestId → ℤ

def createCustomGate : CustomGate := ⟨createLifecycle, fun _ => .none, fun _ => 0⟩

def CustomGate.charge (st : CustomGate) (r : RequestId) (lc : LifecycleState)
    (consultation : Consultation) : CustomGate where
  lifecycle := lc
  consultation := Function.update st.consultation r consultation
  net := Function.update st.net r (st.net r + (lc.inFlight - st.lifecycle.inFlight))

/-- `admitRequest` up to the call of `onSaturated`. -/
def arriveCustom (overload : LifecycleOverload) (st : CustomGate) (r : RequestId) : CustomGate :=
  let lc := st.lifecycle
  if lc.draining then st.charge r (lc.setPhase r .refused) .none
  else if hasRoom (some overload) lc.inFlight then
    st.charge r ({ lc with inFlight := lc.inFlight + 1 }.setPhase r .running) .none
  else st.charge r (lc.setPhase r .waiting) .asked

/-- `admitRequest` from the return of `onSaturated` on. -/
def decideCustom (overload : LifecycleOverload) (st : CustomGate) (r : RequestId) :
    Decision → CustomGate
  | .null => st.charge r ((takeSlot st.lifecycle r).setPhase r .running) .decided
  | .response | .garbage | .threw =>
      st.charge r (refuseRequest (some overload) st.lifecycle r) .decided
  | .undefined => st.charge r st.lifecycle .escaped
  | .promise => st.charge r st.lifecycle .promised

def wakeCustom (overload : LifecycleOverload) (st : CustomGate) (r : RequestId) :
    Wake → CustomGate
  | .null => st.charge r (wakeRequest (some overload) st.lifecycle r .admitted) .decided
  | .response | .garbage | .rejected =>
      st.charge r (refuseRequest (some overload) st.lifecycle r) .decided

inductive CustomEvent
  | arrive (r : RequestId)
  /-- The strategy calls the `admit` closure of a request. -/
  | admits (r : RequestId)
  | decide (r : RequestId) (decision : Decision)
  | wake (r : RequestId) (wake : Wake)
  | release (r : RequestId)
  | close

def customStep (overload : LifecycleOverload) (st : CustomGate) :
    CustomEvent → Option CustomGate
  | .arrive r =>
      if st.lifecycle.phase r = .unseen then some (arriveCustom overload st r) else none
  | .admits r =>
      if st.consultation r = .none then none
      else some (st.charge r (takeSlot st.lifecycle r) (st.consultation r))
  | .decide r decision =>
      if st.consultation r = .asked then some (decideCustom overload st r decision) else none
  | .wake r wake =>
      if st.consultation r = .promised then some (wakeCustom overload st r wake) else none
  | .release r =>
      if st.lifecycle.phase r = .running then
        some (st.charge r
          (releaseInFlight (some overload) (st.lifecycle.setPhase r .released))
          (st.consultation r))
      else none
  | .close =>
      if st.lifecycle.draining then none
      else some { st with lifecycle := startDraining st.lifecycle }

def customGate (overload : LifecycleOverload) : Lts CustomGate CustomEvent where
  start := createCustomGate
  step := customStep overload

/-! ### The counter as a ledger -/

def Balanced (st : CustomGate) : Prop :=
  ∃ seen : Finset RequestId, (∀ r, r ∉ seen → st.net r = 0) ∧
    st.lifecycle.inFlight = ∑ r ∈ seen, st.net r

theorem Balanced.charge {st : CustomGate} (h : Balanced st) (r : RequestId) (lc : LifecycleState)
    (consultation : Consultation) : Balanced (st.charge r lc consultation) := by
  obtain ⟨seen, hout, hsum⟩ := h
  refine ⟨insert r seen, ?_, ?_⟩
  · intro q hq
    rw [Finset.mem_insert, not_or] at hq
    show Function.update st.net r _ q = 0
    rw [Function.update_of_ne hq.1]
    exact hout q hq.2
  · have hseen : st.lifecycle.inFlight = ∑ q ∈ insert r seen, st.net q := by
      rw [hsum]
      refine Finset.sum_subset (Finset.subset_insert r seen) ?_
      exact fun q _ hq => hout q hq
    have hothers : ∑ q ∈ (insert r seen).erase r, Function.update st.net r
        (st.net r + (lc.inFlight - st.lifecycle.inFlight)) q =
          ∑ q ∈ (insert r seen).erase r, st.net q := by
      apply Finset.sum_congr rfl
      intro q hq
      rw [Function.update_of_ne (Finset.ne_of_mem_erase hq)]
    have hmem : r ∈ insert r seen := Finset.mem_insert_self r seen
    show lc.inFlight = ∑ q ∈ insert r seen, Function.update st.net r
      (st.net r + (lc.inFlight - st.lifecycle.inFlight)) q
    rw [← Finset.add_sum_erase _ _ hmem, hothers, Function.update_self]
    rw [← Finset.add_sum_erase _ _ hmem] at hseen
    omega

/-! ### One request -/

/-- Where a request stands, whether its slot is taken, and what it has added to
the counter. -/
inductive Ticket : Phase → Consultation → Bool → ℤ → Prop
  | unseen : Ticket .unseen .none false 0
  | turnedAway : Ticket .refused .none false 0
  | direct : Ticket .running .none false 1
  | directReleased : Ticket .released .none false 0
  | asked (taken : Bool) : Ticket .waiting .asked taken (if taken then 1 else 0)
  | promised (taken : Bool) : Ticket .waiting .promised taken (if taken then 1 else 0)
  | admitted : Ticket .running .decided true 1
  | released : Ticket .released .decided true 0
  | refused : Ticket .refused .decided false 0
  | escaped : Ticket .waiting .escaped false 0

def CustomGate.HasTicket (st : CustomGate) (r : RequestId) : Prop :=
  Ticket (st.lifecycle.phase r) (st.consultation r) (st.lifecycle.taken r) (st.net r)

structure CustomInv (st : CustomGate) : Prop where
  queue : st.lifecycle.queue = []
  balanced : Balanced st
  ticket : ∀ r, st.HasTicket r

/-- A lifecycle that differs from another in one request only. -/
structure Touching (r : RequestId) (lc lc' : LifecycleState) : Prop where
  queue : lc'.queue = lc.queue
  phase : ∀ q, q ≠ r → lc'.phase q = lc.phase q
  taken : ∀ q, q ≠ r → lc'.taken q = lc.taken q

theorem CustomInv.charge {st : CustomGate} (h : CustomInv st) {r : RequestId}
    {lc : LifecycleState} {consultation : Consultation} (htouch : Touching r st.lifecycle lc)
    (hticket : Ticket (lc.phase r) consultation (lc.taken r)
      (st.net r + (lc.inFlight - st.lifecycle.inFlight))) :
    CustomInv (st.charge r lc consultation) where
  queue := htouch.queue.trans h.queue
  balanced := h.balanced.charge r lc consultation
  ticket := by
    intro q
    show Ticket (lc.phase q) (Function.update st.consultation r _ q) (lc.taken q)
      (Function.update st.net r _ q)
    rcases eq_or_ne q r with rfl | hne
    · rw [Function.update_self, Function.update_self]
      exact hticket
    · rw [Function.update_of_ne hne, Function.update_of_ne hne, htouch.phase q hne,
        htouch.taken q hne]
      exact h.ticket q

/-! ### The operations on an empty queue -/

/-- A release without a queue gives one slot back and moves nobody. -/
structure Releases (lc lc' : LifecycleState) : Prop where
  queue : lc'.queue = []
  phase : lc'.phase = lc.phase
  taken : lc'.taken = lc.taken
  inFlight : lc'.inFlight = lc.inFlight - 1

theorem releaseInFlight_releases (overload : Option LifecycleOverload) (lc : LifecycleState)
    (h : lc.queue = []) : Releases lc (releaseInFlight overload lc) := by
  rw [releaseInFlight]
  dsimp only
  rw [if_neg (c := lc.queue ≠ [] ∧ overload.isSome) fun hne => hne.1 h]
  split
  · exact ⟨h, rfl, rfl, rfl⟩
  · exact ⟨h, rfl, rfl, rfl⟩

theorem setPhase_touching (lc : LifecycleState) (r : RequestId) (phase : Phase) :
    Touching r lc (lc.setPhase r phase) :=
  ⟨rfl, fun _ hq => Function.update_of_ne hq _ _, fun _ _ => rfl⟩

@[simp] theorem setPhase_phase (lc : LifecycleState) (r : RequestId) (phase : Phase) :
    (lc.setPhase r phase).phase r = phase := Function.update_self _ _ _

@[simp] theorem setPhase_taken (lc : LifecycleState) (r : RequestId) (phase : Phase) :
    (lc.setPhase r phase).taken = lc.taken := rfl

@[simp] theorem setPhase_inFlight (lc : LifecycleState) (r : RequestId) (phase : Phase) :
    (lc.setPhase r phase).inFlight = lc.inFlight := rfl

theorem Touching.trans {r : RequestId} {lc mid lc' : LifecycleState} (h : Touching r lc mid)
    (h' : Touching r mid lc') : Touching r lc lc' where
  queue := h'.queue.trans h.queue
  phase q hq := (h'.phase q hq).trans (h.phase q hq)
  taken q hq := (h'.taken q hq).trans (h.taken q hq)

theorem takeSlot_touching (lc : LifecycleState) (r : RequestId) :
    Touching r lc (takeSlot lc r) := by
  rw [takeSlot]
  split
  · exact ⟨rfl, fun _ _ => rfl, fun _ _ => rfl⟩
  · exact ⟨rfl, fun _ _ => rfl, fun _ hq => Function.update_of_ne hq _ _⟩

@[simp] theorem takeSlot_phase (lc : LifecycleState) (r : RequestId) :
    (takeSlot lc r).phase = lc.phase := by
  rw [takeSlot]
  split <;> rfl

@[simp] theorem takeSlot_taken (lc : LifecycleState) (r : RequestId) :
    (takeSlot lc r).taken r = true := by
  rw [takeSlot]
  split
  · assumption
  · exact Function.update_self _ _ _

/-- Taking a slot counts it unless it was taken before. -/
theorem takeSlot_inFlight (lc : LifecycleState) (r : RequestId) :
    (takeSlot lc r).inFlight = lc.inFlight + (1 - if lc.taken r then 1 else 0) := by
  rw [takeSlot]
  split
  · simp
  · simp

theorem refuseRequest_touching (overload : Option LifecycleOverload) {lc : LifecycleState}
    (h : lc.queue = []) (r : RequestId) : Touching r lc (refuseRequest overload lc r) := by
  rw [refuseRequest]
  split
  · have hrelease := releaseInFlight_releases overload
      { lc with taken := Function.update lc.taken r false } h
    refine Touching.trans ?_ (setPhase_touching _ r _)
    refine ⟨hrelease.queue.trans h.symm, fun q _ => congrFun hrelease.phase q, ?_⟩
    exact fun q hq => (congrFun hrelease.taken q).trans (Function.update_of_ne hq _ _)
  · exact setPhase_touching lc r .refused

@[simp] theorem refuseRequest_phase (overload : Option LifecycleOverload) (lc : LifecycleState)
    (r : RequestId) : (refuseRequest overload lc r).phase r = .refused := by
  rw [refuseRequest]
  exact setPhase_phase _ r .refused

/-- A refusal gives a taken slot back. -/
theorem refuseRequest_gives_back (overload : Option LifecycleOverload) {lc : LifecycleState}
    (h : lc.queue = []) (r : RequestId) :
    (refuseRequest overload lc r).taken r = false ∧
      (refuseRequest overload lc r).inFlight = lc.inFlight - if lc.taken r then 1 else 0 := by
  rw [refuseRequest]
  split
  · next htaken =>
      have hrelease := releaseInFlight_releases overload
        { lc with taken := Function.update lc.taken r false } h
      exact ⟨(congrFun hrelease.taken r).trans (Function.update_self _ _ _), hrelease.inFlight⟩
  · next htaken =>
      exact ⟨Bool.not_eq_true _ ▸ htaken, (sub_zero _).symm⟩

/-! ### One step -/

/-- The steps that keep the accounts: no `admit()` for a request whose refusal
is out or whose gate threw, and no `undefined` from a strategy that has taken
the slot. -/
def KeepsAccounts (st : CustomGate) : CustomEvent → Prop
  | .admits r => st.lifecycle.phase r ≠ .refused ∧ st.consultation r ≠ .escaped
  | .decide r .undefined => st.lifecycle.taken r = false
  | _ => True

theorem CustomInv.refuse {st : CustomGate} (h : CustomInv st) (overload : LifecycleOverload)
    {r : RequestId} (hnet : st.net r = if st.lifecycle.taken r then 1 else 0) :
    CustomInv (st.charge r (refuseRequest (some overload) st.lifecycle r) .decided) := by
  obtain ⟨htaken, hcount⟩ := refuseRequest_gives_back (some overload) h.queue r
  refine h.charge (refuseRequest_touching (some overload) h.queue r) ?_
  rw [refuseRequest_phase, htaken, hcount, hnet]
  have hzero : (if st.lifecycle.taken r then 1 else 0) + (st.lifecycle.inFlight -
      (if st.lifecycle.taken r then 1 else 0) - st.lifecycle.inFlight) = (0 : ℤ) := by omega
  rw [hzero]
  exact .refused

theorem CustomInv.serve {st : CustomGate} (h : CustomInv st) {r : RequestId}
    (hnet : st.net r = if st.lifecycle.taken r then 1 else 0) :
    CustomInv (st.charge r ((takeSlot st.lifecycle r).setPhase r .running) .decided) := by
  refine h.charge ((takeSlot_touching _ r).trans (setPhase_touching _ r .running)) ?_
  rw [setPhase_phase, setPhase_taken, takeSlot_taken, setPhase_inFlight, takeSlot_inFlight, hnet]
  have hone : (if st.lifecycle.taken r then 1 else 0) + (st.lifecycle.inFlight +
      (1 - if st.lifecycle.taken r then 1 else 0) - st.lifecycle.inFlight) = (1 : ℤ) := by omega
  rw [hone]
  exact .admitted

/-- A request that the strategy has not decided about holds the slot it took. -/
theorem CustomInv.undecided {st : CustomGate} (h : CustomInv st) {r : RequestId}
    (hr : st.consultation r = .asked ∨ st.consultation r = .promised) :
    st.lifecycle.phase r = .waiting ∧ st.net r = if st.lifecycle.taken r then 1 else 0 := by
  have hticket := h.ticket r
  rw [CustomGate.HasTicket] at hticket
  generalize st.lifecycle.phase r = phase, st.consultation r = consultation,
    st.lifecycle.taken r = taken, st.net r = net at *
  cases hticket with
  | asked taken => exact ⟨rfl, rfl⟩
  | promised taken => exact ⟨rfl, rfl⟩
  | _ => simp at hr

theorem CustomInv.arrive {st : CustomGate} (h : CustomInv st) (overload : LifecycleOverload)
    {r : RequestId} (hr : st.lifecycle.phase r = .unseen) :
    CustomInv (arriveCustom overload st r) := by
  have hfresh : st.lifecycle.taken r = false ∧ st.net r = 0 := by
    have hticket := h.ticket r
    rw [CustomGate.HasTicket, hr] at hticket
    generalize st.consultation r = consultation, st.lifecycle.taken r = taken,
      st.net r = net at *
    cases hticket
    exact ⟨rfl, rfl⟩
  obtain ⟨htaken, hnet⟩ := hfresh
  rw [arriveCustom]
  split
  · refine h.charge (setPhase_touching _ r .refused) ?_
    rw [setPhase_phase, setPhase_taken, setPhase_inFlight, htaken, hnet, sub_self]
    exact .turnedAway
  · split
    · refine h.charge ⟨rfl, fun q hq => Function.update_of_ne hq _ _, fun _ _ => rfl⟩ ?_
      rw [setPhase_phase, setPhase_taken, setPhase_inFlight, hnet]
      have hone : (0 : ℤ) + (st.lifecycle.inFlight + 1 - st.lifecycle.inFlight) = 1 := by omega
      rw [hone, show ({ st.lifecycle with
        inFlight := st.lifecycle.inFlight + 1 } : LifecycleState).taken r = false from htaken]
      exact .direct
    · refine h.charge (setPhase_touching _ r .waiting) ?_
      rw [setPhase_phase, setPhase_taken, setPhase_inFlight, htaken, hnet, sub_self]
      exact .asked false

theorem CustomInv.admits {st : CustomGate} (h : CustomInv st) {r : RequestId}
    (hgiven : st.consultation r ≠ .none) (hkeep : KeepsAccounts st (.admits r)) :
    CustomInv (st.charge r (takeSlot st.lifecycle r) (st.consultation r)) := by
  refine h.charge (takeSlot_touching _ r) ?_
  obtain ⟨hrefused, hescaped⟩ := hkeep
  have hticket := h.ticket r
  rw [CustomGate.HasTicket] at hticket
  rw [takeSlot_phase, takeSlot_taken, takeSlot_inFlight]
  have hcount : ∀ n taken : ℤ, st.net r + (st.lifecycle.inFlight + n - st.lifecycle.inFlight) =
      st.net r + n := fun n _ => by omega
  rw [hcount _ 0]
  generalize st.lifecycle.phase r = phase, st.consultation r = consultation,
    st.lifecycle.taken r = taken, st.net r = net at *
  cases hticket with
  | asked taken =>
      rw [show ((if taken then 1 else 0) + (1 - if taken then 1 else 0) : ℤ) = 1 by omega]
      exact .asked true
  | promised taken =>
      rw [show ((if taken then 1 else 0) + (1 - if taken then 1 else 0) : ℤ) = 1 by omega]
      exact .promised true
  | admitted => exact .admitted
  | released => exact .released
  | refused => exact absurd rfl hrefused
  | escaped => exact absurd rfl hescaped
  | unseen => exact absurd rfl hgiven
  | turnedAway => exact absurd rfl hgiven
  | direct => exact absurd rfl hgiven
  | directReleased => exact absurd rfl hgiven

theorem CustomInv.release {st : CustomGate} (h : CustomInv st) (overload : LifecycleOverload)
    {r : RequestId} (hr : st.lifecycle.phase r = .running) :
    CustomInv (st.charge r (releaseInFlight (some overload) (st.lifecycle.setPhase r .released))
      (st.consultation r)) := by
  have hrelease := releaseInFlight_releases (some overload)
    (st.lifecycle.setPhase r .released) h.queue
  refine h.charge ?_ ?_
  · refine (setPhase_touching _ r .released).trans ?_
    exact ⟨hrelease.queue.trans h.queue.symm, fun q _ => congrFun hrelease.phase q,
      fun q _ => congrFun hrelease.taken q⟩
  · have hticket := h.ticket r
    rw [CustomGate.HasTicket, hr] at hticket
    rw [hrelease.phase, hrelease.taken, hrelease.inFlight, setPhase_phase, setPhase_taken,
      setPhase_inFlight]
    have hcount : st.net r + (st.lifecycle.inFlight - 1 - st.lifecycle.inFlight) =
      st.net r - 1 := by omega
    rw [hcount]
    generalize st.consultation r = consultation, st.lifecycle.taken r = taken,
      st.net r = net at *
    cases hticket with
    | direct => exact .directReleased
    | admitted => exact .released

theorem CustomInv.decide {st : CustomGate} (h : CustomInv st) (overload : LifecycleOverload)
    {r : RequestId} {decision : Decision} (hr : st.consultation r = .asked)
    (hkeep : KeepsAccounts st (.decide r decision)) :
    CustomInv (decideCustom overload st r decision) := by
  obtain ⟨hphase, hnet⟩ := h.undecided (.inl hr)
  have huntouched : Touching r st.lifecycle st.lifecycle := ⟨rfl, fun _ _ => rfl, fun _ _ => rfl⟩
  cases decision with
  | null => exact h.serve hnet
  | response => exact h.refuse overload hnet
  | garbage => exact h.refuse overload hnet
  | threw => exact h.refuse overload hnet
  | undefined =>
      have hfree : st.lifecycle.taken r = false := hkeep
      refine h.charge huntouched ?_
      rw [hphase, hnet, hfree, sub_self]
      exact .escaped
  | promise =>
      refine h.charge huntouched ?_
      rw [hphase, hnet, sub_self, add_zero]
      exact .promised _

theorem CustomInv.wake {st : CustomGate} (h : CustomInv st) (overload : LifecycleOverload)
    {r : RequestId} (wake : Wake) (hr : st.consultation r = .promised) :
    CustomInv (wakeCustom overload st r wake) := by
  obtain ⟨-, hnet⟩ := h.undecided (.inr hr)
  cases wake with
  | null =>
      have hserve := h.serve hnet
      rw [wakeCustom, wakeRequest]
      split
      · next htaken =>
          rwa [takeSlot, if_pos htaken] at hserve
      · split
        · exact h.refuse overload hnet
        · split
          · exact h.refuse overload hnet
          · exact hserve
  | response => exact h.refuse overload hnet
  | garbage => exact h.refuse overload hnet
  | rejected => exact h.refuse overload hnet

theorem CustomInv.step {overload : LifecycleOverload} {st st' : CustomGate} {e : CustomEvent}
    (h : CustomInv st) (hkeep : KeepsAccounts st e) (hstep : customStep overload st e = some st') :
    CustomInv st' := by
  cases e with
  | arrive r =>
      obtain ⟨hr, ⟨⟩⟩ := Option.ite_none_right_eq_some.mp hstep
      exact h.arrive overload hr
  | admits r =>
      obtain ⟨hr, ⟨⟩⟩ := Option.ite_none_left_eq_some.mp hstep
      exact h.admits hr hkeep
  | decide r decision =>
      obtain ⟨hr, ⟨⟩⟩ := Option.ite_none_right_eq_some.mp hstep
      exact h.decide overload hr hkeep
  | wake r wake =>
      obtain ⟨hr, ⟨⟩⟩ := Option.ite_none_right_eq_some.mp hstep
      exact h.wake overload wake hr
  | release r =>
      obtain ⟨hr, ⟨⟩⟩ := Option.ite_none_right_eq_some.mp hstep
      exact h.release overload hr
  | close =>
      obtain ⟨-, ⟨⟩⟩ := Option.ite_none_left_eq_some.mp hstep
      have hlc : startDraining st.lifecycle =
          { st.lifecycle with draining := true, queue := [] } := by
        rw [startDraining, h.queue]
        rfl
      rw [hlc]
      exact ⟨rfl, h.balanced, h.ticket⟩

/-! ### The accounts -/

/-- The request is served, or has taken its slot ahead of the decision. -/
def CustomGate.Occupies (st : CustomGate) (r : RequestId) : Prop :=
  st.lifecycle.phase r = .running ∨
    (st.consultation r = .asked ∨ st.consultation r = .promised) ∧ st.lifecycle.taken r = true

/-- A refused request has added nothing to the counter, a running one exactly
one, and nothing else than requests that occupy a slot is counted. -/
structure Accounted (st : CustomGate) : Prop where
  refused : ∀ r, st.lifecycle.phase r = .refused → st.net r = 0
  running : ∀ r, st.lifecycle.phase r = .running → st.net r = 1
  released : ∀ r, st.lifecycle.phase r = .released → st.net r = 0
  escaped : ∀ r, st.consultation r = .escaped → st.net r = 0
  counted : ∃ holders : Finset RequestId, (∀ r, r ∈ holders ↔ st.Occupies r) ∧
    st.lifecycle.inFlight = holders.card

theorem Ticket.net_eq {phase : Phase} {consultation : Consultation} {taken : Bool} {net : ℤ}
    (h : Ticket phase consultation taken net) :
    net = if phase = .running ∨ (consultation = .asked ∨ consultation = .promised) ∧ taken = true
      then 1 else 0 := by
  cases h <;> simp

/-- What is left of a request when the strategy is done with it. -/
theorem Ticket.settled {phase : Phase} {consultation : Consultation} {taken : Bool} {net : ℤ}
    (h : Ticket phase consultation taken net) :
    (phase = .refused → net = 0) ∧ (phase = .running → net = 1) ∧ (phase = .released → net = 0) ∧
      (consultation = .escaped → net = 0) := by
  cases h <;> simp

theorem CustomInv.accounted {st : CustomGate} (h : CustomInv st) : Accounted st := by
  have hnet : ∀ r, st.net r = 1 ∧ st.Occupies r ∨ st.net r = 0 ∧ ¬st.Occupies r := by
    intro r
    have heq := (h.ticket r).net_eq
    by_cases hr : st.Occupies r
    · exact .inl ⟨heq.trans (if_pos hr), hr⟩
    · exact .inr ⟨heq.trans (if_neg hr), hr⟩
  refine ⟨fun r => (h.ticket r).settled.1, fun r => (h.ticket r).settled.2.1,
    fun r => (h.ticket r).settled.2.2.1, fun r => (h.ticket r).settled.2.2.2, ?_⟩
  obtain ⟨seen, hout, hsum⟩ := h.balanced
  refine ⟨seen.filter fun r => st.net r = 1, ?_, ?_⟩
  · intro r
    rw [Finset.mem_filter]
    rcases hnet r with ⟨hone, hr⟩ | ⟨hzero, hr⟩
    · refine iff_of_true ⟨?_, hone⟩ hr
      by_contra hnot
      have hzero := hout r hnot
      omega
    · exact iff_of_false (fun hmem => by omega) hr
  · rw [hsum, Finset.card_filter]
    push_cast
    apply Finset.sum_congr rfl
    intro r _
    rcases hnet r with ⟨hone, -⟩ | ⟨hzero, -⟩
    · rw [if_pos hone, hone]
    · rw [if_neg (by omega), hzero]

theorem createCustomGate_inv : CustomInv createCustomGate where
  queue := rfl
  balanced := ⟨∅, fun _ _ => rfl, rfl⟩
  ticket _ := .unseen

/-- A step that does not keep the accounts leaves a request with a slot that
nothing gives back. -/
theorem CustomInv.loses {overload : LifecycleOverload} {st st' : CustomGate} {e : CustomEvent}
    (h : CustomInv st) (hkeep : ¬KeepsAccounts st e) (hstep : customStep overload st e = some st') :
    ¬Accounted st' := by
  intro hacc
  cases e with
  | admits r =>
      obtain ⟨hgiven, ⟨⟩⟩ := Option.ite_none_left_eq_some.mp hstep
      have hticket := h.ticket r
      rw [CustomGate.HasTicket] at hticket
      have hphase : (takeSlot st.lifecycle r).phase r = st.lifecycle.phase r := by
        rw [takeSlot_phase]
      have hnet : (st.charge r (takeSlot st.lifecycle r) (st.consultation r)).net r =
          st.net r + (1 - if st.lifecycle.taken r then 1 else 0) := by
        show Function.update st.net r _ r = _
        rw [Function.update_self, takeSlot_inFlight]
        omega
      have hconsult : (st.charge r (takeSlot st.lifecycle r) (st.consultation r)).consultation r =
        st.consultation r := Function.update_self _ _ _
      have hlost : st.lifecycle.phase r = .refused ∨ st.consultation r = .escaped := by
        by_contra hnot
        rw [not_or] at hnot
        exact hkeep hnot
      rcases hlost with hrefused | hescaped
      · have hzero := hacc.refused r (hphase.trans hrefused)
        rw [hnet] at hzero
        rw [hrefused] at hticket
        generalize st.consultation r = consultation, st.lifecycle.taken r = taken,
          st.net r = net at *
        cases hticket with
        | turnedAway => exact hgiven rfl
        | refused => simp at hzero
      · have hzero := hacc.escaped r (hconsult.trans hescaped)
        rw [hnet] at hzero
        rw [hescaped] at hticket
        generalize st.lifecycle.phase r = phase, st.lifecycle.taken r = taken,
          st.net r = net at *
        cases hticket with
        | escaped => simp at hzero
  | decide r decision =>
      obtain ⟨hasked, ⟨⟩⟩ := Option.ite_none_right_eq_some.mp hstep
      cases decision with
      | undefined =>
          obtain ⟨-, hnet⟩ := h.undecided (.inl hasked)
          have htaken : st.lifecycle.taken r = true := Bool.not_eq_false _ ▸ hkeep
          have hzero := hacc.escaped r (Function.update_self _ _ _)
          have hkept : (decideCustom overload st r .undefined).net r = st.net r := by
            show Function.update st.net r _ r = _
            rw [Function.update_self, sub_self, add_zero]
          rw [hkept, hnet, htaken] at hzero
          simp at hzero
      | _ => exact hkeep trivial
  | _ => exact hkeep trivial

/-- Slot accounting under a custom strategy. It holds along every run in which
no `admit()` comes after the refusal of its request and no strategy that has
taken the slot answers `undefined`; each step of these kinds breaks it. -/
theorem strategy_accounting (overload : LifecycleOverload) {st : CustomGate}
    (h : (customGate overload).Reach KeepsAccounts st) :
    Accounted st ∧ ∀ e st', customStep overload st e = some st' →
      (Accounted st' ↔ KeepsAccounts st e) := by
  have hinv : CustomInv st :=
    h.invariant createCustomGate_inv fun _ _ _ hs hkeep hstep => hs.step hkeep hstep
  refine ⟨hinv.accounted, fun e st' hstep => ⟨?_, ?_⟩⟩
  · intro hacc
    by_contra hkeep
    exact hinv.loses hkeep hstep hacc
  · exact fun hkeep => (hinv.step hkeep hstep).accounted

def onePlace : LifecycleOverload := { smallOverload with maxQueue := 0 }

theorem strategy_accounting_refill :
    ∃ st, (customGate onePlace).runFrom createCustomGate
        [.arrive 0, .arrive 1, .decide 1 .promise, .release 0, .admits 1, .wake 1 .null] = some st ∧
      Accounted st :=
  ⟨_, rfl, (strategy_accounting onePlace
    (.step (e := .wake 1 .null) (.step (e := .admits 1) (.step (e := .release 0)
      (.step (e := .decide 1 .promise) (.step (e := .arrive 1) (.step (e := .arrive 0) .start
        trivial rfl) trivial rfl) trivial rfl) trivial rfl) ⟨by decide, by decide⟩ rfl)
      trivial rfl)).1⟩

/-- A strategy that refuses a request and calls its `admit()` afterwards keeps
the only place of an idle application. -/
theorem strategy_accounting_late_admit :
    ∃ st, (customGate onePlace).runFrom createCustomGate
        [.arrive 0, .arrive 1, .decide 1 .response, .admits 1, .release 0] = some st ∧
      st.lifecycle.phase 0 = .released ∧ st.lifecycle.phase 1 = .refused ∧ st.net 1 = 1 ∧
      st.lifecycle.inFlight = 1 :=
  ⟨_, rfl, by decide, by decide, by decide, by decide⟩

end Keala.Core
