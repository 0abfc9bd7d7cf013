import Keala.Core.GateAccounting
import Keala.Core.Serve

/-!
What the operations of the gate leave alone: the phases of other requests, and
the drain-completion callbacks, which a release wakes but never drops.
-/

namespace Keala.Core

def LifecycleState.callbacks (lc : LifecycleState) : List ℕ := lc.woken ++ lc.closeWaiters

structure Undisturbed (lc lc' : LifecycleState) : Prop where
  phase : lc'.phase = lc.phase
  callbacks : lc'.callbacks = lc.callbacks

theorem Undisturbed.refl (lc : LifecycleState) : Undisturbed lc lc := ⟨rfl, rfl⟩

theorem Undisturbed.trans {lc mid lc' : LifecycleState} (h : Undisturbed lc mid)
    (h' : Undisturbed mid lc') : Undisturbed lc lc' :=
  ⟨h'.phase.trans h.phase, h'.callbacks.trans h.callbacks⟩

theorem Undisturbed.foldl {α : Type} {f : LifecycleState → α → LifecycleState}
    (hf : ∀ lc a, Undisturbed lc (f lc a)) (l : List α) (lc : LifecycleState) :
    Undisturbed lc (l.foldl f lc) := by
  induction l generalizing lc with
  | nil => exact .refl lc
  | cons a l ih => exact (hf lc a).trans (ih (f lc a))

/-! ### Slots -/

theorem finishSlot_undisturbed (lc : LifecycleState) (s : SlotId) (value : Verdict) :
    Undisturbed lc (finishSlot lc s value) := by
  rw [finishSlot]
  split
  · exact .refl lc
  · exact ⟨rfl, rfl⟩

theorem takeSlot_undisturbed (lc : LifecycleState) (r : RequestId) :
    Undisturbed lc (takeSlot lc r) := by
  rw [takeSlot]
  split
  · exact .refl lc
  · exact ⟨rfl, rfl⟩

theorem admitSlot_undisturbed (lc : LifecycleState) (s : SlotId) :
    Undisturbed lc (admitSlot lc s) := by
  rw [admitSlot]
  split
  · exact .refl lc
  · split
    · exact finishSlot_undisturbed lc s _
    · next r _ =>
        have htransfer : Undisturbed (takeSlot lc r)
            { takeSlot lc r with transferred := (takeSlot lc r).transferred ++ [r] } := ⟨rfl, rfl⟩
        exact (takeSlot_undisturbed lc r).trans
          (htransfer.trans (finishSlot_undisturbed _ s .admitted))

theorem dropSlot_undisturbed (lc : LifecycleState) (s : SlotId) (reason : OverloadReason) :
    Undisturbed lc (dropSlot lc s reason) := by
  rw [dropSlot]
  split
  · exact .refl lc
  · exact finishSlot_undisturbed lc s _

theorem leaveSlot_undisturbed (lc : LifecycleState) (s : SlotId) :
    Undisturbed lc (leaveSlot lc s) := by
  rw [leaveSlot]
  split
  · exact .refl lc
  · have hqueue : Undisturbed lc { lc with queue := lc.queue.erase s } := ⟨rfl, rfl⟩
    exact hqueue.trans (finishSlot_undisturbed _ s _)

theorem popSlot_undisturbed (lc : LifecycleState) : Undisturbed lc (popSlot lc).1 := by
  rw [popSlot]
  split
  · exact ⟨rfl, rfl⟩
  · exact ⟨rfl, rfl⟩

theorem armSlot_undisturbed (overload : LifecycleOverload) (lc : LifecycleState) (s : SlotId)
    (r : RequestId) : Undisturbed lc (armSlot overload lc s r) := by
  rw [armSlot]
  dsimp only
  split
  · refine Undisturbed.trans ?_ (finishSlot_undisturbed _ s (.refused .queue))
    exact ⟨rfl, rfl⟩
  · exact ⟨rfl, rfl⟩

theorem enqueueRequest_undisturbed (overload : LifecycleOverload) (lc : LifecycleState)
    (r : RequestId) : Undisturbed lc (enqueueRequest overload lc r) := by
  rw [enqueueRequest]
  dsimp only
  have harmed := (popSlot_undisturbed lc).trans
    (armSlot_undisturbed overload (popSlot lc).1 (popSlot lc).2 r)
  split
  · exact harmed
  · exact harmed.trans ⟨rfl, rfl⟩

/-! ### Releases -/

theorem refillFromQueue_undisturbed (overload : Option LifecycleOverload) (queue : List SlotId)
    (lc : LifecycleState) : Undisturbed lc (refillFromQueue overload queue lc) := by
  induction queue generalizing lc with
  | nil => exact ⟨rfl, rfl⟩
  | cons s rest ih =>
      rw [refillFromQueue]
      split
      · have hqueue : Undisturbed lc { lc with queue := rest } := ⟨rfl, rfl⟩
        exact (hqueue.trans (admitSlot_undisturbed _ s)).trans (ih _)
      · exact ⟨rfl, rfl⟩

theorem wakeCloseWaiters_undisturbed (lc : LifecycleState) :
    Undisturbed lc (wakeCloseWaiters lc) := by
  refine ⟨rfl, ?_⟩
  show (lc.woken ++ lc.closeWaiters) ++ [] = lc.woken ++ lc.closeWaiters
  exact List.append_nil _

theorem releaseInFlight_undisturbed (overload : Option LifecycleOverload) (lc : LifecycleState) :
    Undisturbed lc (releaseInFlight overload lc) := by
  have hcount : Undisturbed lc { lc with inFlight := lc.inFlight - 1 } := ⟨rfl, rfl⟩
  have hrefill : Undisturbed lc
      (if lc.queue ≠ [] ∧ overload.isSome then
        refillFromQueue overload lc.queue { lc with inFlight := lc.inFlight - 1 }
      else { lc with inFlight := lc.inFlight - 1 }) := by
    split
    · exact hcount.trans (refillFromQueue_undisturbed overload _ _)
    · exact hcount
  rw [releaseInFlight]
  dsimp only
  revert hrefill
  generalize (if lc.queue ≠ [] ∧ overload.isSome then
    refillFromQueue overload lc.queue { lc with inFlight := lc.inFlight - 1 }
    else { lc with inFlight := lc.inFlight - 1 }) = mid
  intro hrefill
  split
  · exact hrefill.trans (wakeCloseWaiters_undisturbed mid)
  · exact hrefill

theorem startDraining_undisturbed (lc : LifecycleState) : Undisturbed lc (startDraining lc) := by
  have hflip : Undisturbed lc { lc with draining := true, queue := [] } := ⟨rfl, rfl⟩
  exact hflip.trans (.foldl (fun lc s => dropSlot_undisturbed lc s .draining) lc.queue _)

theorem abortRequest_undisturbed (lc : LifecycleState) (r : RequestId) :
    Undisturbed lc (abortRequest lc r) := by
  have habort : Undisturbed lc
      { lc with
        aborted := Function.update lc.aborted r true
        listeners := Function.update lc.listeners r [] } := ⟨rfl, rfl⟩
  exact habort.trans (.foldl leaveSlot_undisturbed (lc.listeners r) _)

/-! ### Admissions -/

structure Spared (lc lc' : LifecycleState) : Prop where
  running : ∀ q, lc.phase q = .running → lc'.phase q = .running
  released : ∀ q, lc'.phase q = .released ↔ lc.phase q = .released

theorem Undisturbed.spared {lc lc' : LifecycleState} (h : Undisturbed lc lc') : Spared lc lc' := by
  refine ⟨?_, ?_⟩
  · intro q hq
    rw [h.phase]
    exact hq
  · intro q
    rw [h.phase]

/-- A request that is not yet served changes its phase. -/
theorem Undisturbed.spared_setPhase {lc lc' : LifecycleState} (h : Undisturbed lc lc')
    {r : RequestId} {phase : Phase} (hrunning : lc.phase r ≠ .running)
    (hreleased : lc.phase r ≠ .released) (hphase : phase ≠ .released) :
    Spared lc (lc'.setPhase r phase) := by
  have hother : ∀ q, q ≠ r → (lc'.setPhase r phase).phase q = lc.phase q := by
    intro q hq
    show Function.update lc'.phase r phase q = _
    rw [Function.update_of_ne hq, h.phase]
  refine ⟨?_, ?_⟩
  · intro q hq
    have hne : q ≠ r := by
      rintro rfl
      exact hrunning hq
    rw [hother q hne]
    exact hq
  · intro q
    by_cases heq : q = r
    · subst heq
      show Function.update lc'.phase q phase q = .released ↔ _
      rw [Function.update_self]
      exact iff_of_false hphase hreleased
    · rw [hother q heq]

/-- A request that has not reached its handler gets a phase that is not a release. -/
def TurnsTo (lc : LifecycleState) (r : RequestId) (lc' : LifecycleState) : Prop :=
  Undisturbed lc lc' ∨
    ∃ mid phase, Undisturbed lc mid ∧ phase ≠ .released ∧ lc' = mid.setPhase r phase

theorem TurnsTo.setPhase {lc mid : LifecycleState} (h : Undisturbed lc mid) {r : RequestId}
    {phase : Phase} (hphase : phase ≠ .released) : TurnsTo lc r (mid.setPhase r phase) :=
  .inr ⟨mid, phase, h, hphase, rfl⟩

theorem TurnsTo.callbacks {lc lc' : LifecycleState} {r : RequestId} (h : TurnsTo lc r lc') :
    lc'.callbacks = lc.callbacks := by
  rcases h with h | ⟨mid, phase, h, -, rfl⟩
  · exact h.callbacks
  · exact h.callbacks

theorem TurnsTo.spared {lc lc' : LifecycleState} {r : RequestId} (h : TurnsTo lc r lc')
    (hrunning : lc.phase r ≠ .running) (hreleased : lc.phase r ≠ .released) : Spared lc lc' := by
  rcases h with h | ⟨mid, phase, h, hphase, rfl⟩
  · exact h.spared
  · exact h.spared_setPhase hrunning hreleased hphase

theorem refuseRequest_turnsTo (overload : Option LifecycleOverload) (lc : LifecycleState)
    (r : RequestId) : TurnsTo lc r (refuseRequest overload lc r) := by
  rw [refuseRequest]
  refine .setPhase ?_ (by decide)
  split
  · have hgive : Undisturbed lc { lc with taken := Function.update lc.taken r false } := ⟨rfl, rfl⟩
    exact hgive.trans (releaseInFlight_undisturbed overload _)
  · exact .refl lc

theorem admitRequest_turnsTo (overload : Option LifecycleOverload) (lc : LifecycleState)
    (r : RequestId) : TurnsTo lc r (admitRequest overload lc r) := by
  rw [admitRequest.eq_def]
  split
  · exact .setPhase (.refl lc) (by decide)
  · split
    · have hcount : Undisturbed lc { lc with inFlight := lc.inFlight + 1 } := ⟨rfl, rfl⟩
      exact .setPhase hcount (by decide)
    · cases overload with
      | none => exact .inl (.refl lc)
      | some config =>
          dsimp only
          split
          · exact refuseRequest_turnsTo _ lc r
          · split
            · exact refuseRequest_turnsTo _ lc r
            · exact .setPhase (enqueueRequest_undisturbed config lc r) (by decide)

theorem wakeRequest_turnsTo (overload : Option LifecycleOverload) (lc : LifecycleState)
    (r : RequestId) (value : Verdict) : TurnsTo lc r (wakeRequest overload lc r value) := by
  cases value with
  | refused reason => exact refuseRequest_turnsTo overload lc r
  | admitted =>
      rw [wakeRequest]
      split
      · exact .setPhase (.refl lc) (by decide)
      · split
        · exact refuseRequest_turnsTo overload lc r
        · split
          · exact refuseRequest_turnsTo overload lc r
          · exact .setPhase (takeSlot_undisturbed lc r) (by decide)

/-- The short cut of an unconfigured application is the gate without a bound. -/
theorem handleRequestSource_eq (overload : Option LifecycleOverload) (lc : LifecycleState)
    (r : RequestId) : handleRequestSource overload lc r = admitRequest overload lc r := by
  rw [handleRequestSource]
  split
  · next h =>
      rw [Bool.and_eq_true, Bool.not_eq_true', Option.isNone_iff_eq_none] at h
      obtain ⟨hd, rfl⟩ := h
      have hroom : hasRoom none lc.inFlight = true := rfl
      rw [admitRequest.eq_def, if_neg (by rw [hd]; exact Bool.false_ne_true), if_pos hroom]
  · rfl

theorem admissionStep_eq (overload : Option LifecycleOverload) (lc : LifecycleState) {e : GateEvent}
    (he : ∀ r, e ≠ .release r) : admissionStep overload lc e = gateStep overload lc e := by
  cases e with
  | release r => exact absurd rfl (he r)
  | arrive r =>
      rw [admissionStep, gateStep, handleRequestSource_eq]
  | _ => rfl

theorem GateInv.admissionStep {overload : Option LifecycleOverload} {lc lc' : LifecycleState}
    (h : GateInv overload lc) {e : GateEvent} (hstep : admissionStep overload lc e = some lc') :
    GateInv overload lc' := by
  have he : ∀ r, e ≠ .release r := by
    rintro r rfl
    cases hstep
  rw [admissionStep_eq overload lc he] at hstep
  exact h.step hstep

theorem admissionStep_frame {overload : Option LifecycleOverload} {lc lc' : LifecycleState}
    {e : GateEvent} (hstep : admissionStep overload lc e = some lc') :
    Spared lc lc' ∧ lc'.callbacks = lc.callbacks ++ registered lc e := by
  have hquiet : Undisturbed lc lc' → registered lc e = [] →
      Spared lc lc' ∧ lc'.callbacks = lc.callbacks ++ registered lc e := by
    intro h hnone
    rw [hnone, List.append_nil]
    exact ⟨h.spared, h.callbacks⟩
  cases e with
  | release r => cases hstep
  | arrive r =>
      rw [admissionStep] at hstep
      split at hstep
      · next hr =>
          cases hstep
          rw [handleRequestSource_eq]
          have hturn := admitRequest_turnsTo overload lc r
          exact ⟨hturn.spared (by rw [hr]; decide) (by rw [hr]; decide),
            hturn.callbacks.trans (List.append_nil _).symm⟩
      · cases hstep
  | wake r =>
      change gateStep overload lc (.wake r) = some lc' at hstep
      rw [gateStep] at hstep
      split at hstep
      · next hr =>
          obtain ⟨value, -, rfl⟩ := Option.map_eq_some_iff.mp hstep
          have hturn := wakeRequest_turnsTo overload lc r value
          exact ⟨hturn.spared (by rw [hr]; decide) (by rw [hr]; decide),
            hturn.callbacks.trans (List.append_nil _).symm⟩
      · cases hstep
  | timeout s =>
      change gateStep overload lc (.timeout s) = some lc' at hstep
      rw [gateStep] at hstep
      split at hstep
      · cases hstep
        exact hquiet (leaveSlot_undisturbed lc s) rfl
      · cases hstep
  | abort r =>
      change gateStep overload lc (.abort r) = some lc' at hstep
      rw [gateStep] at hstep
      split at hstep
      · cases hstep
      · cases hstep
        exact hquiet (abortRequest_undisturbed lc r) rfl
  | close =>
      change gateStep overload lc .close = some lc' at hstep
      rw [gateStep] at hstep
      split at hstep
      · cases hstep
      · cases hstep
        exact hquiet (startDraining_undisturbed lc) rfl
  | subscribe waiter =>
      change gateStep overload lc (.subscribe waiter) = some lc' at hstep
      rw [gateStep] at hstep
      split at hstep
      · cases hstep
        rw [registered, subscribeSettled]
        split
        · exact ⟨(Undisturbed.refl lc).spared, (List.append_nil _).symm⟩
        · exact ⟨⟨fun q hq => hq, fun q => Iff.rfl⟩, (List.append_assoc _ _ _).symm⟩
      · cases hstep

end Keala.Core
