import Keala.Core.CloseSteps

/-!
What a graceful close promises in every reachable state, and that the loop over
the handlers goes on by itself unless it was told to wait without a cap.
-/

namespace Keala.Core

open Keala.Js

variable {overload : Option LifecycleOverload} {s : CloseState}

/-! ### How far the loop is -/

def CloseState.left (s : CloseState) : ℕ :=
  match s.loop with
  | none => 0
  | some loop => 2 * s.behind.length + if loop.called then 1 else 0

/-- Bounds the events of the loop and the reactions that are still to come. -/
def CloseState.budget (s : CloseState) : ℕ := s.left + (s.made - s.settled.length)

theorem left_of_loop {t : CloseState} (h : t.loop = s.loop) : t.left = s.left := by
  rw [CloseState.left, CloseState.left, CloseState.behind, CloseState.behind, h]

theorem left_of_called (loop : HookLoop) (hloop : s.loop = some loop)
    (hcalled : loop.called = true) : s.left = 2 * loop.rest.length + 1 := by
  rw [CloseState.left, CloseState.behind, hloop]
  dsimp only
  rw [if_pos hcalled, if_pos hcalled]

theorem left_of_uncalled {loop : HookLoop} (hloop : s.loop = some loop)
    (hcalled : loop.called = false) : s.left = 2 * (loop.rest.length + 1) := by
  rw [CloseState.left, CloseState.behind, hloop]
  dsimp only
  rw [hcalled]
  rfl

/-- By induction on the handlers, as the loop goes. -/
theorem nextHook_left {cap : ℚ} {hooks : List Hook} (h : Books overload s)
    (hbetween : Between s hooks) (hcap : cap = (s.runs 0).cap) (hthrough : 0 ∉ s.through) :
    (CloseState.nextHook 0 cap hooks s).left ≤ 2 * hooks.length := by
  induction hooks generalizing s with
  | nil => exact le_refl _
  | cons hook rest ih =>
      rw [CloseState.nextHook]
      split
      · rw [left_of_uncalled rfl rfl, List.length_cons]
      · obtain ⟨hinv, hmoves, haside⟩ :=
          callHook_spec h ⟨0, cap, hook, false, rest⟩ hbetween rfl hcap hthrough
        dsimp only
        split
        · obtain ⟨hnext, hnot⟩ := between_of_called hinv haside.loop rfl
          have hrest := ih hinv.books hnext
            (hcap.trans (hmoves.cap 0 hbetween.made).symm) hnot
          rw [List.length_cons]
          omega
        · rw [left_of_called _ haside.loop rfl, List.length_cons]
          change 2 * rest.length + 1 ≤ _
          omega

theorem CloseInv.settled_length (h : CloseInv overload s) : s.settled.length ≤ s.made := by
  have hnodup : (s.settled.map Prod.fst).Nodup := (List.nodup_append.mp h.books.nodup).2.1
  have hsub : s.settled.map Prod.fst ⊆ List.range s.made := by
    intro k hk
    have hended := h.books.ended k (List.mem_append_right _ hk)
    rw [List.mem_range]
    by_contra hnot
    rw [(h.books.fresh k (by omega)).1] at hended
    cases hended
  have hlength := (hnodup.subperm hsub).length_le
  rw [List.length_map, List.length_range] at hlength
  exact hlength

theorem Ran.left_le (h : Ran s) : s.left ≤ 2 * s.awaited.length + 1 := by
  have hlength := congrArg List.length h.between.awaited
  rw [List.length_append] at hlength
  rw [CloseState.left]
  split
  · exact Nat.zero_le _
  · split
    · omega
    · omega

/-- The loop goes on from a handler that was called. -/
theorem nextHook_lowers (h : Steady overload s) {loop : HookLoop} (hloop : s.loop = some loop)
    (hcalled : loop.called = true) :
    (CloseState.nextHook loop.close loop.cap loop.rest s).left + 1 ≤ s.left := by
  obtain ⟨hbetween, hnot⟩ := between_of_called h.1 hloop hcalled
  obtain ⟨hclose, hcap⟩ := (h.1.ran hbetween.ran).loop loop hloop
  have hleft := nextHook_left h.1.books hbetween hcap hnot
  rw [left_of_called loop hloop hcalled, hclose]
  omega

/-- A step takes its share of the budget, by cases on the event. -/
theorem step_budget (h : Steady overload s) (hran : s.shutdownRan = true) {e : CloseEvent}
    {t : CloseState} (hstep : s.step overload e = some t) :
    t.budget + (if e.loops then 1 else 0) ≤ s.budget := by
  have hkept := step_kept h.1 h.2 hstep
  have hmade : t.made = s.made := by
    have hpromised := h.1.books.promised h.2
    rw [if_neg (Nat.pos_iff_ne_zero.mp (h.1.ran hran).between.made)] at hpromised
    exact (hkept.later.promise 0 hpromised).2
  -- Outside the loop nothing of what the budget counts has changed.
  have hquiet : e.loops = false → e ≠ .resolve →
      t.budget + (if e.loops then 1 else 0) ≤ s.budget := by
    intro he hne
    rw [he, CloseState.budget, CloseState.budget, left_of_loop (hkept.aside he hran).loop,
      hkept.settled hne, hmade]
    exact le_refl _
  -- An event of the loop takes one from what the loop has before it.
  have hloops : e.loops = true → e ≠ .resolve → t.left + 1 ≤ s.left →
      t.budget + (if e.loops then 1 else 0) ≤ s.budget := by
    intro he hne hlower
    rw [he, CloseState.budget, CloseState.budget, hkept.settled hne, hmade]
    change _ + 1 ≤ _
    omega
  cases e with
  | gate e => exact hquiet rfl fun heq => by cases heq
  | register calls throws => exact hquiet rfl fun heq => by cases heq
  | close options => exact hquiet rfl fun heq => by cases heq
  | drainTimer k => exact hquiet rfl fun heq => by cases heq
  | callHook =>
      rw [CloseState.step] at hstep
      split at hstep
      · next loop hloop =>
          split at hstep
          · cases hstep
          · next hcalled =>
              cases hstep
              have hcalled : loop.called = false := by simpa using hcalled
              have haside := (callHook_kept h.1 h.2 hloop hcalled).2
              have hafter : (s.callHook loop).left = 2 * loop.rest.length + 1 :=
                left_of_called { loop with called := true } haside.loop rfl
              refine hloops rfl (fun heq => by cases heq) ?_
              rw [left_of_uncalled hloop hcalled, hafter]
              omega
      · cases hstep
  | hookEnds outcome =>
      rw [CloseState.step] at hstep
      split at hstep
      · next loop hloop =>
          split at hstep
          · next hcalled =>
              cases hstep
              exact hloops rfl (fun heq => by cases heq) (nextHook_lowers h hloop hcalled)
          · cases hstep
      · cases hstep
  | capExpires =>
      rw [CloseState.step] at hstep
      split at hstep
      · next loop hloop =>
          split at hstep
          · next hcalled =>
              cases hstep
              exact hloops rfl (fun heq => by cases heq) (nextHook_lowers h hloop hcalled.1)
          · cases hstep
      · cases hstep
  | resolve =>
      rw [CloseState.step] at hstep
      split at hstep
      · cases hstep
      · next k rest hpending =>
          -- The reaction settles a promise that the budget has counted.
          cases hstep
          have hlength := hkept.inv.settled_length
          have hleft : CloseState.left
              { s with pending := rest, settled := s.settled ++ [(k, s.status k)] } = s.left :=
            left_of_loop rfl
          rw [CloseState.budget, CloseState.budget, hleft]
          dsimp only at hlength ⊢
          rw [List.length_append, List.length_singleton] at hlength ⊢
          change _ + 1 ≤ _
          omega

theorem run_budget (h : Steady overload s) (hran : s.shutdownRan = true) {es : List CloseEvent}
    {t : CloseState} (hrun : (closing overload).runFrom s es = some t) :
    es.countP CloseEvent.loops + t.budget ≤ s.budget := by
  induction es generalizing s with
  | nil =>
      cases hrun
      exact (Nat.zero_add _).le
  | cons e es ih =>
      obtain ⟨mid, hmid, hrest⟩ := Option.bind_eq_some_iff.mp hrun
      have hkept := step_kept h.1 h.2 hmid
      have hstep := step_budget h hran hmid
      have htail := ih ⟨hkept.inv, hkept.creating⟩ (hkept.later.kept hran).1 hrest
      rw [List.countP_cons]
      omega

/-- The events that take the loop on: no handler has to end unless there is no cap. -/
def CloseEvent.onward (cap : ℚ) : CloseEvent → Bool
  | .callHook => true
  | .capExpires => decide (0 < cap)
  | .hookEnds _ => decide (¬ 0 < cap)
  | .resolve => true
  | _ => false

theorem onward_enabled (h : Steady overload s) (hran : s.shutdownRan = true)
    (hopen : 0 ∉ s.settled.map Prod.fst) :
    ∃ e, CloseEvent.onward (s.runs 0).cap e = true ∧ (s.step overload e).isSome = true := by
  have hphase := h.1.ran hran
  cases hloop : s.loop with
  | none =>
      have hthrough := hphase.through.mpr hloop
      have hpending := (List.mem_append.mp hthrough).resolve_right hopen
      cases hlist : s.pending with
      | nil =>
          rw [hlist] at hpending
          exact absurd hpending List.not_mem_nil
      | cons k rest =>
          refine ⟨.resolve, rfl, ?_⟩
          rw [CloseState.step, hlist]
          rfl
  | some loop =>
      have hcap := (hphase.loop loop hloop).2
      by_cases hcalled : loop.called = true
      · by_cases hpos : 0 < loop.cap
        · refine ⟨.capExpires, ?_, ?_⟩
          · rw [CloseEvent.onward, ← hcap]
            exact decide_eq_true hpos
          · rw [CloseState.step, hloop]
            dsimp only
            rw [if_pos ⟨hcalled, hpos⟩]
            rfl
        · refine ⟨.hookEnds .fulfilled, ?_, ?_⟩
          · rw [CloseEvent.onward, ← hcap]
            exact decide_eq_true hpos
          · rw [CloseState.step, hloop]
            dsimp only
            rw [if_pos hcalled]
            rfl
      · refine ⟨.callHook, rfl, ?_⟩
        rw [CloseState.step, hloop]
        dsimp only
        rw [if_neg hcalled]
        rfl

/-! ### What a close promises -/

/-- What a graceful close promises. The calls that a handler makes while its own
`close()` is still creating the promise are left out. -/
structure Graceful (overload : Option LifecycleOverload) (s : CloseState) : Prop where
  /-- All calls return the first promise. -/
  promise : ∀ promise, (false, promise) ∈ s.returned → promise = 0
  /-- No promise settles twice. -/
  once : (s.settled.map Prod.fst).Nodup
  /-- The handlers are started in the order of registration, none of them twice. -/
  order : s.started <+: s.awaited ∧ s.awaited <+: s.registered ∧
    (s.registered.map Hook.index).Nodup
  /-- No handler is started before the drain has ended. -/
  ended : s.started ≠ [] → ∃ why, (s.runs 0).ended = some why ∧
    (why = .zero → s.lifecycle.inFlight = 0)
  /-- The end of the drain takes every handler registered so far. -/
  taken : ∀ e t, s.step overload e = some t → (s.runs 0).ended = none →
    (t.runs 0).ended ≠ none → t.awaited = s.registered
  kept : ∀ e t, s.step overload e = some t → (s.runs 0).ended ≠ none →
    (t.runs 0).ended = (s.runs 0).ended ∧ t.awaited = s.awaited
  /-- Until the promise settles the loop can go on, and it does so a bounded
  number of times. -/
  onward : (s.runs 0).ended ≠ none → 0 ∉ s.settled.map Prod.fst →
    ∃ e, CloseEvent.onward (s.runs 0).cap e = true ∧ (s.step overload e).isSome = true
  bounded : (s.runs 0).ended ≠ none → ∀ es t, (closing overload).runFrom s es = some t →
    es.countP CloseEvent.loops ≤ 2 * s.awaited.length + 1 + s.made
  /-- Every handler has been started when the promise settles. -/
  all : 0 ∈ s.settled.map Prod.fst → s.started = s.awaited
  status : ∀ k status, (k, status) ∈ s.settled → status.timedOut = false → status.inFlight = 0
  /-- A call rejected for its options changes nothing. -/
  rejected : ∀ options after fault, s.closeApp options = (after, .error fault) → after = s

theorem Steady.ran_iff (h : Steady overload s) :
    (s.runs 0).ended ≠ none ↔ s.shutdownRan = true := by
  rcases h.1.phase with hwait | hran
  · exact iff_of_false (fun hne => hne (hwait.ended 0)) hwait.idle.not_ran
  · exact iff_of_true (Option.isSome_iff_ne_none.mp hran.between.ended) hran.between.ran

theorem closeApp_rejected {options : CloseOptions} {after : CloseState} {fault : JsString}
    (h : s.closeApp options = (after, .error fault)) : after = s := by
  rw [CloseState.closeApp, CloseState.closeWith] at h
  split at h
  · cases h
  · split at h
    · cases h
      rfl
    · cases h

/-- A handler without a cap holds the loop until it ends. -/
theorem uncapped_step (h : Steady overload s) {loop : HookLoop} (hloop : s.loop = some loop)
    (hcalled : loop.called = true) (hcap : ¬ 0 < loop.cap) {e : CloseEvent}
    (he : ∀ outcome, e ≠ .hookEnds outcome) {t : CloseState}
    (hstep : s.step overload e = some t) : t.loop = s.loop ∧ t.started = s.started := by
  have hran := (Ran.of_loop h.1 hloop).between.ran
  have haside := (step_kept h.1 h.2 hstep).aside
  have hquiet : e.loops = false → t.loop = s.loop ∧ t.started = s.started :=
    fun hloops => ⟨(haside hloops hran).loop, (haside hloops hran).started⟩
  cases e with
  | gate e => exact hquiet rfl
  | register calls throws => exact hquiet rfl
  | close options => exact hquiet rfl
  | drainTimer k => exact hquiet rfl
  | callHook =>
      rw [CloseState.step, hloop] at hstep
      dsimp only at hstep
      rw [if_pos hcalled] at hstep
      cases hstep
  | hookEnds outcome => exact absurd rfl (he outcome)
  | capExpires =>
      rw [CloseState.step, hloop] at hstep
      dsimp only at hstep
      rw [if_neg fun hboth => hcap hboth.2] at hstep
      cases hstep
  | resolve =>
      rw [CloseState.step] at hstep
      split at hstep
      · cases hstep
      · cases hstep
        exact ⟨rfl, rfl⟩

theorem uncapped_run (h : Steady overload s) {loop : HookLoop} (hloop : s.loop = some loop)
    (hcalled : loop.called = true) (hcap : ¬ 0 < loop.cap) {es : List CloseEvent}
    (hes : ∀ e ∈ es, ∀ outcome, e ≠ .hookEnds outcome) {t : CloseState}
    (hrun : (closing overload).runFrom s es = some t) :
    t.started = s.started ∧ 0 ∉ t.settled.map Prod.fst := by
  induction es generalizing s with
  | nil =>
      cases hrun
      refine ⟨rfl, fun hsettled => ?_⟩
      exact (Ran.of_loop h.1 hloop).not_through hloop (List.mem_append_right _ hsettled)
  | cons e es ih =>
      obtain ⟨mid, hmid, hrest⟩ := Option.bind_eq_some_iff.mp hrun
      have hkept := step_kept h.1 h.2 hmid
      obtain ⟨hkeeps, hstarted⟩ :=
        uncapped_step h hloop hcalled hcap (hes e List.mem_cons_self) hmid
      obtain ⟨hstarted', hopen⟩ := ih ⟨hkept.inv, hkept.creating⟩ (hkeeps.trans hloop)
        (fun e' he' => hes e' (List.mem_cons_of_mem e he')) hrest
      exact ⟨hstarted'.trans hstarted, hopen⟩

end Keala.Core
