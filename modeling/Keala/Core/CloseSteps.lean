import Keala.Core.CloseCalls

/-!
The loop over the shutdown handlers and the steps of a closing application: each
keeps the invariant, from the start on.
-/

namespace Keala.Core

open Keala.Js

variable {overload : Option LifecycleOverload} {s : CloseState}

/-! ### The loop -/

def CloseState.calling (s : CloseState) (loop : HookLoop) : CloseState :=
  { s with started := s.started ++ [loop.hook], loop := some { loop with called := true } }

theorem callHook_spec (h : Books overload s) (loop : HookLoop)
    (hbetween : Between s (loop.hook :: loop.rest)) (hclose : loop.close = 0)
    (hcap : loop.cap = (s.runs 0).cap) (hthrough : 0 ∉ s.through) :
    CloseInv overload (s.callHook loop) ∧ Moves s (s.callHook loop) ∧
      Aside (s.calling loop) (s.callHook loop) := by
  have hran : Ran (s.calling loop) := by
    refine ⟨{ hbetween with awaited := ?_ }, ?_, iff_of_false hthrough (Option.some_ne_none _)⟩
    · exact hbetween.awaited.trans
        (List.append_assoc s.started [loop.hook] loop.rest).symm
    · intro loop' hloop
      cases hloop
      exact ⟨hclose, hcap⟩
  have hcalling : CloseInv overload (s.calling loop) := ⟨{ h with }, .inr hran⟩
  obtain ⟨hinv, hgoes⟩ := hookCalls_spec loop.hook.calls hcalling hran.between.ran
  have hstart : Moves s (s.calling loop) := { Moves.refl s with }
  exact ⟨hinv, hstart.trans hgoes.1, hgoes.2 hran.between.ran⟩

theorem Ran.of_loop (h : CloseInv overload s) {loop : HookLoop} (hloop : s.loop = some loop) :
    Ran s := by
  refine h.phase.resolve_left fun hwait => ?_
  rw [hwait.idle.loop] at hloop
  cases hloop

theorem Ran.not_through (h : Ran s) {loop : HookLoop} (hloop : s.loop = some loop) :
    0 ∉ s.through := by
  rw [h.through, hloop]
  exact Option.some_ne_none loop

/-- A handler has been called: the loop is before the rest. -/
theorem between_of_called (h : CloseInv overload s) {loop : HookLoop} (hloop : s.loop = some loop)
    (hcalled : loop.called = true) : Between s loop.rest ∧ 0 ∉ s.through := by
  have hran := Ran.of_loop h hloop
  have hbehind : s.behind = loop.rest := by
    rw [CloseState.behind, hloop]
    exact if_pos hcalled
  have hbetween := hran.between
  rw [hbehind] at hbetween
  exact ⟨hbetween, hran.not_through hloop⟩

/-- From one handler to the next, by induction on the handlers that are left. -/
theorem nextHook_spec {cap : ℚ} {hooks : List Hook} (h : Books overload s)
    (hbetween : Between s hooks) (hcap : cap = (s.runs 0).cap) (hthrough : 0 ∉ s.through) :
    CloseInv overload (CloseState.nextHook 0 cap hooks s) ∧
      Moves s (CloseState.nextHook 0 cap hooks s) := by
  induction hooks generalizing s with
  | nil =>
      have hdone : Books overload (s.skipHandlers 0) := h.skip hthrough hbetween.ended
      have hmem : 0 ∈ (s.skipHandlers 0).through :=
        List.mem_append_left _ (List.mem_append_right _ List.mem_cons_self)
      refine ⟨⟨{ hdone with }, .inr ⟨{ hbetween with }, ?_, iff_of_true hmem rfl⟩⟩,
        { Moves.refl s with }⟩
      intro loop hloop
      cases hloop
  | cons hook rest ih =>
      rw [CloseState.nextHook]
      split
      · refine ⟨⟨{ h with }, .inr ⟨{ hbetween with }, ?_,
          iff_of_false hthrough (Option.some_ne_none _)⟩⟩, { Moves.refl s with }⟩
        intro loop hloop
        cases hloop
        exact ⟨rfl, hcap⟩
      · obtain ⟨hinv, hmoves, haside⟩ :=
          callHook_spec h ⟨0, cap, hook, false, rest⟩ hbetween rfl hcap hthrough
        dsimp only
        split
        · obtain ⟨hnext, hnot⟩ := between_of_called hinv haside.loop rfl
          obtain ⟨hinv', hmoves'⟩ := ih hinv.books hnext
            (hcap.trans (hmoves.cap 0 hbetween.made).symm) hnot
          exact ⟨hinv', hmoves.trans hmoves'⟩
        · exact ⟨hinv, hmoves⟩

theorem handles_runShutdownHandlers :
    Handles overload CloseState.runShutdownHandlers True := by
  intro s k h hran
  rw [CloseState.runShutdownHandlers]
  split
  · next hs => exact handles_skipHandlers s k h (.inl hs)
  · next hs =>
      obtain ⟨hidle, rfl⟩ := h.phase.resolve_right fun hphase => hs hphase.1.between.ran
      have htaken : Between
          { s with shutdownRan := true, shutdownHandlers := [], awaited := s.shutdownHandlers }
          s.shutdownHandlers := by
        refine ⟨rfl, h.made, h.ended, ?_, ?_⟩
        · rw [List.append_nil]
          exact hidle.handlers.symm
        · change s.shutdownHandlers = s.started ++ s.shutdownHandlers
          rw [hidle.started, List.nil_append]
      have hbooks : Books overload
          { s with shutdownRan := true, shutdownHandlers := [], awaited := s.shutdownHandlers } :=
        { h.books with }
      obtain ⟨hinv, hmoves⟩ := nextHook_spec hbooks htaken rfl h.through
      refine ⟨hinv, { hmoves with taken := ?_, kept := ?_ }, fun htrue => absurd htrue hs⟩
      · intro _ _
        rw [(hmoves.kept rfl).2]
        exact hidle.handlers
      · intro htrue
        exact absurd htrue hs

/-! ### The steps -/

theorem gateStep_callbacks {lc lc' : LifecycleState} {e : GateEvent} (he : e.own = true)
    (hstep : gateStep overload lc e = some lc') : lc'.callbacks = lc.callbacks := by
  have hadmission : (∀ r, e ≠ .release r) → registered lc e = [] →
      lc'.callbacks = lc.callbacks := by
    intro hrelease hnone
    rw [← admissionStep_eq overload lc hrelease] at hstep
    rw [(admissionStep_frame hstep).2, hnone, List.append_nil]
  cases e with
  | release r =>
      rw [gateStep] at hstep
      split at hstep
      · cases hstep
        exact (releaseInFlight_undisturbed overload (lc.setPhase r .released)).callbacks
      · cases hstep
  | arrive r => exact hadmission (fun r' h => by cases h) rfl
  | wake r => exact hadmission (fun r' h => by cases h) rfl
  | timeout slot => exact hadmission (fun r' h => by cases h) rfl
  | abort r => exact hadmission (fun r' h => by cases h) rfl
  | close => cases he
  | subscribe waiter => cases he

/-- The promises woken at zero, by induction on them. -/
theorem wakes_spec {woken : List ℕ} (h : CloseInv overload s) (hwoken : ∀ k ∈ woken, k < s.made)
    (hd : s.lifecycle.draining = true) (hzero : s.lifecycle.inFlight = 0) :
    CloseInv overload
        (woken.foldl (fun s k => s.finish CloseState.runShutdownHandlers k .zero) s) ∧
      Goes s (woken.foldl (fun s k => s.finish CloseState.runShutdownHandlers k .zero) s) := by
  induction woken generalizing s with
  | nil => exact ⟨h, .refl s⟩
  | cons k woken ih =>
      obtain ⟨hinv, hgoes⟩ := finish_spec handles_runShutdownHandlers h
        (hwoken k List.mem_cons_self) .zero (fun _ => hzero) (.inr trivial)
      obtain ⟨hd', hzero'⟩ := hgoes.1.draining hd
      obtain ⟨hinv', hgoes'⟩ := ih hinv
        (fun j hj => (hwoken j (List.mem_cons_of_mem k hj)).trans_le hgoes.1.made) hd'
        (hzero'.trans hzero)
      exact ⟨hinv', hgoes.trans hgoes'⟩

def CloseEvent.loops : CloseEvent → Bool
  | .callHook => true
  | .hookEnds _ => true
  | .capExpires => true
  | .resolve => true
  | _ => false

structure Kept (overload : Option LifecycleOverload) (s : CloseState) (e : CloseEvent)
    (t : CloseState) : Prop where
  inv : CloseInv overload t
  creating : t.creating = false
  later : Later s t
  settled : e ≠ .resolve → t.settled = s.settled
  aside : e.loops = false → s.shutdownRan = true → Aside s t

theorem Kept.of_goes {e : CloseEvent} {t : CloseState} (hcreating : s.creating = false)
    (h : CloseInv overload t ∧ Goes s t) : Kept overload s e t :=
  ⟨h.1, h.2.1.creating.trans hcreating, h.2.1.toLater, fun _ => h.2.1.settled, fun _ => h.2.2⟩

theorem gate_kept (h : CloseInv overload s) (hcreating : s.creating = false) {e : GateEvent}
    (he : e.own = true) {lc : LifecycleState} (hstep : gateStep overload s.lifecycle e = some lc) :
    Kept overload s (.gate e) (s.wake lc) := by
  have hcallbacks := gateStep_callbacks he hstep
  have hbound : ∀ k ∈ lc.callbacks, k < s.made := by
    rw [hcallbacks]
    exact h.books.callbacks
  have hdrains : 0 < s.made → Drains s.lifecycle lc :=
    fun hmade => h.books.gate.drains (h.books.draining hmade) he hstep
  have hgate := h.books.gate.step hstep
  have hnext := h.setLifecycle lc hgate (fun hmade => (hdrains hmade).draining) hbound (by
    intro hmade hzero
    have hle := (hdrains hmade).inFlight
    have hnonneg := hgate.counted.nonneg
    omega)
  rw [CloseState.wake]
  by_cases hnone : lc.woken.drop s.lifecycle.woken.length = []
  · rw [hnone, List.foldl_nil]
    exact ⟨hnext, hcreating, { Later.refl s with }, fun _ => rfl, fun _ _ => ⟨rfl, rfl⟩⟩
  · have hmem : ∀ k ∈ lc.woken.drop s.lifecycle.woken.length, k < s.made :=
      fun k hk => hbound k (List.mem_append_left _ (List.mem_of_mem_drop hk))
    have hmade : 0 < s.made := by
      obtain ⟨k, hk⟩ := List.exists_mem_of_ne_nil _ hnone
      exact Nat.zero_lt_of_lt (hmem k hk)
    have hzero : lc.inFlight = 0 := by
      rcases (hdrains hmade).waiters with ⟨hwoken, -⟩ | ⟨-, -, hzero⟩
      · rw [hwoken, List.drop_length] at hnone
        exact absurd rfl hnone
      · exact hzero
    obtain ⟨hinv, hgoes⟩ := wakes_spec hnext hmem (hdrains hmade).draining hzero
    exact ⟨hinv, hgoes.1.creating.trans hcreating, { hgoes.1.toLater with },
      fun _ => hgoes.1.settled, fun _ hran => { hgoes.2 hran with }⟩

theorem register_kept (h : CloseInv overload s) (hcreating : s.creating = false) (hook : Hook)
    (hindex : hook.index = s.registered.length) :
    Kept overload s (.register hook.calls hook.throws) { s with
      shutdownHandlers := s.shutdownHandlers ++ [hook], registered := s.registered ++ [hook] } := by
  refine ⟨⟨{ h.books with indexed := ?_ }, ?_⟩, hcreating, { Later.refl s with }, fun _ => rfl,
    fun _ _ => ⟨rfl, rfl⟩⟩
  · rw [List.map_append, h.books.indexed, List.length_append, List.map_singleton, hindex]
    exact List.range_succ.symm
  · rcases h.phase with hwait | hran
    · refine .inl ⟨{ hwait.idle with handlers := ?_ }, hwait.made, hwait.ended⟩
      exact congrArg (· ++ [hook]) hwait.idle.handlers
    · refine .inr ⟨{ hran.between with registered := ?_ }, hran.loop, hran.through⟩
      rw [hran.between.registered, List.append_assoc]

/-- The handler of the loop is called. -/
theorem callHook_kept (h : CloseInv overload s) (hcreating : s.creating = false) {loop : HookLoop}
    (hloop : s.loop = some loop) (hcalled : loop.called = false) :
    Kept overload s .callHook (s.callHook loop) ∧ Aside (s.calling loop) (s.callHook loop) := by
  have hran := Ran.of_loop h hloop
  have hbehind : s.behind = loop.hook :: loop.rest := by
    rw [CloseState.behind, hloop]
    exact if_neg (by rw [hcalled]; exact Bool.false_ne_true)
  have hbetween := hran.between
  rw [hbehind] at hbetween
  obtain ⟨hclose, hcap⟩ := hran.loop loop hloop
  obtain ⟨hinv, hmoves, haside⟩ :=
    callHook_spec h.books loop hbetween hclose hcap (hran.not_through hloop)
  exact ⟨⟨hinv, hmoves.creating.trans hcreating, hmoves.toLater, fun _ => hmoves.settled,
    fun hloops => by cases hloops⟩, haside⟩

/-- The handler of the loop has ended, or its time has. -/
theorem nextHook_kept (h : CloseInv overload s) (hcreating : s.creating = false) {loop : HookLoop}
    (hloop : s.loop = some loop) (hcalled : loop.called = true) {e : CloseEvent}
    (he : e.loops = true) :
    Kept overload s e (CloseState.nextHook loop.close loop.cap loop.rest s) := by
  obtain ⟨hbetween, hnot⟩ := between_of_called h hloop hcalled
  obtain ⟨hclose, hcap⟩ := (h.ran hbetween.ran).loop loop hloop
  obtain ⟨hinv, hmoves⟩ := nextHook_spec h.books hbetween hcap hnot
  rw [hclose]
  refine ⟨hinv, hmoves.creating.trans hcreating, hmoves.toLater, fun _ => hmoves.settled, ?_⟩
  intro hloops
  rw [he] at hloops
  cases hloops

/-- A result that does not say `timedOut` was read at zero. -/
theorem Books.status (h : Books overload s) {k : ℕ} (hk : (s.status k).timedOut = false) :
    (s.status k).inFlight = 0 := by
  have hnonneg := h.gate.counted.nonneg
  rw [CloseState.status] at hk
  change s.lifecycle.inFlight = 0
  split at hk
  · next hended => exact h.zero k hended
  · have hnot := of_decide_eq_false hk
    omega
  · cases hk

theorem resolve_kept (h : CloseInv overload s) (hcreating : s.creating = false) {k : ℕ}
    {rest : List ℕ} (hpending : s.pending = k :: rest) :
    Kept overload s .resolve
      { s with pending := rest, settled := s.settled ++ [(k, s.status k)] } := by
  have hperm : (CloseState.through
      { s with pending := rest, settled := s.settled ++ [(k, s.status k)] }).Perm s.through := by
    change (rest ++ (s.settled ++ [(k, s.status k)]).map Prod.fst).Perm
      (s.pending ++ s.settled.map Prod.fst)
    rw [hpending, List.map_append, List.map_singleton, ← List.append_assoc]
    exact List.perm_append_singleton k _
  have hran : Ran s := by
    refine h.phase.resolve_left fun hwait => ?_
    rw [hwait.idle.pending] at hpending
    cases hpending
  refine ⟨⟨{ h.books with nodup := ?_, ended := ?_, settled := ?_ }, .inr ?_⟩, hcreating,
    { Later.refl s with }, fun hne => absurd rfl hne, fun hloops => by cases hloops⟩
  · exact hperm.nodup_iff.mpr h.books.nodup
  · intro j hj
    exact h.books.ended j (hperm.mem_iff.mp hj)
  · intro j status hj htimed
    rcases List.mem_append.mp hj with hj | hj
    · exact h.books.settled j status hj htimed
    · rw [List.mem_singleton, Prod.mk.injEq] at hj
      rw [hj.2] at htimed ⊢
      exact h.books.status htimed
  · exact ⟨{ hran.between with }, hran.loop, hperm.mem_iff.trans hran.through⟩

/-! ### Runs -/

theorem createClosing_inv (overload : Option LifecycleOverload) :
    CloseInv overload createClosing where
  books :=
    { gate := createLifecycle_inv overload
      draining := fun h => absurd h (lt_irrefl 0)
      fresh := fun _ _ => ⟨rfl, rfl⟩
      callbacks := fun _ h => absurd h List.not_mem_nil
      escalate := fun _ h => by cases h
      nodup := List.nodup_nil
      ended := fun _ h => absurd h List.not_mem_nil
      zero := fun _ h => by cases h
      settled := fun _ _ h => absurd h List.not_mem_nil
      indexed := rfl
      answered := fun _ h => absurd h List.not_mem_nil
      promised := fun _ => rfl }
  phase := .inl ⟨⟨rfl, rfl, rfl, rfl, rfl, rfl, rfl⟩, Nat.zero_le 1, fun _ => rfl⟩

/-- Each step of a closing application keeps what it should, by cases on the event. -/
theorem step_kept (h : CloseInv overload s) (hcreating : s.creating = false) {e : CloseEvent}
    {t : CloseState} (hstep : s.step overload e = some t) : Kept overload s e t := by
  cases e with
  | gate e =>
      rw [CloseState.step] at hstep
      split at hstep
      · next he =>
          obtain ⟨lc, hlc, rfl⟩ := Option.map_eq_some_iff.mp hstep
          exact gate_kept h hcreating he hlc
      · cases hstep
  | register calls throws =>
      cases hstep
      exact register_kept h hcreating ⟨s.registered.length, calls, throws⟩ rfl
  | close options =>
      cases hstep
      exact .of_goes hcreating
        (call_spec handles_runShutdownHandlers h (.inr ⟨trivial, hcreating⟩) options)
  | drainTimer k =>
      rw [CloseState.step] at hstep
      split at hstep
      · next htimer =>
          cases hstep
          have hk : k < s.made := by
            -- The timer belongs to a promise that has been made.
            by_contra hnot
            rw [(h.books.fresh k (by omega)).2] at htimer
            cases htimer
          exact .of_goes hcreating (finish_spec handles_runShutdownHandlers h hk
            .timer (fun hzero => by cases hzero) (.inr trivial))
      · cases hstep
  | callHook =>
      rw [CloseState.step] at hstep
      split at hstep
      · next loop hloop =>
          split at hstep
          · cases hstep
          · next hcalled =>
              cases hstep
              exact (callHook_kept h hcreating hloop (by simpa using hcalled)).1
      · cases hstep
  | hookEnds outcome =>
      rw [CloseState.step] at hstep
      split at hstep
      · next loop hloop =>
          split at hstep
          · next hcalled =>
              cases hstep
              exact nextHook_kept h hcreating hloop hcalled rfl
          · cases hstep
      · cases hstep
  | capExpires =>
      rw [CloseState.step] at hstep
      split at hstep
      · next loop hloop =>
          split at hstep
          · next hcalled =>
              cases hstep
              exact nextHook_kept h hcreating hloop hcalled.1 rfl
          · cases hstep
      · cases hstep
  | resolve =>
      rw [CloseState.step] at hstep
      split at hstep
      · cases hstep
      · next k rest hpending =>
          cases hstep
          exact resolve_kept h hcreating hpending

/-- The invariant, and that no call is under way between two events. -/
def Steady (overload : Option LifecycleOverload) (s : CloseState) : Prop :=
  CloseInv overload s ∧ s.creating = false

theorem closing_steady (h : (closing overload).Reachable s) : Steady overload s := by
  refine Lts.Reachable.invariant ⟨createClosing_inv overload, rfl⟩ ?_ h
  intro s e t hs hstep
  have hkept := step_kept hs.1 hs.2 hstep
  exact ⟨hkept.inv, hkept.creating⟩

end Keala.Core
