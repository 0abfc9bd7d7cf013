import Keala.Core.CloseInvariant

/-!
One call of `close()`, from the end of a drain to the call itself. The same
lemmas serve the calls of the application and those of a handler, which differ
in what runs the handlers.
-/

namespace Keala.Core

open Keala.Js

variable {overload : Option LifecycleOverload} {handlers : CloseState → ℕ → CloseState}
  {first : Prop} {s : CloseState} {k : ℕ}

/-- What runs the handlers keeps the invariant; unless `first` holds, once they
have been taken. -/
def Handles (overload : Option LifecycleOverload) (handlers : CloseState → ℕ → CloseState)
    (first : Prop) : Prop :=
  ∀ s k, Ending overload s k → s.shutdownRan = true ∨ first →
    CloseInv overload (handlers s k) ∧ Goes s (handlers s k)

theorem Idle.not_ran (h : Idle s) : s.shutdownRan ≠ true := by
  rw [h.ran]
  exact Bool.false_ne_true

theorem CloseInv.ran (h : CloseInv overload s) (hran : s.shutdownRan = true) : Ran s :=
  h.phase.resolve_left fun hwait => hwait.idle.not_ran hran

theorem handles_skipHandlers : Handles overload CloseState.skipHandlers False := by
  intro s k h hran
  obtain ⟨hphase, hk⟩ := h.phase.resolve_left fun hidle => hidle.1.not_ran (hran.resolve_right id)
  have hthrough : 0 ∈ (s.skipHandlers k).through ↔ 0 ∈ s.through := by
    change 0 ∈ (s.pending ++ [k]) ++ s.settled.map Prod.fst ↔
      0 ∈ s.pending ++ s.settled.map Prod.fst
    simp only [List.mem_append, List.mem_singleton, hk.symm, or_false]
  refine ⟨⟨h.books.skip h.through h.ended, .inr ?_⟩, { Moves.refl s with }, fun _ => ⟨rfl, rfl⟩⟩
  exact ⟨{ hphase.between with }, hphase.loop, hthrough.trans hphase.through⟩

/-! ### The end of a drain -/

theorem Ran.setRun (h : Ran s) {run : CloseRun}
    (hended : (s.runs k).ended.isSome → run.ended.isSome) (hcap : run.cap = (s.runs k).cap) :
    Ran (s.setRun k run) := by
  have hmoves : ((s.setRun k run).runs 0).ended.isSome ∧
      ((s.setRun k run).runs 0).cap = (s.runs 0).cap := by
    by_cases heq : 0 = k
    · subst heq
      rw [s.setRun_self]
      exact ⟨hended h.between.ended, hcap⟩
    · rw [s.setRun_of_ne run heq]
      exact ⟨h.between.ended, rfl⟩
  refine ⟨{ h.between with ended := hmoves.1 }, ?_, h.through⟩
  intro loop hloop
  rw [hmoves.2]
  exact h.loop loop hloop

theorem CloseInv.setRun (h : CloseInv overload s) (hk : k < s.made) {run : CloseRun}
    (hended : run.ended = (s.runs k).ended) (hcap : run.cap = (s.runs k).cap) :
    CloseInv overload (s.setRun k run) := by
  refine ⟨h.books.setRun hk (by rw [hended]; exact id) ?_, ?_⟩
  · intro hzero
    exact h.books.zero k (hended.symm.trans hzero)
  · rcases h.phase with hwait | hran
    · refine .inl ⟨{ hwait.idle with }, hwait.made, fun j => ?_⟩
      by_cases heq : j = k
      · subst heq
        rw [s.setRun_self, hended]
        exact hwait.ended j
      · rw [s.setRun_of_ne run heq]
        exact hwait.ended j
    · exact .inr (hran.setRun (by rw [hended]; exact id) hcap)

/-- The gate moves on. -/
theorem CloseInv.setLifecycle (h : CloseInv overload s) (lc : LifecycleState)
    (hgate : GateInv overload lc) (hdraining : 0 < s.made → lc.draining = true)
    (hcallbacks : ∀ k ∈ lc.callbacks, k < s.made)
    (hcount : 0 < s.made → s.lifecycle.inFlight = 0 → lc.inFlight = 0) :
    CloseInv overload { s with lifecycle := lc } := by
  refine ⟨{ h.books with
    gate := hgate, draining := hdraining, callbacks := hcallbacks, zero := ?_ }, ?_⟩
  · intro j hj
    have hj : (s.runs j).ended = some .zero := hj
    refine hcount ?_ (h.books.zero j hj)
    by_contra hnot
    rw [(h.books.fresh j (by omega)).1] at hj
    cases hj
  · rcases h.phase with hwait | hran
    · exact .inl ⟨{ hwait.idle with }, hwait.made, hwait.ended⟩
    · exact .inr ⟨{ hran.between with }, hran.loop, hran.through⟩

theorem CloseInv.ending (h : CloseInv overload s) (hk : k < s.made)
    (hnone : (s.runs k).ended = none) {why : DrainEnd} (timer : Bool)
    (hwhy : why = .zero → s.lifecycle.inFlight = 0) :
    Ending overload (s.setRun k ⟨(s.runs k).cap, some why, timer⟩) k := by
  have hnot : ¬ (s.runs k).ended.isSome := by
    rw [hnone]
    exact Bool.false_ne_true
  refine ⟨h.books.setRun hk (fun _ => rfl) fun hzero => hwhy (Option.some.inj hzero), hk, ?_,
    fun hthrough => hnot (h.books.ended k hthrough), ?_⟩
  · rw [s.setRun_self]
    rfl
  · rcases h.phase with hwait | hran
    · have hmade := hwait.made
      exact .inl ⟨{ hwait.idle with }, by omega⟩
    · refine .inr ⟨hran.setRun (fun _ => rfl) rfl, ?_⟩
      rintro rfl
      exact hnot hran.between.ended

theorem goes_setRun {run : CloseRun} (hended : ∀ why, (s.runs k).ended = some why →
    run.ended = some why) (hcap : run.cap = (s.runs k).cap) : Goes s (s.setRun k run) :=
  ⟨.setRun hended hcap, fun _ => { Aside.refl s with }⟩

theorem finish_spec (H : Handles overload handlers first) (h : CloseInv overload s)
    (hk : k < s.made) (why : DrainEnd) (hwhy : why = .zero → s.lifecycle.inFlight = 0)
    (hran : s.shutdownRan = true ∨ first) :
    CloseInv overload (s.finish handlers k why) ∧ Goes s (s.finish handlers k why) := by
  rw [CloseState.finish]
  split
  · exact ⟨h, .refl s⟩
  · next hnone =>
      rw [Option.not_isSome_iff_eq_none] at hnone
      have hending := h.ending hk hnone false hwhy
      have hdone : Ending overload
          { s.setRun k ⟨(s.runs k).cap, some why, false⟩ with escalate := none } k := by
        refine { hending with books := { hending.books with escalate := ?_ }, phase := ?_ }
        · intro j hj
          cases hj
        · rcases hending.phase with ⟨hidle, hzero⟩ | ⟨hphase, hzero⟩
          · exact .inl ⟨{ hidle with }, hzero⟩
          · exact .inr ⟨⟨{ hphase.between with }, hphase.loop, hphase.through⟩, hzero⟩
      have hgoes : Goes s
          { s.setRun k ⟨(s.runs k).cap, some why, false⟩ with escalate := none } := by
        have hset : Goes s (s.setRun k ⟨(s.runs k).cap, some why, false⟩) := by
          refine goes_setRun ?_ rfl
          intro old hold
          rw [hnone] at hold
          cases hold
        exact ⟨{ hset.1 with }, fun hs => { hset.2 hs with }⟩
      obtain ⟨hinv, hrest⟩ := H _ k hdone hran
      exact ⟨hinv, hgoes.trans hrest⟩

/-! ### A call -/

theorem execute_spec (H : Handles overload handlers first) (h : CloseInv overload s)
    (hk : k < s.made) (hnone : (s.runs k).ended = none) (drain : Millis)
    (hran : s.shutdownRan = true ∨ first) :
    CloseInv overload (s.execute handlers k drain) ∧ Goes s (s.execute handlers k drain) := by
  have hd := h.books.draining (Nat.zero_lt_of_lt hk)
  rw [CloseState.execute]
  split
  · have hset : Goes s (s.setRun k ⟨(s.runs k).cap, some .immediate, (s.runs k).timer⟩) := by
      refine goes_setRun ?_ rfl
      intro old hold
      rw [hnone] at hold
      cases hold
    have hending : Ending overload
        (s.setRun k ⟨(s.runs k).cap, some .immediate, (s.runs k).timer⟩) k :=
      h.ending hk hnone _ fun hzero => by cases hzero
    obtain ⟨hinv, hrest⟩ := H _ k hending hran
    exact ⟨hinv, hset.trans hrest⟩
  · have hescalate : CloseInv overload { s with escalate := some k } := by
      refine ⟨{ h.books with escalate := ?_ }, ?_⟩
      · intro j hj
        cases hj
        exact hk
      · rcases h.phase with hwait | hphase
        · exact .inl ⟨{ hwait.idle with }, hwait.made, hwait.ended⟩
        · exact .inr ⟨{ hphase.between with }, hphase.loop, hphase.through⟩
    have hgoes : Goes s { s with escalate := some k } :=
      ⟨{ Moves.refl s with }, fun _ => { Aside.refl s with }⟩
    dsimp only
    rw [subscribeSettled]
    split
    · next hzero =>
        obtain ⟨hinv, hrest⟩ := finish_spec H hescalate hk .zero (fun _ => hzero) hran
        exact ⟨hinv, hgoes.trans hrest⟩
    · next hzero =>
        have hsubscribed := hescalate.setLifecycle
          { s.lifecycle with closeWaiters := s.lifecycle.closeWaiters ++ [k] }
          (h.books.gate.step (e := .subscribe k) (by
            rw [gateStep, if_pos hd, subscribeSettled, if_neg hzero]))
          (fun _ => hd) (by
            intro j hj
            rw [LifecycleState.callbacks, ← List.append_assoc, List.mem_append,
              List.mem_singleton] at hj
            rcases hj with hj | rfl
            · exact h.books.callbacks j hj
            · exact hk) fun _ => id
        have hmoves : Goes { s with escalate := some k }
            { s with
              escalate := some k
              lifecycle := { s.lifecycle with
                closeWaiters := s.lifecycle.closeWaiters ++ [k] } } :=
          ⟨{ Moves.refl { s with escalate := some k } with }, fun _ => { Aside.refl s with }⟩
        exact ⟨hsubscribed.setRun hk rfl rfl,
          (hgoes.trans hmoves).trans (goes_setRun (fun _ hold => hold) rfl)⟩

def CloseState.opened (s : CloseState) (cap : ℚ) : CloseState :=
  { s.setRun s.made ⟨cap, none, false⟩ with
    lifecycle := startDraining s.lifecycle, made := s.made + 1, creating := true }

theorem CloseInv.startDraining_eq (h : CloseInv overload s) (hmade : 0 < s.made) :
    startDraining s.lifecycle = s.lifecycle := by
  have hd := h.books.draining hmade
  exact startDraining_draining hd (h.books.gate.drained hd)

theorem startDraining_flips {lc : LifecycleState} (h : GateInv overload lc) :
    (startDraining lc).draining = true := by
  obtain ⟨lc', heq, -, -, -, -, -, -, hdraining⟩ :=
    dropQueue lc.queue { lc with draining := true } rfl
      (h.slots.congr rfl rfl rfl rfl rfl rfl rfl rfl) (h.counted.congr (fun _ => Iff.rfl) rfl)
      ⟨h.order.sublist, h.order.nodup, h.order.seen⟩
  have hstart : startDraining lc = lc' := heq
  rw [hstart]
  exact hdraining

theorem CloseInv.opened (h : CloseInv overload s) (hnone : s.closePromise = none)
    (hpre : s.shutdownRan = true ∨ s.creating = false) (cap : ℚ) :
    CloseInv overload (s.opened cap) := by
  have hother : ∀ j, j ≠ s.made → (s.opened cap).runs j = s.runs j :=
    fun j hj => s.setRun_of_ne ⟨cap, none, false⟩ hj
  have hself : (s.opened cap).runs s.made = ⟨cap, none, false⟩ := s.setRun_self s.made _
  refine ⟨{ h.books with
    gate := h.books.gate.startDraining
    draining := fun _ => startDraining_flips h.books.gate
    fresh := ?_, callbacks := ?_, escalate := ?_, ended := ?_, zero := ?_, promised := ?_ }, ?_⟩
  · intro j hj
    have hj : s.made + 1 ≤ j := hj
    rw [hother j (by omega)]
    exact h.books.fresh j (by omega)
  · intro j hj
    have hj : j ∈ (startDraining s.lifecycle).callbacks := hj
    rw [(startDraining_undisturbed s.lifecycle).callbacks] at hj
    exact Nat.lt_succ_of_lt (h.books.callbacks j hj)
  · intro j hj
    exact Nat.lt_succ_of_lt (h.books.escalate j hj)
  · intro j hj
    have hended := h.books.ended j hj
    by_cases heq : j = s.made
    · rw [heq, (h.books.fresh s.made (le_refl _)).1] at hended
      cases hended
    · rw [hother j heq]
      exact hended
  · intro j hj
    by_cases heq : j = s.made
    · rw [heq, hself] at hj
      cases hj
    · rw [hother j heq] at hj
      have hmade : 0 < s.made := by
        by_contra hnot
        rw [(h.books.fresh j (by omega)).1] at hj
        cases hj
      -- Once a promise has been made the application drains, and draining again changes
      -- nothing.
      change (startDraining s.lifecycle).inFlight = 0
      rw [h.startDraining_eq hmade]
      exact h.books.zero j hj
  · intro hcreating
    cases hcreating
  · rcases h.phase with hwait | hran
    · -- The first promise: nobody else has made one.
      have hzero : s.made = 0 := by
        have hpromised := h.books.promised (hpre.resolve_left hwait.idle.not_ran)
        rw [hnone] at hpromised
        by_contra hmade
        rw [if_neg hmade] at hpromised
        cases hpromised
      refine .inl ⟨{ hwait.idle with }, ?_, fun j => ?_⟩
      · change s.made + 1 ≤ 1
        omega
      · by_cases heq : j = s.made
        · rw [heq, hself]
        · rw [hother j heq]
          exact hwait.ended j
    · have hne : 0 ≠ s.made := Nat.ne_of_lt hran.between.made
      refine .inr ⟨{ hran.between with made := Nat.succ_pos _, ended := ?_ }, ?_, hran.through⟩
      · rw [hother 0 hne]
        exact hran.between.ended
      · intro loop hloop
        rw [hother 0 hne]
        exact hran.loop loop hloop

theorem goes_opened (h : CloseInv overload s) (hnone : s.closePromise = none) (cap : ℚ) :
    Goes { s with creating := true } (s.opened cap) := by
  have hother : ∀ j, j < s.made → (s.opened cap).runs j = s.runs j :=
    fun j hj => s.setRun_of_ne ⟨cap, none, false⟩ (Nat.ne_of_lt hj)
  refine ⟨{ Moves.refl { s with creating := true } with
    made := Nat.le_succ _, cap := ?_, ended := ?_, promise := ?_, draining := ?_ },
    fun _ => { Aside.refl { s with creating := true } with }⟩
  · intro j hj
    rw [hother j hj]
  · intro j why hj
    have hmade : j < s.made := by
      by_contra hnot
      have hj : (s.runs j).ended = some why := hj
      rw [(h.books.fresh j (by omega)).1] at hj
      cases hj
    rw [hother j hmade]
    exact hj
  · intro j hj
    have hj : s.closePromise = some j := hj
    rw [hnone] at hj
    cases hj
  · intro hd
    change (startDraining s.lifecycle).draining = true ∧
      (startDraining s.lifecycle).inFlight = s.lifecycle.inFlight
    have heq := startDraining_draining hd (h.books.gate.drained hd)
    rw [heq]
    exact ⟨hd, rfl⟩

theorem closeWith_spec (H : Handles overload handlers first) (h : CloseInv overload s)
    (hpre : s.shutdownRan = true ∨ first ∧ s.creating = false) (options : CloseOptions) :
    CloseInv overload (s.closeWith handlers options).1 ∧ Goes s (s.closeWith handlers options).1 ∧
      ∀ promise, (s.closeWith handlers options).2 = .ok promise → s.creating = false →
        promise = 0 := by
  have hran : s.shutdownRan = true ∨ first := hpre.imp_right And.left
  rw [CloseState.closeWith]
  split
  · -- A second call gets the first promise; a timeout of its own may end the drain.
    next promise hpromise =>
      dsimp only
      refine and_assoc.mp ⟨?_, ?_⟩
      · split
        · next k hk =>
            split
            · exact finish_spec H h (h.books.escalate k hk) .escalated
                (fun hzero => by cases hzero) hran
            · exact ⟨h, .refl s⟩
        · exact ⟨h, .refl s⟩
      · intro p hp hcreating
        cases hp
        have hpromised := h.books.promised hcreating
        rw [hpromise] at hpromised
        split at hpromised
        · cases hpromised
        · exact Option.some.inj hpromised
  · -- The first one that passes its checks makes the promise.
    next hnone =>
      split
      · exact ⟨h, .refl s, fun p hp => by cases hp⟩
      · next drain cap _ =>
          have hfirst : s.creating = false → s.made = 0 := by
            intro hcreating
            have hpromised := h.books.promised hcreating
            rw [hnone] at hpromised
            by_contra hmade
            rw [if_neg hmade] at hpromised
            cases hpromised
          have hopened := h.opened hnone (hpre.imp_right And.right) cap
          have hrun : (s.opened cap).runs s.made = ⟨cap, none, false⟩ := s.setRun_self s.made _
          obtain ⟨hinv, hmoves⟩ := execute_spec (s := s.opened cap) H hopened
            (Nat.lt_succ_self s.made) (by rw [hrun]) drain hran
          have hgoes := (goes_opened h hnone cap).trans hmoves
          have hmade : s.made + 1 ≤ ((s.opened cap).execute handlers s.made drain).made :=
            hmoves.1.made
          refine ⟨⟨{ hinv.books with promised := ?_ }, ?_⟩,
            ⟨{ hgoes.1 with creating := rfl, promise := ?_ }, ?_⟩, ?_⟩
          · intro hcreating
            change some s.made = if ((s.opened cap).execute handlers s.made drain).made = 0 then
              none else some 0
            rw [if_neg (by omega), hfirst hcreating]
          · rcases hinv.phase with hwait | hran
            · exact .inl ⟨{ hwait.idle with }, hwait.made, hwait.ended⟩
            · exact .inr ⟨{ hran.between with }, hran.loop, hran.through⟩
          · intro p hp
            rw [hnone] at hp
            cases hp
          · intro hs
            exact { hgoes.2 hs with }
          · intro p hp hcreating
            cases hp
            exact hfirst hcreating

/-- A call whose result is on record. -/
theorem call_spec (H : Handles overload handlers first) (h : CloseInv overload s)
    (hpre : s.shutdownRan = true ∨ first ∧ s.creating = false) (options : CloseOptions) :
    CloseInv overload (s.call handlers options) ∧ Goes s (s.call handlers options) := by
  obtain ⟨hinv, hgoes, hanswer⟩ := closeWith_spec H h hpre options
  rw [CloseState.call]
  split
  · next after promise heq =>
      rw [heq] at hinv hgoes hanswer
      refine ⟨⟨{ hinv.books with answered := ?_ }, ?_⟩, ⟨{ hgoes.1 with }, ?_⟩⟩
      · intro p hp
        rcases List.mem_append.mp hp with hp | hp
        · exact hinv.books.answered p hp
        · rw [List.mem_singleton, Prod.mk.injEq] at hp
          rw [hp.2]
          exact hanswer promise rfl hp.1.symm
      · rcases hinv.phase with hwait | hran
        · exact .inl ⟨{ hwait.idle with }, hwait.made, hwait.ended⟩
        · exact .inr ⟨{ hran.between with }, hran.loop, hran.through⟩
      · intro hs
        exact { hgoes.2 hs with }
  · next after fault heq =>
      rw [heq] at hinv hgoes
      exact ⟨hinv, hgoes⟩

/-- The calls that a handler makes. -/
theorem hookCalls_spec (calls : List CloseOptions) (h : CloseInv overload s)
    (hran : s.shutdownRan = true) :
    CloseInv overload (calls.foldl (CloseState.call CloseState.skipHandlers) s) ∧
      Goes s (calls.foldl (CloseState.call CloseState.skipHandlers) s) := by
  induction calls generalizing s with
  | nil => exact ⟨h, .refl s⟩
  | cons options calls ih =>
      obtain ⟨hinv, hgoes⟩ := call_spec handles_skipHandlers h (.inl hran) options
      obtain ⟨hinv', hgoes'⟩ := ih hinv (hgoes.1.kept hran).1
      exact ⟨hinv', hgoes.trans hgoes'⟩

end Keala.Core
