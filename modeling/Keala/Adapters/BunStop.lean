import Keala.Lib.Lts
import Mathlib.Data.Finset.Insert
import Mathlib.Data.Finset.Erase
import Mathlib.Data.Finset.Lattice.Basic

/-!
The graceful stop of the Bun adapter: the sockets that are told to go, and when
the promise of the stop resolves.
-/

namespace Keala.Adapters

structure GraceRun where
  /-- `done`, with the `timedOut` that the promise has resolved to. -/
  done : Option Bool := none
  appSettled : Bool := false
  transportSettled : Bool
  /-- The timer of the drain is set. -/
  timer : Bool

structure BunServer where
  openSockets : Finset ℕ := ∅
  /-- The websockets that were ever opened. -/
  opened : Finset ℕ := ∅
  /-- Those that have closed or failed. -/
  left : Finset ℕ := ∅
  /-- Those that were closed with 1001. -/
  swept : Finset ℕ := ∅
  /-- `server.stop(true)` was called. -/
  killed : Bool := false
  /-- The drain of the stop is finite. -/
  finite : Bool := false
  stop : Option GraceRun := none

namespace BunServer

variable (s : BunServer)

def verdict : Option Bool := s.stop.bind GraceRun.done

def sweepLateSockets : BunServer :=
  { s with openSockets := ∅, swept := s.swept ∪ s.openSockets }

def setRun (run : GraceRun) : BunServer := { s with stop := some run }

def finish (timedOut : Bool) : BunServer :=
  match s.stop with
  | none => s
  | some run =>
      if run.done.isSome then s
      else
        let s := (s.setRun { run with done := some timedOut, timer := false }).sweepLateSockets
        if timedOut then { s with killed := true } else s

def trySettle : BunServer :=
  match s.stop with
  | none => s
  | some run => if run.appSettled && run.transportSettled then s.finish false else s

/-- `stopGraceful`: whether the drain is finite, whether the stop of the transport
is a promise, and whether the application had settled already. -/
def stopGraceful (finite promised settled : Bool) : BunServer :=
  { s.sweepLateSockets with
    finite
    stop := some
      { transportSettled := !promised, timer := finite, appSettled := settled } }.trySettle

def onSettled : BunServer :=
  match s.stop with
  | none => s
  | some run => (s.setRun { run with appSettled := true }).sweepLateSockets.trySettle

def onStopped (resolved : Bool) : BunServer :=
  match s.stop with
  | none => s
  | some run =>
      if resolved then (s.setRun { run with transportSettled := true }).trySettle
      else s.finish true

end BunServer

inductive BunEvent
  | open (ws : ℕ)
  | close (ws : ℕ)
  | stopGraceful (finite promised settled : Bool)
  | settled
  | stopped (resolved : Bool)
  | timer
  /-- The second signal of the operator. -/
  | force

open BunServer in
def BunServer.step (s : BunServer) : BunEvent → Option BunServer
  | .open ws =>
      if ws ∈ s.opened then none
      else some { s with
        openSockets := insert ws s.openSockets, opened := insert ws s.opened }
  | .close ws =>
      if ws ∈ s.opened then
        some { s with openSockets := s.openSockets.erase ws, left := insert ws s.left }
      else none
  | .stopGraceful finite promised settled =>
      if s.stop.isSome then none else some (s.stopGraceful finite promised settled)
  | .settled => if s.stop.isSome then some s.onSettled else none
  | .stopped resolved =>
      match s.stop with
      | some run => if run.transportSettled then none else some (s.onStopped resolved)
      | none => none
  | .timer =>
      match s.stop with
      | some run => if run.timer then some (s.finish true) else none
      | none => none
  | .force => if s.stop.isSome then some (s.finish true) else none

def bunServer : Lts BunServer BunEvent where
  start := {}
  step := BunServer.step

namespace BunServer

variable {s t : BunServer}

/-! ### The books of the stop -/

structure GraceBooks (s : BunServer) (run : GraceRun) : Prop where
  timer : run.timer = true ↔ s.finite = true ∧ run.done = none
  settled : run.done = some false → run.appSettled = true ∧ run.transportSettled = true
  waits : run.done = none → ¬ (run.appSettled = true ∧ run.transportSettled = true)
  killed : s.killed = true ↔ run.done = some true

structure BunBooks (s : BunServer) : Prop where
  sockets : ∀ ws ∈ s.opened, ws ∈ s.openSockets ∨ ws ∈ s.left ∨ ws ∈ s.swept
  idle : s.stop = none → s.killed = false
  run : ∀ run, s.stop = some run → GraceBooks s run

theorem swept_sockets (h : ∀ ws ∈ s.opened, ws ∈ s.openSockets ∨ ws ∈ s.left ∨ ws ∈ s.swept) :
    ∀ ws ∈ s.opened, ws ∈ s.left ∨ ws ∈ s.swept ∪ s.openSockets := by
  intro ws hws
  rw [Finset.mem_union]
  rcases h ws hws with hopen | hleft | hswept
  · exact .inr (.inr hopen)
  · exact .inl hleft
  · exact .inr (.inl hswept)

/-- The stop resolves: its sockets are told to go, and nothing is left to fire. -/
structure Resolves (s t : BunServer) (timedOut : Bool) : Prop where
  verdict : t.verdict = some timedOut
  sockets : t.openSockets = ∅
  told : ∀ ws ∈ t.opened, ws ∈ t.left ∨ ws ∈ t.swept
  opened : t.opened = s.opened

/-- `finish` of a stop that has not resolved. -/
theorem finish_spec {run : GraceRun} (hrun : s.stop = some run) (hopen : run.done = none)
    (hkilled : s.killed = false)
    (hsockets : ∀ ws ∈ s.opened, ws ∈ s.openSockets ∨ ws ∈ s.left ∨ ws ∈ s.swept)
    (timedOut : Bool)
    (hsettled : timedOut = false → run.appSettled = true ∧ run.transportSettled = true) :
    BunBooks (s.finish timedOut) ∧ Resolves s (s.finish timedOut) timedOut := by
  have hswept := swept_sockets hsockets
  rw [finish, hrun]
  dsimp only
  rw [hopen, Option.isSome_none, if_neg Bool.false_ne_true]
  cases timedOut with
  | true =>
      refine ⟨⟨fun ws hws => .inr (hswept ws hws), fun h => (by cases h), ?_⟩,
        rfl, rfl, hswept, rfl⟩
      rintro other hother
      cases hother
      exact ⟨by simp, fun h => (by cases h), fun h => (by cases h), by simp⟩
  | false =>
      refine ⟨⟨fun ws hws => .inr (hswept ws hws), fun h => (by cases h), ?_⟩,
        rfl, rfl, hswept, rfl⟩
      rintro other hother
      cases hother
      refine ⟨by simp, fun _ => hsettled rfl, fun h => (by cases h), ?_⟩
      simp [sweepLateSockets, setRun, hkilled]

theorem finish_again {run : GraceRun} (hrun : s.stop = some run) (hdone : run.done ≠ none)
    (timedOut : Bool) : s.finish timedOut = s := by
  rw [finish, hrun]
  dsimp only
  rw [if_pos (Option.isSome_iff_ne_none.mpr hdone)]

/-- A step that leaves the verdict as it is, or gives it. -/
def Goes (s t : BunServer) : Prop :=
  t.verdict = s.verdict ∨ s.verdict = none ∧ ∃ timedOut, Resolves s t timedOut

/-- `trySettle` where only the wait may have ended. -/
theorem trySettle_spec {run : GraceRun} (hrun : s.stop = some run)
    (hsockets : ∀ ws ∈ s.opened, ws ∈ s.openSockets ∨ ws ∈ s.left ∨ ws ∈ s.swept)
    (htimer : run.timer = true ↔ s.finite = true ∧ run.done = none)
    (hsettled : run.done = some false → run.appSettled = true ∧ run.transportSettled = true)
    (hkilled : s.killed = true ↔ run.done = some true) :
    BunBooks s.trySettle ∧
      (s.trySettle = s ∨ run.done = none ∧ Resolves s s.trySettle false) := by
  have hstays : (run.done = none → ¬ (run.appSettled = true ∧ run.transportSettled = true)) →
      BunBooks s := fun hwaits => by
    refine ⟨hsockets, fun hnone => ?_, fun other hother => ?_⟩
    · rw [hrun] at hnone
      cases hnone
    · rw [hrun] at hother
      cases hother
      exact ⟨htimer, hsettled, hwaits, hkilled⟩
  rw [trySettle, hrun]
  dsimp only
  split
  · next hready =>
    rw [Bool.and_eq_true] at hready
    cases hdone : run.done with
    | some verdict =>
        have hne : run.done ≠ none := by rw [hdone]; exact Option.some_ne_none _
        rw [finish_again hrun hne]
        exact ⟨hstays fun hnone => absurd hnone hne, .inl rfl⟩
    | none =>
        have hlive : s.killed = false := by
          rw [← Bool.not_eq_true, hkilled, hdone]
          exact fun h => (by cases h)
        obtain ⟨hbooks, hresolves⟩ := finish_spec hrun hdone hlive hsockets false fun _ => hready
        exact ⟨hbooks, .inr ⟨rfl, hresolves⟩⟩
  · next hwaits =>
    rw [Bool.and_eq_true] at hwaits
    exact ⟨hstays fun _ => hwaits, .inl rfl⟩

/-- A stop that is forced to end. -/
theorem BunBooks.finish (h : BunBooks s) {run : GraceRun} (hrun : s.stop = some run) :
    BunBooks (s.finish true) ∧ Goes s (s.finish true) := by
  have hverdict : s.verdict = run.done := by rw [verdict, hrun]; rfl
  cases hdone : run.done with
  | some verdict =>
      rw [finish_again hrun (by rw [hdone]; exact Option.some_ne_none _)]
      exact ⟨h, .inl rfl⟩
  | none =>
      have hlive : s.killed = false := by
        rw [← Bool.not_eq_true, (h.run run hrun).killed, hdone]
        exact fun heq => (by cases heq)
      obtain ⟨hbooks, hresolves⟩ :=
        finish_spec hrun hdone hlive h.sockets true fun heq => (by cases heq)
      exact ⟨hbooks, .inr ⟨hverdict.trans hdone, true, hresolves⟩⟩

/-- An update of the stop that its `trySettle` ends. -/
theorem goes_trySettle {u : BunServer} {run : GraceRun} (hrun : u.stop = some run)
    (hverdict : run.done = s.verdict) (hopened : u.opened = s.opened)
    (h : u.trySettle = u ∨ run.done = none ∧ Resolves u u.trySettle false) :
    Goes s u.trySettle := by
  rcases h with hsame | ⟨hnone, hresolves⟩
  · rw [hsame]
    refine .inl ?_
    rw [verdict, hrun]
    exact hverdict
  · exact .inr ⟨hverdict.symm.trans hnone, false, hresolves.verdict, hresolves.sockets,
      hresolves.told, hresolves.opened.trans hopened⟩

theorem BunBooks.stopGraceful (h : BunBooks s) (hfirst : s.stop = none)
    (finite promised settled : Bool) :
    BunBooks (s.stopGraceful finite promised settled) ∧
      Goes s (s.stopGraceful finite promised settled) := by
  have hswept := swept_sockets h.sockets
  rw [BunServer.stopGraceful]
  obtain ⟨hbooks, hgoes⟩ := trySettle_spec
    (s := { s.sweepLateSockets with
      finite
      stop := some { transportSettled := !promised, timer := finite, appSettled := settled } })
    rfl (fun ws hws => .inr (hswept ws hws)) (by simp) (fun heq => (by cases heq))
    (by simp [sweepLateSockets, h.idle hfirst])
  exact ⟨hbooks, goes_trySettle rfl (by rw [verdict, hfirst]; rfl) rfl hgoes⟩

theorem BunBooks.onSettled (h : BunBooks s) : BunBooks s.onSettled ∧ Goes s s.onSettled := by
  rw [BunServer.onSettled]
  split
  · exact ⟨h, .inl rfl⟩
  · next run hrun =>
    have hrunning := h.run run hrun
    have hswept := swept_sockets h.sockets
    obtain ⟨hbooks, hgoes⟩ := trySettle_spec
      (s := (s.setRun { run with appSettled := true }).sweepLateSockets) rfl
      (fun ws hws => .inr (hswept ws hws)) hrunning.timer
      (fun hdone => ⟨rfl, (hrunning.settled hdone).2⟩) hrunning.killed
    exact ⟨hbooks, goes_trySettle rfl (by rw [verdict, hrun]; rfl) rfl hgoes⟩

theorem BunBooks.onStopped (h : BunBooks s) (resolved : Bool) :
    BunBooks (s.onStopped resolved) ∧ Goes s (s.onStopped resolved) := by
  rw [BunServer.onStopped]
  split
  · exact ⟨h, .inl rfl⟩
  · next run hrun =>
    have hrunning := h.run run hrun
    cases resolved with
    | false => exact h.finish hrun
    | true =>
        obtain ⟨hbooks, hgoes⟩ := trySettle_spec
          (s := s.setRun { run with transportSettled := true }) rfl h.sockets hrunning.timer
          (fun hdone => ⟨(hrunning.settled hdone).1, rfl⟩) hrunning.killed
        rw [if_pos rfl]
        exact ⟨hbooks, goes_trySettle rfl (by rw [verdict, hrun]; rfl) rfl hgoes⟩

theorem BunBooks.step (h : BunBooks s) {event : BunEvent} (hstep : s.step event = some t) :
    BunBooks t ∧ Goes s t := by
  cases event with
  | «open» ws =>
      simp only [BunServer.step, Option.ite_none_left_eq_some, Option.some_inj] at hstep
      obtain ⟨-, rfl⟩ := hstep
      refine ⟨{ h with sockets := fun other hother => ?_, run := fun run hrun => ?_ },
        .inl rfl⟩
      · rw [Finset.mem_insert] at hother
        rcases hother with rfl | hother
        · exact .inl (Finset.mem_insert_self _ _)
        · exact (h.sockets other hother).imp_left Finset.mem_insert_of_mem
      · exact { h.run run hrun with }
  | close ws =>
      simp only [BunServer.step, Option.ite_none_right_eq_some, Option.some_inj] at hstep
      obtain ⟨-, rfl⟩ := hstep
      refine ⟨{ h with sockets := fun other hother => ?_, run := fun run hrun => ?_ },
        .inl rfl⟩
      · by_cases hsame : other = ws
        · exact .inr (.inl (hsame ▸ Finset.mem_insert_self _ _))
        · rcases h.sockets other hother with hopen | hleft | hswept
          · exact .inl (Finset.mem_erase.mpr ⟨hsame, hopen⟩)
          · exact .inr (.inl (Finset.mem_insert_of_mem hleft))
          · exact .inr (.inr hswept)
      · exact { h.run run hrun with }
  | stopGraceful finite promised settled =>
      simp only [BunServer.step, Option.ite_none_left_eq_some, Option.some_inj,
        Bool.not_eq_true, Option.isSome_eq_false_iff, Option.isNone_iff_eq_none] at hstep
      obtain ⟨hfirst, rfl⟩ := hstep
      exact h.stopGraceful hfirst finite promised settled
  | settled =>
      simp only [BunServer.step, Option.ite_none_right_eq_some, Option.some_inj] at hstep
      obtain ⟨-, rfl⟩ := hstep
      exact h.onSettled
  | stopped resolved =>
      rw [BunServer.step] at hstep
      split at hstep
      · rw [Option.ite_none_left_eq_some, Option.some_inj] at hstep
        obtain ⟨-, rfl⟩ := hstep
        exact h.onStopped resolved
      · cases hstep
  | timer =>
      rw [BunServer.step] at hstep
      split at hstep
      · next run hrun =>
        rw [Option.ite_none_right_eq_some, Option.some_inj] at hstep
        obtain ⟨-, rfl⟩ := hstep
        exact h.finish hrun
      · cases hstep
  | force =>
      simp only [BunServer.step, Option.ite_none_right_eq_some, Option.some_inj,
        Option.isSome_iff_exists] at hstep
      obtain ⟨⟨run, hrun⟩, rfl⟩ := hstep
      exact h.finish hrun

theorem bunBooks_of_reachable (h : bunServer.Reachable s) : BunBooks s := by
  refine Lts.Reachable.invariant ?_ (fun _ _ _ hbooks hstep => (hbooks.step hstep).1) h
  exact
    { sockets := fun ws hws => absurd hws (Finset.notMem_empty ws)
      idle := fun _ => rfl
      run := fun run hrun => (by cases hrun) }

end BunServer

variable {s : BunServer}

/-- A stop that waits has something to wait for and, where its drain is finite,
its timer; it resolves without a time-out only after the application and the
transport, and with one exactly when the server is killed; the verdict stays. -/
theorem bun_stop_resolves (h : bunServer.Reachable s) {run : GraceRun} (hrun : s.stop = some run) :
    (run.done = none → ¬ (run.appSettled = true ∧ run.transportSettled = true)) ∧
      (run.timer = true ↔ s.finite = true ∧ run.done = none) ∧
      (run.done = some false → run.appSettled = true ∧ run.transportSettled = true) ∧
      (s.killed = true ↔ run.done = some true) ∧
      ∀ event t, s.step event = some t → run.done ≠ none → t.verdict = run.done := by
  have hbooks := BunServer.bunBooks_of_reachable h
  obtain ⟨htimer, hsettled, hwaits, hkilled⟩ := hbooks.run run hrun
  refine ⟨hwaits, htimer, hsettled, hkilled, fun event t hstep hdone => ?_⟩
  have hverdict : s.verdict = run.done := by rw [BunServer.verdict, hrun]; rfl
  rcases (hbooks.step hstep).2 with hsame | ⟨hnone, -⟩
  · exact hsame.trans hverdict
  · exact absurd (hverdict.symm.trans hnone) hdone

/-- No websocket is forgotten: each that was opened is tracked, has left or was
closed with 1001, and the step in which the stop resolves leaves none tracked. -/
theorem bun_stop_sweeps (h : bunServer.Reachable s) :
    (∀ ws ∈ s.opened, ws ∈ s.openSockets ∨ ws ∈ s.left ∨ ws ∈ s.swept) ∧
      ∀ event t, s.step event = some t → s.verdict = none → t.verdict ≠ none →
        t.openSockets = ∅ ∧ t.opened = s.opened ∧ ∀ ws ∈ t.opened, ws ∈ t.left ∨ ws ∈ t.swept := by
  have hbooks := BunServer.bunBooks_of_reachable h
  refine ⟨hbooks.sockets, fun event t hstep hnone hverdict => ?_⟩
  rcases (hbooks.step hstep).2 with hsame | ⟨-, timedOut, hresolves⟩
  · exact absurd (hsame.trans hnone) hverdict
  · exact ⟨hresolves.sockets, hresolves.opened, hresolves.told⟩

/-- A socket is opened by a late upgrade before the application settles. -/
theorem bun_stop_resolves_late : ∃ s : BunServer, ∃ run,
    bunServer.runFrom bunServer.start
      [.open 1, .stopGraceful true true false, .open 2, .stopped true, .settled] = some s ∧
    s.stop = some run ∧ run.done = some false ∧ run.timer = false := by
  refine ⟨_, _, rfl, rfl, rfl, ?_⟩
  have hresolves := bun_stop_resolves (Lts.reachable_of_run (L := bunServer)
    [.open 1, .stopGraceful true true false, .open 2, .stopped true, .settled] rfl) rfl
  rw [← Bool.not_eq_true, hresolves.2.1]
  rintro ⟨-, ⟨⟩⟩

theorem bun_stop_sweeps_late : ∃ s : BunServer,
    bunServer.runFrom bunServer.start
      [.open 1, .stopGraceful true true false, .open 2, .stopped true, .settled] = some s ∧
    (2 ∈ s.left ∨ 2 ∈ s.swept) := by
  refine ⟨_, rfl, ?_⟩
  have hsweeps := (bun_stop_sweeps (Lts.reachable_of_run (L := bunServer)
    [.open 1, .stopGraceful true true false, .open 2, .stopped true] rfl)).2 .settled _ rfl rfl
      (Option.some_ne_none _)
  exact hsweeps.2.2 2 (Finset.mem_insert_self _ _)

end Keala.Adapters
