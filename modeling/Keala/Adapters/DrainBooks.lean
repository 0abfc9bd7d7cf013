import Keala.Adapters.WireAccounting

/-!
What the drain tracker and the stop of a server know of each other, callback by
callback: the stop waits for exactly what is still open, and whatever ends the
last of it settles the stop in the same callback.
-/

namespace Keala.Adapters

open NodeServer

variable {tracked : Bool} {w w' w'' : NodeServer} {s : SocketId} {out : ResponseId}

/-! ### What the tracker watches -/

/-- What is watched for a connection is told to the tracker when it closes. -/
def WatchBooks (w : NodeServer) : Prop :=
  ∀ s out, w.tracker.watched s = some out →
    w.tracker.observed out = some s ∧ w.transport.socket out = s ∧ out ∈ w.dispatched ∧
      (w.transport.closed out = false → .responseClosed ∈ w.transport.listeners out)

theorem WatchBooks.unwatch (h : WatchBooks w) (s : SocketId) : WatchBooks (w.unwatch s) := by
  rw [NodeServer.unwatch]
  cases hwatched : w.tracker.watched s with
  | none => exact h
  | some out =>
      intro s' out' hout'
      change Function.update w.tracker.watched s none s' = some out' at hout'
      have hne : s' ≠ s := by
        rintro rfl
        rw [Function.update_self] at hout'
        cases hout'
      rw [Function.update_of_ne hne] at hout'
      obtain ⟨hobserved, hsocket, hlistens⟩ := h s' out' hout'
      have hdiff : out' ≠ out := by
        rintro rfl
        exact hne (hsocket.symm.trans (h s out' hwatched).2.1)
      show Function.update w.tracker.observed out none out' = some s' ∧ _ ∧ _ ∧
        (_ → .responseClosed ∈ Function.update w.transport.listeners out _ out')
      rw [Function.update_of_ne hdiff, Function.update_of_ne hdiff]
      exact ⟨hobserved, hsocket, hlistens⟩

theorem unwatch_watched (w : NodeServer) (s : SocketId) :
    (w.unwatch s).tracker.watched = Function.update w.tracker.watched s none := by
  rw [NodeServer.unwatch]
  cases hwatched : w.tracker.watched s with
  | none => exact (Function.update_eq_self_iff.mpr hwatched.symm).symm
  | some out => rfl

theorem unwatch_rest (w : NodeServer) (s : SocketId) :
    (w.unwatch s).tracker.pending = w.tracker.pending ∧
      (w.unwatch s).tracker.notify = w.tracker.notify ∧ (w.unwatch s).stop = w.stop ∧
      (w.unwatch s).transport.destroyed = w.transport.destroyed := by
  rw [NodeServer.unwatch]
  cases w.tracker.watched s with
  | none => exact ⟨rfl, rfl, rfl, rfl⟩
  | some out => exact ⟨rfl, rfl, rfl, rfl⟩

theorem unwatches_rest (w : NodeServer) (ss : List SocketId) :
    (ss.foldl NodeServer.unwatch w).tracker.notify = w.tracker.notify ∧
      (ss.foldl NodeServer.unwatch w).stop = w.stop ∧
      (ss.foldl NodeServer.unwatch w).transport.destroyed = w.transport.destroyed := by
  induction ss generalizing w with
  | nil => exact ⟨rfl, rfl, rfl⟩
  | cons s ss ih =>
      obtain ⟨-, hnotify, hstop, hdestroyed⟩ := unwatch_rest w s
      obtain ⟨hnotify', hstop', hdestroyed'⟩ := ih (w.unwatch s)
      exact ⟨hnotify'.trans hnotify, hstop'.trans hstop, hdestroyed'.trans hdestroyed⟩

theorem WatchBooks.unwatches (h : WatchBooks w) (ss : List SocketId) :
    WatchBooks (ss.foldl NodeServer.unwatch w) := by
  induction ss generalizing w with
  | nil => exact h
  | cons s ss ih => exact ih (h.unwatch s)

/-! ### The books of a drain -/

/-- The tracker and the stop agree, whatever is open. -/
structure DrainShape (tracked : Bool) (w : NodeServer) : Prop where
  notify : w.tracker.notify = true ↔
    tracked = true ∧ ∃ run, w.stop = some run ∧ run.done = none
  quiet : w.tracker.notify = false → w.tracker.pending = []
  waiting : ∀ run, w.stop = some run → (run.waiting = true ↔ run.done = none)
  timer : ∀ run, w.stop = some run → run.timer = true → run.done = none
  nodup : w.tracker.pending.Nodup
  watch : WatchBooks w
  pending : ∀ s ∈ w.tracker.pending, s ∈ w.tracker.connections ∧
    ∃ out, w.tracker.last s = some out ∧ w.tracker.watched s = some out
  settled : w.tracker.notify = true → ∀ s ∈ w.tracker.connections, ∀ out,
    w.tracker.last s = some out → s ∈ w.tracker.pending ∨ w.transport.closed out = true ∨
      w.flushed out = true
  untracked : tracked = false → w.tracker.connections = []
  distinct : w.tracker.connections.Nodup

/-- A stop that has nothing more to wait for has settled. -/
def Awake (w : NodeServer) : Prop :=
  ∀ run, w.stop = some run → run.done = none →
    ¬(w.wire.wireInFlight = 0 ∧ w.tracker.pending = [] ∧ run.appSettled = true)

structure DrainBooks (tracked : Bool) (w : NodeServer) : Prop extends DrainShape tracked w where
  awake : Awake w

/-- Nothing is on the wire, and the last response of each connection is over. -/
def Over (w : NodeServer) : Prop :=
  (∀ out, w.wire.wireSource out = none) ∧ ∀ s ∈ w.tracker.connections, ∀ out,
    w.tracker.last s = some out → w.transport.closed out = true ∨ w.flushed out = true

def Idle (w : NodeServer) (s : SocketId) : Prop :=
  (∀ out, w.wire.wireSource out ≠ none → w.transport.socket out ≠ s) ∧
    ∀ out, w.tracker.last s = some out → w.flushed out = true

/-- What a step makes of a stop that it does not time out. -/
def StopMoves (w w' : NodeServer) : Prop :=
  (w.stop = none ∧ w'.stop = none) ∨ ∃ run run', w.stop = some run ∧ w'.stop = some run' ∧
    run'.appSettled = run.appSettled ∧
      (run'.done = run.done ∨
        run.done = none ∧ run'.done = some false ∧ run'.appSettled = true ∧ Over w')

/-- What callbacks make of the drain, the teardown of some early answers included. -/
structure Drains (w w' : NodeServer) (torn : List ResponseId) : Prop where
  source : ∀ out, w.wire.wireSource out = none → w'.wire.wireSource out = none
  closed : w'.transport.closed = w.transport.closed
  socket : w'.transport.socket = w.transport.socket
  flushed : ∀ out, w.flushed out = true → w'.flushed out = true
  connections : ∀ s ∈ w'.tracker.connections, s ∈ w.tracker.connections
  last : ∀ s out, w'.tracker.last s = some out → w.tracker.last s = some out
  kept : ∀ s ∈ w'.tracker.connections, w'.tracker.last s = w.tracker.last s
  pending : ∀ s ∈ w'.tracker.pending, s ∈ w.tracker.pending
  stop : StopMoves w w'
  destroyed : ∀ s, w'.transport.destroyed s = true → w.transport.destroyed s = true ∨
    (∃ out ∈ torn, w.transport.socket out = s) ∨ Idle w' s

theorem StopMoves.of_stop (h : w'.stop = w.stop) : StopMoves w w' := by
  cases hstop : w.stop with
  | none => exact .inl ⟨hstop, h.trans hstop⟩
  | some run => exact .inr ⟨run, run, hstop, h.trans hstop, rfl, .inl rfl⟩

namespace Drains

theorem refl (w : NodeServer) : Drains w w [] :=
  ⟨fun _ => id, rfl, rfl, fun _ => id, fun _ => id, fun _ _ => id, fun _ _ => rfl, fun _ => id,
    .of_stop rfl, fun _ => .inl⟩

theorem keepsOver {torn : List ResponseId} (h : Drains w w' torn) (hover : Over w) : Over w' := by
  refine ⟨fun out => h.source out (hover.1 out), fun s hs out hout => ?_⟩
  rw [h.closed]
  exact (hover.2 s (h.connections s hs) out (h.last s out hout)).imp_right (h.flushed out)

theorem idle {torn : List ResponseId} (h : Drains w w' torn) (hidle : Idle w s) : Idle w' s := by
  refine ⟨fun out hout => ?_, fun out hout => h.flushed out (hidle.2 out (h.last s out hout))⟩
  rw [h.socket]
  exact hidle.1 out (mt (h.source out) hout)

theorem trans {torn torn' : List ResponseId} (h : Drains w w' torn) (h' : Drains w' w'' torn') :
    Drains w w'' (torn ++ torn') where
  source out hout := h'.source out (h.source out hout)
  closed := h'.closed.trans h.closed
  socket := h'.socket.trans h.socket
  flushed out hout := h'.flushed out (h.flushed out hout)
  connections s hs := h.connections s (h'.connections s hs)
  last s out hout := h.last s out (h'.last s out hout)
  kept s hs := (h'.kept s hs).trans (h.kept s (h'.connections s hs))
  pending s hs := h.pending s (h'.pending s hs)
  stop := by
    rcases h.stop with ⟨hw, hw'⟩ | ⟨run, run', hrun, hrun', hsettled, hmoves⟩
    · rcases h'.stop with ⟨-, hw''⟩ | ⟨_, _, hnot, -⟩
      · exact .inl ⟨hw, hw''⟩
      · cases hw'.symm.trans hnot
    · rcases h'.stop with ⟨hnot, -⟩ | ⟨mid, run'', hmid, hrun'', hsettled', hmoves'⟩
      · cases hrun'.symm.trans hnot
      · cases hrun'.symm.trans hmid
        refine .inr ⟨run, run'', hrun, hrun'', hsettled'.trans hsettled, ?_⟩
        rcases hmoves with hsame | ⟨hnone, hdone, hset, hover⟩
        · rcases hmoves' with hsame' | ⟨hnone', hlate⟩
          · exact .inl (hsame'.trans hsame)
          · exact .inr ⟨hsame.symm.trans hnone', hlate⟩
        · rcases hmoves' with hsame' | ⟨hnone', -⟩
          · exact .inr ⟨hnone, hsame'.trans hdone, hsettled'.trans hset, h'.keepsOver hover⟩
          · cases hdone.symm.trans hnone'
  destroyed s hs := by
    rcases h'.destroyed s hs with hmid | ⟨out, hout, hsocket⟩ | hidle
    · rcases h.destroyed s hmid with hold | ⟨out, hout, hsocket⟩ | hidle
      · exact .inl hold
      · exact .inr (.inl ⟨out, List.mem_append_left _ hout, hsocket⟩)
      · exact .inr (.inr (h'.idle hidle))
    · rw [h.socket] at hsocket
      exact .inr (.inl ⟨out, List.mem_append_right _ hout, hsocket⟩)
    · exact .inr (.inr hidle)

end Drains

theorem Calm.flushed (h : Calm w w') (out : ResponseId) : w'.flushed out = w.flushed out := by
  rw [NodeServer.flushed, NodeServer.flushed, h.finished, h.held]

/-- A calm step that leaves the stop and the sockets as they are. -/
theorem Drains.of_calm (h : Calm w w') (hstop : w'.stop = w.stop)
    (hpending : ∀ s ∈ w'.tracker.pending, s ∈ w.tracker.pending)
    (hdestroyed : w'.transport.destroyed = w.transport.destroyed) : Drains w w' [] where
  source out hout := by rwa [h.wire]
  closed := h.closed
  socket := h.socket
  flushed out hout := by rwa [h.flushed]
  connections s hs := by rwa [h.connections] at hs
  last s out hout := by rwa [h.last] at hout
  kept s _ := congrFun h.last s
  pending := hpending
  stop := .of_stop hstop
  destroyed s hs := .inl (by rwa [hdestroyed] at hs)

/-! ### A stop settles -/

theorem DrainBooks.closeIdle (h : DrainBooks tracked w) : DrainBooks tracked w.closeIdle :=
  { h with }

theorem DrainBooks.closeAllConnections (h : DrainBooks tracked w) :
    DrainBooks tracked w.closeAllConnections :=
  { h with }

/-- Nothing is left of a stop that is done. -/
theorem DrainShape.retire (h : DrainShape tracked w) (run : StopRun) {timedOut : Bool}
    (hdone : run.done = some timedOut) (htimer : run.timer = false)
    (hwaiting : run.waiting = false) :
    DrainBooks tracked (w.retire tracked run) ∧ (w.retire tracked run).stop = some run ∧
      (w.retire tracked run).tracker.pending = [] ∧
      (w.retire tracked run).transport.destroyed = w.transport.destroyed := by
  have hstopped : ∀ run' : StopRun, some run = some run' → run'.done = some timedOut ∧
      run'.timer = false ∧ run'.waiting = false := by
    rintro run' heq
    cases heq
    exact ⟨hdone, htimer, hwaiting⟩
  obtain ⟨v, hv, hcalm, hwatch, hnotify, hpending, hstop, hdestroyed⟩ : ∃ v,
      v = w.retire tracked run ∧ Calm w v ∧ WatchBooks v ∧ v.tracker.notify = false ∧
        v.tracker.pending = [] ∧ v.stop = some run ∧
        v.transport.destroyed = w.transport.destroyed := by
    refine ⟨_, rfl, Calm.retire w tracked run, ?_⟩
    rw [NodeServer.retire]
    cases tracked with
    | false =>
        have hoff : w.tracker.notify = false := by
          rw [← Bool.not_eq_true, h.notify]
          rintro ⟨hnot, -⟩
          cases hnot
        exact ⟨h.watch, hoff, h.quiet hoff, rfl, rfl⟩
    | true =>
        rw [if_pos rfl, stopDrain]
        obtain ⟨hnotify, hstop, hdestroyed⟩ := unwatches_rest { w with
          stop := some run, tracker := { w.tracker with notify := false } } w.tracker.pending
        have hwatch : WatchBooks { w with
          stop := some run, tracker := { w.tracker with notify := false } } := h.watch
        exact ⟨hwatch.unwatches _, hnotify, rfl, hstop, hdestroyed⟩
  rw [← hv]
  refine ⟨⟨⟨?_, fun _ => hpending, fun run' hrun' => ?_, fun run' hrun' htimer => ?_, ?_, hwatch,
    fun s hs => ?_, fun hon => ?_, fun huntracked => ?_, ?_⟩, fun run' hrun' hnone => ?_⟩, hstop,
    hpending, hdestroyed⟩
  · rw [hnotify, hstop]
    refine iff_of_false Bool.false_ne_true ?_
    rintro ⟨-, run', hrun', hnone⟩
    cases (hstopped run' hrun').1.symm.trans hnone
  · obtain ⟨hdone, -, hwaiting⟩ := hstopped run' (hstop.symm.trans hrun')
    rw [hdone, hwaiting]
    exact iff_of_false Bool.false_ne_true (Option.some_ne_none _)
  · cases (hstopped run' (hstop.symm.trans hrun')).2.1.symm.trans htimer
  · rw [hpending]
    exact List.nodup_nil
  · rw [hpending] at hs
    cases hs
  · cases hnotify.symm.trans hon
  · rw [hcalm.connections]
    exact h.untracked huntracked
  · rw [hcalm.connections]
    exact h.distinct
  · cases (hstopped run' (hstop.symm.trans hrun')).1.symm.trans hnone

/-- On an idle connection nothing is on the wire, and the last response is flushed. -/
theorem idle_of_closeIdle (h : WireBooks true w) (hidle : w.idle s = true) : Idle w s := by
  rw [NodeServer.idle, Bool.and_eq_true, decide_eq_true_eq] at hidle
  obtain ⟨hqueued, hlast⟩ := hidle
  refine ⟨fun out hout hsocket => ?_, fun out hout => ?_⟩
  · have hmem : out ∈ w.dispatched := by
      by_contra hnot
      exact hout (h.fresh out hnot).1
    have hon : OnTheWire w out = true := by rwa [OnTheWire, Option.isSome_iff_ne_none]
    have hnone := h.queued s
    rw [hqueued] at hnone
    have hzero : w.dispatched.countP (fun out =>
        w.wire.wireRelease out && decide (w.transport.socket out = s)) = 0 := by omega
    refine List.countP_eq_zero.mp hzero out hmem ?_
    rw [h.release, hon, decide_eq_true hsocket]
    rfl
  · rw [hout] at hlast
    exact hlast

theorem WireBooks.none_of_zero (h : WireBooks tracked w) (hzero : w.wire.wireInFlight = 0) :
    ∀ out, w.wire.wireSource out = none := by
  intro out
  by_cases hmem : out ∈ w.dispatched
  · have hcount := h.count
    rw [hzero] at hcount
    have hnone : w.dispatched.countP (OnTheWire w) = 0 := by omega
    have hoff := List.countP_eq_zero.mp hnone out hmem
    rwa [OnTheWire, Option.isSome_iff_ne_none, ne_eq, not_not] at hoff
  · exact (h.fresh out hmem).1

/-- A stop whose conditions hold settles. -/
theorem finish_spec (hbooks : WireBooks tracked w) (h : DrainShape tracked w) {run : StopRun}
    (hrun : w.stop = some run) (hnone : run.done = none) (hzero : w.wire.wireInFlight = 0)
    (hpending : w.tracker.pending = []) (hsettled : run.appSettled = true) :
    DrainBooks tracked (w.finish tracked false) ∧ Drains w (w.finish tracked false) [] := by
  have hcalm := Calm.retire w tracked
    { run with done := some false, timer := false, waiting := false }
  obtain ⟨hretired, hstop, hempty, hdestroyed⟩ :=
    h.retire { run with done := some false, timer := false, waiting := false } rfl rfl rfl
  have hover : Over w := by
    refine ⟨hbooks.none_of_zero hzero, fun s hs out hout => ?_⟩
    cases tracked with
    | false =>
        rw [h.untracked rfl] at hs
        cases hs
    | true =>
        have hpart := h.settled (h.notify.mpr ⟨rfl, run, hrun, hnone⟩) s hs out hout
        rw [hpending] at hpart
        exact hpart.resolve_left List.not_mem_nil
  have hover' : ∀ v, Calm w v → Over v := by
    intro v hv
    refine ⟨fun out => by rw [hv.wire]; exact hover.1 out, fun s hs out hout => ?_⟩
    rw [hv.connections] at hs
    rw [hv.last] at hout
    rw [hv.closed, hv.flushed]
    exact hover.2 s hs out hout
  have hdrains : ∀ v, Calm w v →
      v.stop = some { run with done := some false, timer := false, waiting := false } →
      v.tracker.pending = [] → (∀ s, v.transport.destroyed s = true →
        w.transport.destroyed s = true ∨ Idle v s) → Drains w v [] := by
    intro v hv hstop hempty hdestroyed
    refine ⟨fun out hout => by rwa [hv.wire], hv.closed, hv.socket, fun out hout => ?_,
      fun s hs => by rwa [hv.connections] at hs, fun s out hout => by rwa [hv.last] at hout,
      fun s _ => congrFun hv.last s, fun s hs => ?_, ?_,
      fun s hs => (hdestroyed s hs).imp_right .inr⟩
    · rwa [hv.flushed]
    · rw [hempty] at hs
      cases hs
    · exact .inr ⟨run, _, hrun, hstop, rfl, .inr ⟨hnone, rfl, hsettled, hover' v hv⟩⟩
  have hfinish : w.finish tracked false = if tracked then
      (w.retire tracked { run with done := some false, timer := false, waiting := false }).closeIdle
      else w.retire tracked { run with done := some false, timer := false, waiting := false } := by
    rw [NodeServer.finish, hrun]
    dsimp only
    rw [hnone]
    rfl
  rw [hfinish]
  split
  · next htr =>
      subst htr
      refine ⟨hretired.closeIdle, hdrains _ (hcalm.trans (Calm.closeIdle _)) hstop hempty
        fun s hs => ?_⟩
      rw [NodeServer.closeIdle, Bool.or_eq_true, hdestroyed, Bool.and_eq_true] at hs
      refine hs.imp_right fun hidle => ?_
      exact idle_of_closeIdle ((hbooks.calm hcalm).calm (Calm.closeIdle _)) hidle.2
  · exact ⟨hretired, hdrains _ hcalm hstop hempty fun s hs => .inl (hdestroyed ▸ hs)⟩

theorem trySettle_spec (hbooks : WireBooks tracked w) (h : DrainShape tracked w) :
    DrainBooks tracked (w.trySettle tracked) ∧ Drains w (w.trySettle tracked) [] := by
  rw [NodeServer.trySettle]
  cases hrun : w.stop with
  | none =>
      refine ⟨⟨h, fun run hsome => ?_⟩, .refl w⟩
      cases hrun.symm.trans hsome
  | some run =>
      dsimp only
      split
      · next hall =>
          cases hdone : run.done with
          | none => exact finish_spec hbooks h hrun hdone hall.1 hall.2.1 hall.2.2
          | some timedOut =>
              have hsame : w.finish tracked false = w := by
                rw [NodeServer.finish, hrun]
                dsimp only
                rw [hdone, Option.isSome_some, if_pos rfl]
              rw [hsame]
              refine ⟨⟨h, fun run' hsome hnone => ?_⟩, .refl w⟩
              cases hrun.symm.trans hsome
              cases hdone.symm.trans hnone
      · next hnot =>
          refine ⟨⟨h, fun run' hsome _ => ?_⟩, .refl w⟩
          cases hrun.symm.trans hsome
          exact hnot

/-! ### The callbacks -/

theorem notifyDrain_spec (hbooks : WireBooks tracked w) (h : DrainShape tracked w)
    (hquiet : w.tracker.notify = false → Awake w) :
    DrainBooks tracked w.notifyDrain ∧ Drains w w.notifyDrain [] := by
  rw [NodeServer.notifyDrain]
  cases hnotify : w.tracker.notify with
  | false => exact ⟨⟨h, hquiet hnotify⟩, .refl w⟩
  | true =>
      obtain ⟨rfl, -⟩ := h.notify.mp hnotify
      exact trySettle_spec hbooks h

def dropPending (w : NodeServer) (s : SocketId) : NodeServer :=
  { w.unwatch s with tracker :=
    { (w.unwatch s).tracker with pending := (w.unwatch s).tracker.pending.erase s } }

theorem Calm.dropPending (w : NodeServer) (s : SocketId) : Calm w (dropPending w s) :=
  { Calm.unwatch w s with }

theorem Drains.dropPending (w : NodeServer) (s : SocketId) : Drains w (dropPending w s) [] := by
  obtain ⟨hpending, -, hstop, hdestroyed⟩ := unwatch_rest w s
  refine .of_calm (Calm.dropPending w s) hstop (fun s' hs' => ?_) hdestroyed
  exact hpending ▸ List.mem_of_mem_erase hs'

theorem mem_dropPending (h : w.tracker.pending.Nodup) {s' : SocketId} :
    s' ∈ (dropPending w s).tracker.pending ↔ s' ≠ s ∧ s' ∈ w.tracker.pending := by
  show s' ∈ (w.unwatch s).tracker.pending.erase s ↔ _
  rw [(unwatch_rest w s).1, h.mem_erase_iff]

/-- What becomes of the books when the last response of a connection is over. -/
theorem DrainShape.dropPending (h : DrainShape tracked w)
    (hover : ∀ out, w.tracker.last s = some out →
      w.transport.closed out = true ∨ w.flushed out = true) :
    DrainShape tracked (dropPending w s) := by
  obtain ⟨hpending, hnotify, hstop, -⟩ := unwatch_rest w s
  have hcalm := Calm.dropPending w s
  refine ⟨?_, fun hoff => ?_, fun run hrun => ?_, fun run hrun => ?_, ?_, ?_, fun s' hs' => ?_,
    fun hon s' hs' out hout => ?_, fun huntracked => ?_, ?_⟩
  · show (w.unwatch s).tracker.notify = true ↔ _ ∧ ∃ run, (w.unwatch s).stop = some run ∧ _
    rw [hnotify, hstop]
    exact h.notify
  · show (w.unwatch s).tracker.pending.erase s = []
    rw [hpending, h.quiet (hnotify ▸ hoff), List.erase_nil]
  · exact h.waiting run (hstop ▸ hrun)
  · exact h.timer run (hstop ▸ hrun)
  · show ((w.unwatch s).tracker.pending.erase s).Nodup
    rw [hpending]
    exact h.nodup.erase s
  · exact h.watch.unwatch s
  · obtain ⟨hne, hmem⟩ := (mem_dropPending h.nodup).mp hs'
    obtain ⟨hconnection, out, hlast, hwatched⟩ := h.pending s' hmem
    rw [hcalm.connections, hcalm.last]
    refine ⟨hconnection, out, hlast, ?_⟩
    show (w.unwatch s).tracker.watched s' = some out
    rw [unwatch_watched, Function.update_of_ne hne]
    exact hwatched
  · rw [hcalm.connections] at hs'
    rw [hcalm.last] at hout
    rw [hcalm.closed, hcalm.flushed]
    by_cases heq : s' = s
    · subst heq
      exact .inr (hover out hout)
    · rcases h.settled (hnotify ▸ hon) s' hs' out hout with hmem | hrest
      · exact .inl ((mem_dropPending h.nodup).mpr ⟨heq, hmem⟩)
      · exact .inr hrest
  · rw [hcalm.connections]
    exact h.untracked huntracked
  · rw [hcalm.connections]
    exact h.distinct

theorem responseClosed_drain (hbooks : WireBooks tracked w) (h : DrainBooks tracked w)
    (hclosed : w.transport.closed out = true) :
    DrainBooks tracked (w.responseClosed out) ∧ Drains w (w.responseClosed out) [] := by
  rw [NodeServer.responseClosed]
  cases w.tracker.observed out with
  | none => exact ⟨h, .refl w⟩
  | some s =>
      dsimp only
      split
      · next hlast =>
          have hshape := h.toDrainShape.dropPending (s := s) fun out' hout' => by
            cases hlast.symm.trans hout'
            exact .inl hclosed
          have hcalm := Calm.dropPending w s
          obtain ⟨hpending, hnotify, hstop, -⟩ := unwatch_rest w s
          obtain ⟨hdrain, hdrains⟩ := notifyDrain_spec (hbooks.calm hcalm) hshape fun hoff => by
            intro run hrun hnone
            have hall := h.awake run (hstop ▸ hrun) hnone
            rw [h.quiet (hnotify ▸ hoff)] at hall
            rwa [hcalm.wire, hshape.quiet hoff]
          exact ⟨hdrain, (Drains.dropPending w s).trans hdrains⟩
      · exact ⟨h, .refl w⟩

theorem connectionClosed_drain (hbooks : WireBooks tracked w) (h : DrainBooks tracked w)
    (s : SocketId) :
    DrainBooks tracked (w.connectionClosed s) ∧ Drains w (w.connectionClosed s) [] := by
  have hforget : Calm w (w.unwatch s) := Calm.unwatch w s
  obtain ⟨hpending, hnotify, hstop, hdestroyed⟩ := unwatch_rest w s
  have hmem : ∀ s', s' ∈ (forgetSocket (w.unwatch s) s).tracker.pending ↔
      s' ≠ s ∧ s' ∈ w.tracker.pending := fun s' => mem_dropPending h.nodup
  have hconn : ∀ s', s' ∈ (forgetSocket (w.unwatch s) s).tracker.connections ↔
      s' ≠ s ∧ s' ∈ w.tracker.connections := by
    intro s'
    show s' ∈ (w.unwatch s).tracker.connections.erase s ↔ _
    rw [hforget.connections, h.distinct.mem_erase_iff]
  have hlast : ∀ s', s' ≠ s →
      (forgetSocket (w.unwatch s) s).tracker.last s' = w.tracker.last s' := by
    intro s' hne
    show Function.update (w.unwatch s).tracker.last s none s' = _
    rw [Function.update_of_ne hne, hforget.last]
  -- Without the socket the tracker is still as the stop expects it, but for the callback that
  -- is due.
  have hshape : DrainShape tracked (forgetSocket (w.unwatch s) s) := by
    refine ⟨?_, fun hoff => ?_, fun run hrun => ?_, fun run hrun => ?_, ?_, h.watch.unwatch s,
      fun s' hs' => ?_, fun hon s' hs' out hout => ?_, fun huntracked => ?_, ?_⟩
    · show (w.unwatch s).tracker.notify = true ↔ _ ∧ ∃ run, (w.unwatch s).stop = some run ∧ _
      rw [hnotify, hstop]
      exact h.notify
    · show (w.unwatch s).tracker.pending.erase s = []
      rw [hpending, h.quiet (hnotify ▸ hoff), List.erase_nil]
    · exact h.waiting run (hstop ▸ hrun)
    · exact h.timer run (hstop ▸ hrun)
    · show ((w.unwatch s).tracker.pending.erase s).Nodup
      rw [hpending]
      exact h.nodup.erase s
    · obtain ⟨hne, hold⟩ := (hmem s').mp hs'
      obtain ⟨hconnection, out, hout, hwatched⟩ := h.pending s' hold
      refine ⟨(hconn s').mpr ⟨hne, hconnection⟩, out, (hlast s' hne).trans hout, ?_⟩
      show (w.unwatch s).tracker.watched s' = some out
      rw [unwatch_watched, Function.update_of_ne hne]
      exact hwatched
    · obtain ⟨hne, hold⟩ := (hconn s').mp hs'
      rw [hlast s' hne] at hout
      have hflushed : (forgetSocket (w.unwatch s) s).flushed out = w.flushed out :=
        hforget.flushed out
      have hclosed : (forgetSocket (w.unwatch s) s).transport.closed = w.transport.closed :=
        hforget.closed
      rw [hflushed, hclosed]
      rcases h.settled (hnotify ▸ hon) s' hold out hout with hin | hrest
      · exact .inl ((hmem s').mpr ⟨hne, hin⟩)
      · exact .inr hrest
    · show (w.unwatch s).tracker.connections.erase s = []
      rw [hforget.connections, h.untracked huntracked, List.erase_nil]
    · show ((w.unwatch s).tracker.connections.erase s).Nodup
      rw [hforget.connections]
      exact h.distinct.erase s
  have hwire : WireBooks tracked (forgetSocket (w.unwatch s) s) :=
    { hbooks.calm hforget with }
  -- The callback is called where there is one, and settles a stop that waited for this socket.
  obtain ⟨hdrain, hdrains⟩ := notifyDrain_spec hwire hshape fun hoff => by
    intro run hrun hnone
    have hall := h.awake run (hstop ▸ hrun) hnone
    rw [h.quiet (hnotify ▸ hoff)] at hall
    rwa [show (forgetSocket (w.unwatch s) s).wire = w.wire from hforget.wire, hshape.quiet hoff]
  have hfirst : Drains w (forgetSocket (w.unwatch s) s) [] := by
    refine ⟨fun out hout => ?_, hforget.closed, hforget.socket, fun out hout => ?_,
      fun s' hs' => ((hconn s').mp hs').2, fun s' out hout => ?_,
      fun s' hs' => hlast s' ((hconn s').mp hs').1, fun s' hs' => ((hmem s').mp hs').2,
      .of_stop hstop, fun s' hs' => .inl (hdestroyed ▸ hs')⟩
    · rwa [show (forgetSocket (w.unwatch s) s).wire = w.wire from hforget.wire]
    · rwa [show (forgetSocket (w.unwatch s) s).flushed out = w.flushed out from
        hforget.flushed out]
    · by_cases heq : s' = s
      · subst heq
        change Function.update (w.unwatch s').tracker.last s' none s' = some out at hout
        rw [Function.update_self] at hout
        cases hout
      · rwa [hlast s' heq] at hout
  exact ⟨hdrain, hfirst.trans hdrains⟩

theorem wakeWaiters_spec (hbooks : WireBooks tracked w) (h : DrainShape tracked w) :
    DrainBooks tracked (w.wakeWaiters tracked) ∧ Drains w (w.wakeWaiters tracked) [] := by
  rw [NodeServer.wakeWaiters]
  cases hrun : w.stop with
  | none =>
      refine ⟨⟨h, fun run hsome => ?_⟩, .refl w⟩
      cases hrun.symm.trans hsome
  | some run =>
      dsimp only
      split
      · exact trySettle_spec hbooks h
      · next hnot =>
          refine ⟨⟨h, fun run' hsome hnone hall => hnot ⟨hall.1, ?_⟩⟩, .refl w⟩
          cases hrun.symm.trans hsome
          exact (h.waiting run hrun).mpr hnone

theorem onWireDone_drain (hbooks : WireBooks tracked w) (h : DrainBooks tracked w)
    (out : ResponseId) :
    DrainBooks tracked (w.onWireDone tracked out) ∧ Drains w (w.onWireDone tracked out) [] := by
  rw [NodeServer.onWireDone]
  cases hsource : w.wire.wireSource out with
  | none => exact ⟨h, .refl w⟩
  | some source =>
      have hleft : DrainShape tracked (w.leaveWire out source) := { h.toDrainShape with }
      obtain ⟨hdrain, hdrains⟩ := wakeWaiters_spec (leaveWire_spec hbooks hsource).1 hleft
      have hfirst : Drains w (w.leaveWire out source) [] := by
        refine { Drains.refl w with
          source := fun other hother => ?_, stop := .of_stop rfl, destroyed := fun _ => .inl }
        show Function.update w.wire.wireSource out none other = none
        by_cases heq : other = out
        · rw [heq, Function.update_self]
        · rwa [Function.update_of_ne heq]
      exact ⟨hdrain, hfirst.trans hdrains⟩

theorem watcherClosed_drain (h : DrainBooks tracked w) (out : ResponseId) :
    DrainBooks tracked (w.watcherClosed out) ∧ Drains w (w.watcherClosed out) [] := by
  rw [NodeServer.watcherClosed]
  cases w.wire.watching out with
  | none => exact ⟨h, .refl w⟩
  | some entry =>
      refine ⟨{ h with watch := fun s other hother => ?_ },
        { Drains.refl w with stop := .of_stop rfl, destroyed := fun _ => .inl }⟩
      obtain ⟨hobserved, hsocket, hmem, hlistens⟩ := h.watch s other hother
      refine ⟨hobserved, hsocket, hmem, fun hopen => ?_⟩
      show .responseClosed ∈ Function.update w.transport.listeners out _ other
      by_cases heq : other = out
      · subst heq
        rw [Function.update_self]
        exact (List.mem_erase_of_ne (by decide)).mpr (hlistens hopen)
      · rw [Function.update_of_ne heq]
        exact hlistens hopen

theorem abandonedClosed_drain (h : DrainBooks tracked w) (out : ResponseId) :
    DrainBooks tracked (w.abandonedClosed out) ∧ Drains w (w.abandonedClosed out) [out] := by
  have hflushed : ∀ other, w.flushed other = true →
      (w.abandonedClosed out).flushed other = true := by
    intro other hother
    rw [NodeServer.flushed, Bool.and_eq_true] at hother ⊢
    refine ⟨hother.1, ?_⟩
    show (!Function.update w.tracker.heldCloses out false other) = true
    by_cases heq : other = out
    · rw [heq, Function.update_self]
      rfl
    · rw [Function.update_of_ne heq]
      exact hother.2
  refine ⟨{ h with settled := fun hon s hs other hother => ?_ }, { Drains.refl w with
    flushed := hflushed, stop := .of_stop rfl, destroyed := fun s hs => ?_ }⟩
  · exact (h.settled hon s hs other hother).imp_right (Or.imp_right (hflushed other))
  · change Function.update w.transport.destroyed (w.transport.socket out) true s = true at hs
    by_cases heq : s = w.transport.socket out
    · exact .inr (.inl ⟨out, List.mem_cons_self, heq.symm⟩)
    · rw [Function.update_of_ne heq] at hs
      exact .inl hs

/-- The callbacks of one `close` in a row. -/
theorem drains_foldl {α : Type} {f : NodeServer → α → NodeServer} {torn : α → List ResponseId}
    {Q : NodeServer → Prop} (hQ : ∀ {w w' torn}, Drains w w' torn → Q w → Q w')
    (hf : ∀ w a, WireBooks tracked w → DrainBooks tracked w → Q w → WireBooks tracked (f w a) ∧
      DrainBooks tracked (f w a) ∧ Drains w (f w a) (torn a))
    (hbooks : WireBooks tracked w) (h : DrainBooks tracked w) (hq : Q w) (as : List α) :
    DrainBooks tracked (as.foldl f w) ∧ Drains w (as.foldl f w) (as.flatMap torn) := by
  induction as generalizing w with
  | nil => exact ⟨h, .refl w⟩
  | cons a as ih =>
      obtain ⟨hbooks', hdrain, hdrains⟩ := hf w a hbooks h hq
      obtain ⟨hrest, hdrains'⟩ := ih hbooks' hdrain (hQ hdrains hq)
      exact ⟨hrest, hdrains.trans hdrains'⟩

theorem runListener_drain (hbooks : WireBooks tracked w) (h : DrainBooks tracked w)
    (hclosed : w.transport.closed out = true) (listener : CloseListener) :
    DrainBooks tracked (w.runListener tracked out listener) ∧
      Drains w (w.runListener tracked out listener) (listener.torn out) := by
  cases listener with
  | onWireDone => exact onWireDone_drain hbooks h out
  | responseClosed => exact responseClosed_drain hbooks h hclosed
  | closed => exact watcherClosed_drain h out
  | abandoned => exact abandonedClosed_drain h out

theorem runSubscriber_drain (hbooks : WireBooks tracked w) (h : DrainBooks tracked w)
    (onDone : Subscriber) :
    DrainBooks tracked (w.runSubscriber tracked onDone) ∧
      Drains w (w.runSubscriber tracked onDone) [] := by
  cases onDone with
  | wireDone out => exact onWireDone_drain hbooks h out
  | closed out => exact watcherClosed_drain h out

end Keala.Adapters
