import Keala.Adapters.NodeWire
import Mathlib.Data.List.Count

/-!
What the adapter counts as being on the wire: exactly the exchanges without a
connection of their own whose response and socket are both still open. One
listener for each socket serves them and the watched signals, and a signal is
aborted when its client has gone.
-/

namespace Keala.Adapters

open NodeServer SharedListener

variable {tracked : Bool} {w w' w'' : NodeServer} {s : SocketId} {out : ResponseId}

/-! ### What the drain leaves alone -/

structure Calm (w w' : NodeServer) : Prop where
  wire : w'.wire = w.wire
  dispatched : w'.dispatched = w.dispatched
  connectionTracked : w'.connectionTracked = w.connectionTracked
  connected : w'.transport.connected = w.transport.connected
  gone : w'.transport.gone = w.transport.gone
  socket : w'.transport.socket = w.transport.socket
  ended : w'.transport.writableEnded = w.transport.writableEnded
  finished : w'.transport.writableFinished = w.transport.writableFinished
  closed : w'.transport.closed = w.transport.closed
  destroyed : ∀ s, w.transport.destroyed s = true → w'.transport.destroyed s = true
  listeners : ∀ out listener, listener ≠ .responseClosed →
    (listener ∈ w'.transport.listeners out ↔ listener ∈ w.transport.listeners out)
  queued : w'.tracker.queued = w.tracker.queued
  connections : w'.tracker.connections = w.tracker.connections
  last : w'.tracker.last = w.tracker.last
  held : w'.tracker.heldCloses = w.tracker.heldCloses

namespace Calm

theorem refl (w : NodeServer) : Calm w w :=
  ⟨rfl, rfl, rfl, rfl, rfl, rfl, rfl, rfl, rfl, fun _ => id, fun _ _ _ => Iff.rfl, rfl, rfl, rfl,
    rfl⟩

theorem trans (h : Calm w w') (h' : Calm w' w'') : Calm w w'' where
  wire := h'.wire.trans h.wire
  dispatched := h'.dispatched.trans h.dispatched
  connectionTracked := h'.connectionTracked.trans h.connectionTracked
  connected := h'.connected.trans h.connected
  gone := h'.gone.trans h.gone
  socket := h'.socket.trans h.socket
  ended := h'.ended.trans h.ended
  finished := h'.finished.trans h.finished
  closed := h'.closed.trans h.closed
  destroyed s hs := h'.destroyed s (h.destroyed s hs)
  listeners out listener hne := (h'.listeners out listener hne).trans (h.listeners out listener hne)
  queued := h'.queued.trans h.queued
  connections := h'.connections.trans h.connections
  last := h'.last.trans h.last
  held := h'.held.trans h.held

theorem foldl {α : Type} {f : NodeServer → α → NodeServer} (hf : ∀ w a, Calm w (f w a))
    (w : NodeServer) (as : List α) : Calm w (as.foldl f w) := by
  induction as generalizing w with
  | nil => exact .refl w
  | cons a as ih => exact (hf w a).trans (ih (f w a))

theorem setListeners (w : NodeServer) (out : ResponseId) {listeners : List CloseListener}
    (h : ∀ listener, listener ≠ .responseClosed →
      (listener ∈ listeners ↔ listener ∈ w.transport.listeners out)) :
    Calm w (w.setListeners out listeners) := by
  refine { Calm.refl w with listeners := fun other listener hne => ?_ }
  show listener ∈ Function.update w.transport.listeners out listeners other ↔ _
  by_cases heq : other = out
  · subst heq
    rw [Function.update_self]
    exact h listener hne
  · rw [Function.update_of_ne heq]

theorem unwatch (w : NodeServer) (s : SocketId) : Calm w (w.unwatch s) := by
  rw [NodeServer.unwatch]
  split
  · exact .refl w
  · next out _ =>
      have hcalm : Calm w
          (w.setListeners out ((w.transport.listeners out).erase .responseClosed)) :=
        setListeners w out fun listener hne => List.mem_erase_of_ne hne
      exact { hcalm with }

theorem watch (w : NodeServer) (s : SocketId) : Calm w (w.watch s) := by
  have hcalm := unwatch w s
  rw [NodeServer.watch]
  split
  · exact { hcalm with }
  · next out _ =>
      split
      · exact { hcalm with }
      · refine hcalm.trans { setListeners (w.unwatch s) out fun listener hne => ?_ with }
        rw [List.mem_append, List.mem_singleton, or_iff_left hne]

theorem closeIdle (w : NodeServer) : Calm w w.closeIdle := by
  refine { Calm.refl w with destroyed := fun s hs => ?_ }
  show (w.transport.destroyed s || _) = true
  rw [hs, Bool.true_or]

theorem startDrain (w : NodeServer) : Calm w w.startDrain := by
  have hflag : Calm w { w with tracker := { w.tracker with notify := true } } :=
    { Calm.refl w with }
  exact hflag.trans (foldl watch _ _)

theorem stopDrain (w : NodeServer) : Calm w w.stopDrain := by
  have hflag : Calm w { w with tracker := { w.tracker with notify := false } } :=
    { Calm.refl w with }
  exact { hflag.trans (foldl unwatch _ w.tracker.pending) with }

theorem closeAllConnections (w : NodeServer) : Calm w w.closeAllConnections := by
  refine { Calm.refl w with destroyed := fun s hs => ?_ }
  show (w.transport.destroyed s || _) = true
  rw [hs, Bool.true_or]

theorem retire (w : NodeServer) (tracked : Bool) (run : StopRun) :
    Calm w (w.retire tracked run) := by
  have hstop : Calm w { w with stop := some run } := { Calm.refl w with }
  rw [NodeServer.retire]
  split
  · exact hstop.trans (stopDrain _)
  · exact hstop

theorem finish (w : NodeServer) (tracked timedOut : Bool) : Calm w (w.finish tracked timedOut) := by
  rw [NodeServer.finish]
  split
  · exact .refl w
  · split
    · exact .refl w
    · dsimp only
      split
      · exact (retire w _ _).trans (closeAllConnections _)
      · split
        · exact (retire w _ _).trans (closeIdle _)
        · exact retire w _ _

theorem trySettle (w : NodeServer) (tracked : Bool) : Calm w (w.trySettle tracked) := by
  rw [NodeServer.trySettle]
  split
  · exact .refl w
  · split
    · exact finish w tracked false
    · exact .refl w

theorem notifyDrain (w : NodeServer) : Calm w w.notifyDrain := by
  rw [NodeServer.notifyDrain]
  split
  · exact trySettle w true
  · exact .refl w

theorem wakeWaiters (w : NodeServer) (tracked : Bool) : Calm w (w.wakeWaiters tracked) := by
  rw [NodeServer.wakeWaiters]
  split
  · split
    · exact trySettle w tracked
    · exact .refl w
  · exact .refl w

theorem responseClosed (w : NodeServer) (out : ResponseId) : Calm w (w.responseClosed out) := by
  rw [NodeServer.responseClosed]
  split
  · exact .refl w
  · next s _ =>
      split
      · have hcalm : Calm w { w.unwatch s with tracker :=
            { (w.unwatch s).tracker with pending := (w.unwatch s).tracker.pending.erase s } } :=
          { unwatch w s with }
        exact hcalm.trans (notifyDrain _)
      · exact .refl w

end Calm

/-! ### Leaving the wire -/

/-- One element fewer is counted. -/
theorem countP_leave {α : Type} [DecidableEq α] {l : List α} (hl : l.Nodup) {a : α} (ha : a ∈ l)
    {p q : α → Bool} (hp : p a = true) (hq : q a = false) (hother : ∀ b, b ≠ a → q b = p b) :
    l.countP q + 1 = l.countP p := by
  induction l with
  | nil => cases ha
  | cons b l ih =>
      rw [List.nodup_cons] at hl
      by_cases heq : b = a
      · subst heq
        have hsame : l.countP q = l.countP p := by
          refine List.countP_congr fun c hc => ?_
          rw [hother c fun hcb => hl.1 (hcb ▸ hc)]
        simp [hp, hq, hsame]
      · have hmem : a ∈ l := (List.mem_cons.mp ha).resolve_left (Ne.symm heq)
        have hrest := ih hl.2 hmem
        rw [List.countP_cons, List.countP_cons, hother b heq]
        omega

def OnTheWire (w : NodeServer) (out : ResponseId) : Bool := (w.wire.wireSource out).isSome

/-- What the properties of the exchanges say of each other. -/
structure WireBooks (tracked : Bool) (w : NodeServer) : Prop where
  heap : Coherent w.wire.socketCloses
  nodup : w.dispatched.Nodup
  fresh : ∀ out, out ∉ w.dispatched → w.wire.wireSource out = none ∧ w.wire.watching out = none
  fanout : ∀ out, w.wire.wireFanout out = none ↔ w.wire.wireSource out = none
  registered : ∀ out entry, w.wire.wireFanout out = some entry →
    Registered w.wire.socketCloses (w.transport.socket out) entry (.wireDone out)
  watching : ∀ out entry, w.wire.watching out = some entry →
    Registered w.wire.socketCloses (w.transport.socket out) entry (.closed out)
  wireDone : ∀ s out, .wireDone out ∈ w.wire.socketCloses.live s →
    w.transport.socket out = s ∧ w.wire.wireFanout out ≠ none
  closed : ∀ s out, .closed out ∈ w.wire.socketCloses.live s →
    w.transport.socket out = s ∧ w.wire.watching out ≠ none
  count : w.wire.wireInFlight = w.dispatched.countP (OnTheWire w)
  release : ∀ out, w.wire.wireRelease out = (tracked && OnTheWire w out)
  queued : ∀ s, w.tracker.queued s = w.dispatched.countP fun out =>
    w.wire.wireRelease out && decide (w.transport.socket out = s)

/-- What the end of some exchanges on the wire, of some watchers and of some
early answers makes of the rest. -/
structure Ends (w w' : NodeServer) (dones closeds torn : List ResponseId) : Prop where
  source : ∀ out, w'.wire.wireSource out = if out ∈ dones then none else w.wire.wireSource out
  watching : ∀ out, w'.wire.watching out = if out ∈ closeds then none else w.wire.watching out
  abort : w'.wire.abort = w.wire.abort
  dispatched : w'.dispatched = w.dispatched
  connectionTracked : w'.connectionTracked = w.connectionTracked
  connected : w'.transport.connected = w.transport.connected
  gone : w'.transport.gone = w.transport.gone
  socket : w'.transport.socket = w.transport.socket
  ended : w'.transport.writableEnded = w.transport.writableEnded
  finished : w'.transport.writableFinished = w.transport.writableFinished
  closed : w'.transport.closed = w.transport.closed
  connections : ∀ s, s ∈ w.tracker.connections → w.transport.gone s = false →
    s ∈ w'.tracker.connections
  destroyed : ∀ s, w.transport.destroyed s = true → w'.transport.destroyed s = true
  kept : ∀ out, w.wire.disconnected out = true → w'.wire.disconnected out = true
  told : ∀ out ∈ closeds, w.wire.watching out ≠ none → w.transport.writableEnded out = false →
    w'.wire.disconnected out = true
  cause : ∀ out, w'.wire.disconnected out = true → w.wire.disconnected out = true ∨
    w.transport.writableEnded out = false ∧ (out ∈ dones ∨ out ∈ closeds) ∨ out ∈ torn
  onWireDone : ∀ out, .onWireDone ∈ w'.transport.listeners out ↔
    .onWireDone ∈ w.transport.listeners out
  listening : ∀ out, out ∉ closeds →
    (.closed ∈ w'.transport.listeners out ↔ .closed ∈ w.transport.listeners out)

theorem Calm.ends (h : Calm w w') : Ends w w' [] [] [] where
  source out := by rw [h.wire, if_neg List.not_mem_nil]
  watching out := by rw [h.wire, if_neg List.not_mem_nil]
  abort := by rw [h.wire]
  dispatched := h.dispatched
  connectionTracked := h.connectionTracked
  connected := h.connected
  gone := h.gone
  socket := h.socket
  ended := h.ended
  finished := h.finished
  closed := h.closed
  connections s hs _ := by rwa [h.connections]
  destroyed := h.destroyed
  kept out hout := by rwa [h.wire]
  told out hout := absurd hout List.not_mem_nil
  cause out hout := .inl (by rwa [h.wire] at hout)
  onWireDone out := h.listeners out _ (by decide)
  listening out _ := h.listeners out _ (by decide)

theorem Ends.trans {dones closeds torn dones' closeds' torn' : List ResponseId}
    (h : Ends w w' dones closeds torn) (h' : Ends w' w'' dones' closeds' torn') :
    Ends w w'' (dones ++ dones') (closeds ++ closeds') (torn ++ torn') where
  source out := by
    rw [h'.source, h.source]
    by_cases hmem : out ∈ dones' <;> simp [hmem]
  watching out := by
    rw [h'.watching, h.watching]
    by_cases hmem : out ∈ closeds' <;> simp [hmem]
  abort := h'.abort.trans h.abort
  dispatched := h'.dispatched.trans h.dispatched
  connectionTracked := h'.connectionTracked.trans h.connectionTracked
  connected := h'.connected.trans h.connected
  gone := h'.gone.trans h.gone
  socket := h'.socket.trans h.socket
  ended := h'.ended.trans h.ended
  finished := h'.finished.trans h.finished
  closed := h'.closed.trans h.closed
  connections s hs hgone := h'.connections s (h.connections s hs hgone) (by rwa [h.gone])
  destroyed s hs := h'.destroyed s (h.destroyed s hs)
  kept out hout := h'.kept out (h.kept out hout)
  told out hmem hwatching hended := by
    by_cases hfirst : out ∈ closeds
    · exact h'.kept out (h.told out hfirst hwatching hended)
    · refine h'.told out ((List.mem_append.mp hmem).resolve_left hfirst) ?_ (by rwa [h.ended])
      rwa [h.watching, if_neg hfirst]
  cause out hout := by
    rcases h'.cause out hout with hold | ⟨hended, hmem⟩ | htorn
    · rcases h.cause out hold with hold | ⟨hended, hmem⟩ | htorn
      · exact .inl hold
      · exact .inr (.inl ⟨hended, hmem.imp (List.mem_append_left _) (List.mem_append_left _)⟩)
      · exact .inr (.inr (List.mem_append_left _ htorn))
    · rw [h.ended] at hended
      exact .inr (.inl ⟨hended, hmem.imp (List.mem_append_right _) (List.mem_append_right _)⟩)
    · exact .inr (.inr (List.mem_append_right _ htorn))
  onWireDone out := (h'.onWireDone out).trans (h.onWireDone out)
  listening out hnot := by
    rw [List.mem_append, not_or] at hnot
    exact (h'.listening out hnot.2).trans (h.listening out hnot.1)

theorem WireBooks.calm (h : WireBooks tracked w) (hcalm : Calm w w') : WireBooks tracked w' where
  heap := hcalm.wire ▸ h.heap
  nodup := hcalm.dispatched ▸ h.nodup
  fresh := by
    rw [hcalm.wire, hcalm.dispatched]
    exact h.fresh
  fanout := by
    rw [hcalm.wire]
    exact h.fanout
  registered := by
    rw [hcalm.wire, hcalm.socket]
    exact h.registered
  watching := by
    rw [hcalm.wire, hcalm.socket]
    exact h.watching
  wireDone := by
    rw [hcalm.wire, hcalm.socket]
    exact h.wireDone
  closed := by
    rw [hcalm.wire, hcalm.socket]
    exact h.closed
  count := by
    have hsame : OnTheWire w' = OnTheWire w := by
      funext out
      rw [OnTheWire, OnTheWire, hcalm.wire]
    rw [hcalm.wire, hcalm.dispatched, hsame]
    exact h.count
  release := by
    intro out
    rw [OnTheWire, hcalm.wire]
    exact h.release out
  queued := by
    rw [hcalm.queued, hcalm.wire, hcalm.socket, hcalm.dispatched]
    exact h.queued

/-- Where something holds of no other element and of one only if it is counted. -/
theorem countP_update {l : List ResponseId} {α : Type} (f : ResponseId → α) (p : α → Bool) {a : α}
    (ha : p a = false) (hl : l.Nodup) (hout : out ∈ l) (hp : p (f out) = true) :
    l.countP (fun other => p (Function.update f out a other)) + 1 =
      l.countP fun other => p (f other) := by
  refine countP_leave hl hout hp ?_ fun other hne => ?_
  · show p (Function.update f out a out) = false
    rw [Function.update_self]
    exact ha
  · show p (Function.update f out a other) = p (f other)
    rw [Function.update_of_ne hne]

theorem leaveWire_spec (h : WireBooks tracked w) {source : Bool}
    (hsource : w.wire.wireSource out = some source) :
    WireBooks tracked (w.leaveWire out source) ∧ Ends w (w.leaveWire out source) [out] [] [] := by
  have hmem : out ∈ w.dispatched := by
    by_contra hnot
    rw [(h.fresh out hnot).1] at hsource
    cases hsource
  have hwire : OnTheWire w out = true := by rw [OnTheWire, hsource, Option.isSome_some]
  obtain ⟨entry, hentry⟩ : ∃ entry, w.wire.wireFanout out = some entry := by
    apply Option.ne_none_iff_exists'.mp
    intro hnone
    rw [(h.fanout out).mp hnone] at hsource
    cases hsource
  have hregistered := h.registered out entry hentry
  have hheap : (w.leaveWire out source).wire.socketCloses =
      w.wire.socketCloses.unsubscribe (w.transport.socket out) entry (.wireDone out) := by
    simp [leaveWire, hentry]
  -- Only the subscription of this response is given back.
  have hothers : ∀ s entry' onDone, onDone ≠ .wireDone out →
      Registered w.wire.socketCloses s entry' onDone →
        Registered (w.leaveWire out source).wire.socketCloses s entry' onDone := by
    intro s entry' onDone hne hr
    rw [hheap]
    exact hr.after_unsubscribe h.heap hregistered.entry fun heq => hne heq.2
  have hlive : ∀ s onDone, onDone ∈ (w.leaveWire out source).wire.socketCloses.live s →
      onDone ∈ w.wire.socketCloses.live s ∧ onDone ≠ .wireDone out := by
    intro s onDone hon
    rw [hheap, h.heap.mem_live_unsubscribe hregistered.entry] at hon
    refine ⟨hon.1, ?_⟩
    rintro rfl
    obtain ⟨entry', hr⟩ := Heap.mem_live.mp hon.1
    exact hon.2 ⟨(h.wireDone s out hon.1).1.symm, rfl⟩
  refine ⟨⟨?_, h.nodup, ?_, ?_, ?_, ?_, ?_, ?_, ?_, ?_, ?_⟩, ?_⟩
  · rw [hheap]
    exact h.heap.unsubscribe hregistered.entry _
  · intro other hother
    have hne : other ≠ out := by
      rintro rfl
      exact hother hmem
    show Function.update w.wire.wireSource out none other = none ∧ w.wire.watching other = none
    rw [Function.update_of_ne hne]
    exact h.fresh other hother
  · intro other
    show Function.update w.wire.wireFanout out none other = none ↔
      Function.update w.wire.wireSource out none other = none
    by_cases heq : other = out
    · subst heq
      simp
    · rw [Function.update_of_ne heq, Function.update_of_ne heq]
      exact h.fanout other
  · intro other entry' hother
    change Function.update w.wire.wireFanout out none other = some entry' at hother
    have hne : other ≠ out := by
      rintro rfl
      rw [Function.update_self] at hother
      cases hother
    rw [Function.update_of_ne hne] at hother
    exact hothers _ _ _ (fun heq => hne (by injection heq)) (h.registered other entry' hother)
  · intro other entry' hother
    exact hothers _ _ _ (fun heq => by cases heq) (h.watching other entry' hother)
  · intro s other hother
    obtain ⟨hold, hne⟩ := hlive s _ hother
    have hne : other ≠ out := fun heq => hne (heq ▸ rfl)
    show w.transport.socket other = s ∧ Function.update w.wire.wireFanout out none other ≠ none
    rw [Function.update_of_ne hne]
    exact h.wireDone s other hold
  · intro s other hother
    exact h.closed s other (hlive s _ hother).1
  · have hcount := countP_update w.wire.wireSource Option.isSome (a := none) rfl h.nodup hmem hwire
    show w.wire.wireInFlight - 1 = w.dispatched.countP fun other =>
      (Function.update w.wire.wireSource out none other).isSome
    have hold := h.count
    rw [show OnTheWire w = fun other => (w.wire.wireSource other).isSome from rfl] at hold
    omega
  · intro other
    show Function.update w.wire.wireRelease out false other =
      (tracked && (Function.update w.wire.wireSource out none other).isSome)
    by_cases heq : other = out
    · subst heq
      rw [Function.update_self, Function.update_self, Option.isSome_none, Bool.and_false]
    · rw [Function.update_of_ne heq, Function.update_of_ne heq]
      exact h.release other
  · -- The queue of its socket is one shorter, where the exchange was counted there.
    intro s
    have hold := h.queued s
    show (if w.wire.wireRelease out then _ else w.tracker.queued : SocketId → ℤ) s =
      w.dispatched.countP fun other => Function.update w.wire.wireRelease out false other &&
        decide (w.transport.socket other = s)
    by_cases hs : w.wire.wireRelease out = true ∧ w.transport.socket out = s
    · obtain ⟨hrelease, rfl⟩ := hs
      have hcount : (w.dispatched.countP fun other =>
          Function.update w.wire.wireRelease out false other &&
            decide (w.transport.socket other = w.transport.socket out)) + 1 =
          w.dispatched.countP fun other => w.wire.wireRelease other &&
            decide (w.transport.socket other = w.transport.socket out) := by
        refine countP_leave h.nodup hmem ?_ ?_ fun other hne => ?_
        · simp [hrelease]
        · simp
        · rw [Function.update_of_ne hne]
      rw [if_pos hrelease, Function.update_self]
      omega
    · have hsame : (fun other => Function.update w.wire.wireRelease out false other &&
          decide (w.transport.socket other = s)) =
          fun other => w.wire.wireRelease other && decide (w.transport.socket other = s) := by
        funext other
        by_cases heq : other = out
        · subst heq
          rw [not_and] at hs
          rw [Function.update_self]
          cases hrelease : w.wire.wireRelease other with
          | false => rfl
          | true => simp [hs hrelease]
        · rw [Function.update_of_ne heq]
      rw [hsame, ← hold]
      split
      · next hrelease =>
          exact Function.update_of_ne (fun heq => hs ⟨hrelease, heq.symm⟩) ..
      · rfl
  · refine ⟨fun other => ?_, fun other => by rw [if_neg List.not_mem_nil]; rfl, rfl, rfl, rfl, rfl,
      rfl, rfl, rfl, rfl, rfl, fun _ hs _ => hs, fun s hs => hs, fun other hother => ?_,
      fun other hother => absurd hother List.not_mem_nil, fun other hother => ?_,
      fun _ => Iff.rfl, fun _ _ => Iff.rfl⟩
    · show Function.update w.wire.wireSource out none other = _
      by_cases heq : other = out
      · subst heq
        simp
      · simp [heq]
    · show (if !w.transport.writableEnded out && source then _ else _ : ResponseId → Bool) other =
        true
      split
      · by_cases heq : other = out
        · rw [heq, Function.update_self]
        · rw [Function.update_of_ne heq]
          exact hother
      · exact hother
    · -- It reports its own client alone, and only before the response has ended.
      change (if !w.transport.writableEnded out && source then _ else _ : ResponseId → Bool) other =
        true at hother
      split at hother
      · next hboth =>
          rw [Bool.and_eq_true, Bool.not_eq_true'] at hboth
          by_cases heq : other = out
          · subst heq
            exact .inr (.inl ⟨hboth.1, .inl List.mem_cons_self⟩)
          · rw [Function.update_of_ne heq] at hother
            exact .inl hother
      · exact .inl hother

theorem onWireDone_spec (h : WireBooks tracked w) (out : ResponseId) :
    WireBooks tracked (w.onWireDone tracked out) ∧
      Ends w (w.onWireDone tracked out) [out] [] [] := by
  rw [NodeServer.onWireDone]
  cases hsource : w.wire.wireSource out with
  | none =>
      refine ⟨h, { (Calm.refl w).ends with source := fun other => ?_, cause := fun other => .inl }⟩
      by_cases heq : other = out
      · subst heq
        simp [hsource]
      · simp [heq]
  | some source =>
      obtain ⟨hbooks, hends⟩ := leaveWire_spec h hsource
      have hcalm := Calm.wakeWaiters (w.leaveWire out source) tracked
      exact ⟨hbooks.calm hcalm, hends.trans hcalm.ends⟩

theorem watcherClosed_spec (h : WireBooks tracked w) (out : ResponseId) :
    WireBooks tracked (w.watcherClosed out) ∧ Ends w (w.watcherClosed out) [] [out] [] := by
  rw [NodeServer.watcherClosed]
  cases hwatching : w.wire.watching out with
  | none =>
      -- Nobody watches, and nothing happens.
      refine ⟨h, { (Calm.refl w).ends with
        watching := fun other => ?_, told := fun other hother hnot => ?_,
        cause := fun other => .inl, listening := fun _ _ => Iff.rfl }⟩
      · by_cases heq : other = out
        · subst heq
          simp [hwatching]
        · simp [heq]
      · rw [List.mem_singleton] at hother
        subst hother
        exact absurd hwatching hnot
  | some entry =>
      dsimp only
      have hregistered := h.watching out entry hwatching
      have hmem : out ∈ w.dispatched := by
        by_contra hnot
        rw [(h.fresh out hnot).2] at hwatching
        cases hwatching
      have hothers : ∀ s entry' onDone, onDone ≠ .closed out →
          Registered w.wire.socketCloses s entry' onDone →
            Registered
              (w.wire.socketCloses.unsubscribe (w.transport.socket out) entry (.closed out))
              s entry' onDone := fun s entry' onDone hne hr =>
        hr.after_unsubscribe h.heap hregistered.entry fun heq => hne heq.2
      have hlive : ∀ s onDone, onDone ∈ (w.wire.socketCloses.unsubscribe
          (w.transport.socket out) entry (.closed out)).live s →
            onDone ∈ w.wire.socketCloses.live s ∧ onDone ≠ .closed out := by
        intro s onDone hon
        rw [h.heap.mem_live_unsubscribe hregistered.entry] at hon
        refine ⟨hon.1, ?_⟩
        rintro rfl
        exact hon.2 ⟨(h.closed s out hon.1).1.symm, rfl⟩
      have hlisteners : ∀ other listener, listener ≠ .closed ∨ other ≠ out →
          (listener ∈ Function.update w.transport.listeners out
              ((w.transport.listeners out).erase .closed) other ↔
            listener ∈ w.transport.listeners other) := by
        intro other listener hne
        by_cases heq : other = out
        · subst heq
          rw [Function.update_self]
          exact List.mem_erase_of_ne (hne.resolve_right fun hnot => hnot rfl)
        · rw [Function.update_of_ne heq]
      refine ⟨{ h with
        heap := h.heap.unsubscribe hregistered.entry _, fresh := ?_, registered := ?_,
        watching := ?_, wireDone := ?_, closed := ?_ }, ?_⟩
      · intro other hother
        have hne : other ≠ out := by
          rintro rfl
          exact hother hmem
        show w.wire.wireSource other = none ∧ Function.update w.wire.watching out none other = none
        rw [Function.update_of_ne hne]
        exact h.fresh other hother
      · intro other entry' hother
        exact hothers _ _ _ (fun heq => by cases heq) (h.registered other entry' hother)
      · intro other entry' hother
        change Function.update w.wire.watching out none other = some entry' at hother
        have hne : other ≠ out := by
          rintro rfl
          rw [Function.update_self] at hother
          cases hother
        rw [Function.update_of_ne hne] at hother
        exact hothers _ _ _ (fun heq => hne (by injection heq)) (h.watching other entry' hother)
      · intro s other hother
        exact h.wireDone s other (hlive s _ hother).1
      · intro s other hother
        obtain ⟨hold, hne⟩ := hlive s _ hother
        have hne : other ≠ out := fun heq => hne (heq ▸ rfl)
        show w.transport.socket other = s ∧ Function.update w.wire.watching out none other ≠ none
        rw [Function.update_of_ne hne]
        exact h.closed s other hold
      · refine { (Calm.refl w).ends with
          watching := fun other => ?_, kept := fun other hother => ?_,
          told := fun other hother _ hended => ?_, cause := fun other hother => ?_,
          onWireDone := fun other => hlisteners other _ (.inl (by decide)),
          listening := fun other hother => hlisteners other _ (.inr ?_) }
        · show Function.update w.wire.watching out none other = _
          by_cases heq : other = out
          · subst heq
            simp
          · simp [heq]
        · -- The client is reported gone unless the response had ended.
          show (if w.transport.writableEnded out then _ else _ : ResponseId → Bool) other = true
          split
          · exact hother
          · by_cases heq : other = out
            · rw [heq, Function.update_self]
            · rw [Function.update_of_ne heq]
              exact hother
        · rw [List.mem_singleton] at hother
          subst hother
          show (if w.transport.writableEnded other then _ else _ : ResponseId → Bool) other = true
          rw [if_neg (by rw [hended]; exact Bool.false_ne_true), Function.update_self]
        · change (if w.transport.writableEnded out then _ else _ : ResponseId → Bool) other = true
            at hother
          split at hother
          · exact .inl hother
          · next hended =>
              by_cases heq : other = out
              · subst heq
                exact .inr (.inl ⟨Bool.not_eq_true _ ▸ hended, .inr List.mem_cons_self⟩)
              · rw [Function.update_of_ne heq] at hother
                exact .inl hother
        · rintro rfl
          exact hother List.mem_cons_self

theorem abandonedClosed_spec (h : WireBooks tracked w) (out : ResponseId) :
    WireBooks tracked (w.abandonedClosed out) ∧ Ends w (w.abandonedClosed out) [] [] [out] := by
  refine ⟨{ h with }, { (Calm.refl w).ends with
    destroyed := fun s hs => ?_, kept := fun other hother => ?_,
    told := fun other hother => absurd hother List.not_mem_nil,
    cause := fun other hother => ?_ }⟩
  · show Function.update w.transport.destroyed _ true s = true
    by_cases heq : s = w.transport.socket out
    · rw [heq]
      exact Function.update_self ..
    · rw [Function.update_of_ne heq]
      exact hs
  · show Function.update w.wire.disconnected out true other = true
    by_cases heq : other = out
    · rw [heq, Function.update_self]
    · rw [Function.update_of_ne heq]
      exact hother
  · change Function.update w.wire.disconnected out true other = true at hother
    by_cases heq : other = out
    · exact .inr (.inr (heq ▸ List.mem_cons_self))
    · rw [Function.update_of_ne heq] at hother
      exact .inl hother

/-- The callbacks of one `close` in a row. -/
theorem ends_foldl {α : Type} {f : NodeServer → α → NodeServer}
    {dones closeds torn : α → List ResponseId}
    (hf : ∀ w a, WireBooks tracked w →
      WireBooks tracked (f w a) ∧ Ends w (f w a) (dones a) (closeds a) (torn a))
    (h : WireBooks tracked w) (as : List α) :
    WireBooks tracked (as.foldl f w) ∧
      Ends w (as.foldl f w) (as.flatMap dones) (as.flatMap closeds) (as.flatMap torn) := by
  induction as generalizing w with
  | nil => exact ⟨h, (Calm.refl w).ends⟩
  | cons a as ih =>
      obtain ⟨hfirst, hends⟩ := hf w a h
      obtain ⟨hrest, hends'⟩ := ih hfirst
      exact ⟨hrest, hends.trans hends'⟩

/-! ### The invariant -/

structure WireInv (tracked : Bool) (w : NodeServer) : Prop where
  books : WireBooks tracked w
  counted : ∀ out, OnTheWire w out = true ↔ out ∈ w.dispatched ∧
    w.connectionTracked out = false ∧ w.transport.closed out = false ∧
      w.transport.gone (w.transport.socket out) = false
  watched : ∀ out, w.wire.watching out ≠ none →
    w.transport.closed out = false ∧ w.transport.gone (w.transport.socket out) = false
  onWireDone : ∀ out, OnTheWire w out = true → .onWireDone ∈ w.transport.listeners out
  listening : ∀ out, w.wire.watching out ≠ none → .closed ∈ w.transport.listeners out
  signal : ∀ out, w.wire.abort out = true → w.wire.watching out ≠ none ∨
    w.wire.disconnected out = true ∨ w.transport.writableEnded out = true
  cause : ∀ out, w.wire.disconnected out = true → w.transport.closed out = true ∨
    w.transport.destroyed (w.transport.socket out) = true
  fresh : ∀ out, out ∉ w.dispatched → w.transport.closed out = false ∧
    w.wire.abort out = false ∧ w.wire.disconnected out = false
  gone : ∀ s, w.transport.gone s = true → w.transport.destroyed s = true
  connections : tracked = true → ∀ s, w.transport.connected s = true →
    w.transport.gone s = false → s ∈ w.tracker.connections

theorem wireInv_createNodeServer (tracked : Bool) : WireInv tracked createNodeServer where
  books := by
    refine ⟨coherent_empty, List.nodup_nil, fun _ _ => ⟨rfl, rfl⟩, fun _ => ?_, ?_, ?_, ?_, ?_, rfl,
      fun _ => ?_, fun _ => rfl⟩
    · simp [createNodeServer]
    · intro out entry h
      cases h
    · intro out entry h
      cases h
    · intro s out h
      cases h
    · intro s out h
      cases h
    · exact (Bool.and_false tracked).symm
  counted out := by simp [createNodeServer, OnTheWire]
  watched out h := absurd rfl h
  onWireDone out h := by cases h
  listening out h := absurd rfl h
  signal out h := by cases h
  cause out h := by cases h
  fresh _ _ := ⟨rfl, rfl, rfl⟩
  gone s h := by cases h
  connections _ s h := by cases h

theorem OnTheWire.of_ends {dones closeds torn : List ResponseId}
    (h : Ends w w' dones closeds torn) :
    OnTheWire w' out = true ↔ OnTheWire w out = true ∧ out ∉ dones := by
  rw [OnTheWire, h.source]
  by_cases hmem : out ∈ dones
  · simp [hmem]
  · simp [hmem, OnTheWire]

/-- The callbacks of a `close` have run: of a response, or of a socket. -/
theorem WireInv.ends (h : WireInv tracked w) {dones closeds torn : List ResponseId}
    {shut : NodeServer} (hbooks : WireBooks tracked w') (hends : Ends shut w' dones closeds torn)
    (hwire : shut.wire = w.wire) (hdispatched : shut.dispatched = w.dispatched)
    (htracked : shut.connectionTracked = w.connectionTracked)
    (hconnected : shut.transport.connected = w.transport.connected)
    (hsocket : shut.transport.socket = w.transport.socket)
    (hended : shut.transport.writableEnded = w.transport.writableEnded)
    (hconnections : shut.tracker.connections = w.tracker.connections)
    (hclosed : ∀ out, w.transport.closed out = true → shut.transport.closed out = true)
    (hgone : ∀ s, w.transport.gone s = true → shut.transport.gone s = true)
    (hdestroyed : ∀ s, w.transport.destroyed s = true ∨ shut.transport.gone s = true →
      shut.transport.destroyed s = true)
    (hfresh : ∀ out, out ∉ w.dispatched → shut.transport.closed out = false)
    (hdone : ∀ out, OnTheWire w out = true → (out ∈ dones ↔ shut.transport.closed out = true ∨
      shut.transport.gone (shut.transport.socket out) = true))
    (hwatched : ∀ out, w.wire.watching out ≠ none → out ∉ closeds →
      shut.transport.closed out = false ∧ shut.transport.gone (shut.transport.socket out) = false)
    (htorn : ∀ out, out ∈ dones ∨ out ∈ closeds ∨ out ∈ torn → out ∈ w.dispatched ∧
      (shut.transport.closed out = true ∨
        shut.transport.gone (shut.transport.socket out) = true))
    (hlisteners : ∀ out, shut.transport.closed out = false →
      shut.transport.listeners out = w.transport.listeners out) :
    WireInv tracked w' := by
  have hon : ∀ out, OnTheWire shut out = OnTheWire w out := fun out => by
    rw [OnTheWire, OnTheWire, hwire]
  refine ⟨hbooks, fun out => ?_, fun out hout => ?_, fun out hout => ?_, fun out hout => ?_,
    fun out hout => ?_, fun out hout => ?_, fun out hout => ?_, fun s hs => ?_,
    fun htr s hs hopen => ?_⟩
  · -- What stays on the wire has an open response on an open socket.
    rw [OnTheWire.of_ends hends, hon, hends.dispatched, hends.connectionTracked, hends.closed,
      hends.gone, hends.socket, hdispatched, htracked]
    constructor
    · rintro ⟨hout, hnot⟩
      have hopen := mt (hdone out hout).mpr hnot
      rw [not_or, Bool.not_eq_true, Bool.not_eq_true] at hopen
      obtain ⟨hmem, hfree, -, -⟩ := (h.counted out).mp hout
      exact ⟨hmem, hfree, hopen⟩
    · rintro ⟨hmem, hfree, hopen, halive⟩
      have hout : OnTheWire w out = true := by
        refine (h.counted out).mpr ⟨hmem, hfree, ?_, ?_⟩
        · rw [← Bool.not_eq_true]
          intro hold
          rw [hclosed out hold] at hopen
          cases hopen
        · rw [← Bool.not_eq_true]
          intro hold
          rw [hsocket, hgone _ hold] at halive
          cases halive
      refine ⟨hout, fun hin => ?_⟩
      rcases (hdone out hout).mp hin with hshut | hshut
      · rw [hopen] at hshut
        cases hshut
      · rw [halive] at hshut
        cases hshut
  · rw [hends.watching] at hout
    split at hout
    · exact absurd rfl hout
    · next hnot =>
        rw [hends.closed, hends.gone, hends.socket]
        rw [hwire] at hout
        exact hwatched out hout hnot
  · obtain ⟨hold, hnot⟩ := (OnTheWire.of_ends hends).mp hout
    rw [hon] at hold
    have hopen := mt (hdone out hold).mpr hnot
    rw [not_or, Bool.not_eq_true] at hopen
    rw [hends.onWireDone, hlisteners out hopen.1]
    exact h.onWireDone out hold
  · rw [hends.watching] at hout
    split at hout
    · exact absurd rfl hout
    · next hnot =>
        rw [hwire] at hout
        rw [hends.listening out hnot, hlisteners out (hwatched out hout hnot).1]
        exact h.listening out hout
  · -- An aborted signal is still watched, was told of a client, or its response had ended.
    rw [hends.abort, hwire] at hout
    rw [hends.watching, hends.ended, hended]
    rcases h.signal out hout with hwatch | hdisc | hend
    · by_cases hin : out ∈ closeds
      · cases hopen : w.transport.writableEnded out with
        | true => exact .inr (.inr rfl)
        | false =>
            refine .inr (.inl (hends.told out hin ?_ ?_))
            · rwa [hwire]
            · rwa [hended]
      · rw [if_neg hin, hwire]
        exact .inl hwatch
    · refine .inr (.inl (hends.kept out ?_))
      rwa [hwire]
    · exact .inr (.inr hend)
  · -- Whoever was reported gone has a closed response or a destroyed socket.
    rw [hends.closed, hends.socket]
    have htold : shut.transport.closed out = true ∨
        shut.transport.gone (shut.transport.socket out) = true →
          shut.transport.closed out = true ∨
            w'.transport.destroyed (shut.transport.socket out) = true := by
      rintro (hshut | hshut)
      · exact .inl hshut
      · exact .inr (hends.destroyed _ (hdestroyed _ (.inr hshut)))
    rcases hends.cause out hout with hold | ⟨-, hmem⟩ | hmem
    · rw [hwire] at hold
      rcases h.cause out hold with hold | hold
      · exact .inl (hclosed out hold)
      · rw [hsocket]
        exact .inr (hends.destroyed _ (hdestroyed _ (.inl hold)))
    · exact htold (htorn out (hmem.imp_right .inl)).2
    · exact htold (htorn out (.inr (.inr hmem))).2
  · rw [hends.dispatched, hdispatched] at hout
    obtain ⟨-, habort, hdisc⟩ := h.fresh out hout
    rw [hends.closed, hends.abort, hwire]
    refine ⟨hfresh out hout, habort, ?_⟩
    rw [← Bool.not_eq_true]
    intro hnew
    rcases hends.cause out hnew with hold | ⟨-, hmem⟩ | hmem
    · rw [hwire, hdisc] at hold
      cases hold
    · exact hout (htorn out (hmem.imp_right .inl)).1
    · exact hout (htorn out (.inr (.inr hmem))).1
  · rw [hends.gone] at hs
    exact hends.destroyed s (hdestroyed s (.inr hs))
  · rw [hends.connected, hconnected] at hs
    rw [hends.gone] at hopen
    refine hends.connections s ?_ hopen
    rw [hconnections]
    refine h.connections htr s hs ?_
    rw [← Bool.not_eq_true]
    intro hold
    rw [hgone s hold] at hopen
    cases hopen

theorem WireInv.calm (h : WireInv tracked w) (hcalm : Calm w w') : WireInv tracked w' := by
  have hends := hcalm.ends
  refine h.ends (h.books.calm hcalm) hends rfl rfl rfl rfl rfl rfl rfl
    (fun _ => id) (fun _ => id) ?_ (fun out hout => (h.fresh out hout).1) ?_ ?_ ?_ fun _ _ => rfl
  · rintro s (hs | hs)
    · exact hs
    · exact h.gone s hs
  · intro out hout
    obtain ⟨-, -, hclosed, hgone⟩ := (h.counted out).mp hout
    simp [hclosed, hgone]
  · intro out hout _
    exact h.watched out hout
  · rintro out (hmem | hmem | hmem) <;> cases hmem

/-! ### The close of a response -/

namespace CloseListener

def dones (out : ResponseId) : CloseListener → List ResponseId
  | .onWireDone => [out]
  | _ => []

def closeds (out : ResponseId) : CloseListener → List ResponseId
  | .closed => [out]
  | _ => []

def torn (out : ResponseId) : CloseListener → List ResponseId
  | .abandoned => [out]
  | _ => []

theorem mem_dones {other : ResponseId} {listeners : List CloseListener} :
    other ∈ listeners.flatMap (dones out) ↔ other = out ∧ .onWireDone ∈ listeners := by
  rw [List.mem_flatMap]
  constructor
  · rintro ⟨listener, hmem, hother⟩
    cases listener with
    | onWireDone => exact ⟨List.mem_singleton.mp hother, hmem⟩
    | responseClosed => cases hother
    | closed => cases hother
    | abandoned => cases hother
  · rintro ⟨rfl, hmem⟩
    exact ⟨.onWireDone, hmem, List.mem_cons_self⟩

theorem mem_closeds {other : ResponseId} {listeners : List CloseListener} :
    other ∈ listeners.flatMap (closeds out) ↔ other = out ∧ .closed ∈ listeners := by
  rw [List.mem_flatMap]
  constructor
  · rintro ⟨listener, hmem, hother⟩
    cases listener with
    | onWireDone => cases hother
    | responseClosed => cases hother
    | closed => exact ⟨List.mem_singleton.mp hother, hmem⟩
    | abandoned => cases hother
  · rintro ⟨rfl, hmem⟩
    exact ⟨.closed, hmem, List.mem_cons_self⟩

theorem mem_torn {other : ResponseId} {listeners : List CloseListener} :
    other ∈ listeners.flatMap (torn out) ↔ other = out ∧ .abandoned ∈ listeners := by
  rw [List.mem_flatMap]
  constructor
  · rintro ⟨listener, hmem, hother⟩
    cases listener with
    | onWireDone => cases hother
    | responseClosed => cases hother
    | closed => cases hother
    | abandoned => exact ⟨List.mem_singleton.mp hother, hmem⟩
  · rintro ⟨rfl, hmem⟩
    exact ⟨.abandoned, hmem, List.mem_cons_self⟩

end CloseListener

theorem runListener_spec (h : WireBooks tracked w) (out : ResponseId) (listener : CloseListener) :
    WireBooks tracked (w.runListener tracked out listener) ∧
      Ends w (w.runListener tracked out listener) (listener.dones out) (listener.closeds out)
        (listener.torn out) := by
  cases listener with
  | onWireDone => exact onWireDone_spec h out
  | responseClosed =>
      have hcalm := Calm.responseClosed w out
      exact ⟨h.calm hcalm, hcalm.ends⟩
  | closed => exact watcherClosed_spec h out
  | abandoned => exact abandonedClosed_spec h out

def shutResponse (w : NodeServer) (out : ResponseId) : NodeServer :=
  { w with transport :=
    { w.transport with
      closed := Function.update w.transport.closed out true
      listeners := Function.update w.transport.listeners out [] } }

theorem closeResponse_spec (h : WireInv tracked w) (out : ResponseId) :
    Ends (shutResponse w out) (w.closeResponse tracked out)
      ((w.transport.listeners out).flatMap (CloseListener.dones out))
      ((w.transport.listeners out).flatMap (CloseListener.closeds out))
      ((w.transport.listeners out).flatMap (CloseListener.torn out)) ∧
    WireBooks tracked (w.closeResponse tracked out) := by
  have hshut : WireBooks tracked (shutResponse w out) := { h.books with }
  exact (ends_foldl (fun w listener hw => runListener_spec hw out listener) hshut
    (w.transport.listeners out)).symm

theorem WireInv.closeResponse (h : WireInv tracked w) (hout : out ∈ w.dispatched) :
    WireInv tracked (w.closeResponse tracked out) := by
  obtain ⟨hends, hbooks⟩ := closeResponse_spec h out
  have hclosed : ∀ other, (shutResponse w out).transport.closed other = true ↔
      w.transport.closed other = true ∨ other = out := by
    intro other
    show Function.update w.transport.closed out true other = true ↔ _
    by_cases heq : other = out
    · simp [heq]
    · simp [heq]
  refine h.ends hbooks hends rfl rfl rfl rfl rfl rfl rfl (fun other hother => ?_) (fun _ => id) ?_
    (fun other hother => ?_) (fun other hother => ?_) (fun other hother hnot => ?_)
    (fun other hother => ?_) fun other hother => ?_
  · exact (hclosed other).mpr (.inl hother)
  · rintro s (hs | hs)
    · exact hs
    · exact h.gone s hs
  · rw [← Bool.not_eq_true, hclosed, (h.fresh other hother).1]
    rintro (hold | rfl)
    · cases hold
    · exact hother hout
  · obtain ⟨-, -, hopen, halive⟩ := (h.counted other).mp hother
    have halive : (shutResponse w out).transport.gone
        ((shutResponse w out).transport.socket other) = false := halive
    rw [CloseListener.mem_dones, hclosed, hopen, halive]
    constructor
    · exact fun hmem => .inl (.inr hmem.1)
    · rintro ((hold | rfl) | hold)
      · cases hold
      · exact ⟨rfl, h.onWireDone other hother⟩
      · cases hold
  · have hne : other ≠ out := by
      rintro rfl
      exact hnot (CloseListener.mem_closeds.mpr ⟨rfl, h.listening other hother⟩)
    rw [← Bool.not_eq_true, hclosed, not_or, Bool.not_eq_true]
    exact ⟨⟨(h.watched other hother).1, hne⟩, (h.watched other hother).2⟩
  · have heq : other = out := by
      rcases hother with hmem | hmem | hmem
      · exact (CloseListener.mem_dones.mp hmem).1
      · exact (CloseListener.mem_closeds.mp hmem).1
      · exact (CloseListener.mem_torn.mp hmem).1
    subst heq
    exact ⟨hout, .inl ((hclosed other).mpr (.inr rfl))⟩
  · rw [← Bool.not_eq_true, hclosed, not_or] at hother
    show Function.update w.transport.listeners out [] other = w.transport.listeners other
    rw [Function.update_of_ne hother.2]

/-! ### The close of a socket -/

namespace Subscriber

def dones : Subscriber → List ResponseId
  | .wireDone out => [out]
  | .closed _ => []

def closeds : Subscriber → List ResponseId
  | .wireDone _ => []
  | .closed out => [out]

theorem mem_dones {members : List Subscriber} :
    out ∈ members.flatMap dones ↔ .wireDone out ∈ members := by
  rw [List.mem_flatMap]
  constructor
  · rintro ⟨onDone, hmem, hout⟩
    cases onDone with
    | wireDone other => exact List.mem_singleton.mp hout ▸ hmem
    | closed other => cases hout
  · exact fun hmem => ⟨.wireDone out, hmem, List.mem_cons_self⟩

theorem mem_closeds {members : List Subscriber} :
    out ∈ members.flatMap closeds ↔ .closed out ∈ members := by
  rw [List.mem_flatMap]
  constructor
  · rintro ⟨onDone, hmem, hout⟩
    cases onDone with
    | wireDone other => cases hout
    | closed other => exact List.mem_singleton.mp hout ▸ hmem
  · exact fun hmem => ⟨.closed out, hmem, List.mem_cons_self⟩

end Subscriber

theorem runSubscriber_spec (h : WireBooks tracked w) (onDone : Subscriber) :
    WireBooks tracked (w.runSubscriber tracked onDone) ∧
      Ends w (w.runSubscriber tracked onDone) onDone.dones onDone.closeds [] := by
  cases onDone with
  | wireDone out => exact onWireDone_spec h out
  | closed out => exact watcherClosed_spec h out

def shutSocket (w : NodeServer) (s : SocketId) : NodeServer :=
  { w with transport :=
    { w.transport with
      destroyed := Function.update w.transport.destroyed s true
      gone := Function.update w.transport.gone s true } }

def forgetSocket (w : NodeServer) (s : SocketId) : NodeServer :=
  { w with tracker :=
    { w.tracker with
      connections := w.tracker.connections.erase s
      pending := w.tracker.pending.erase s
      last := Function.update w.tracker.last s none } }

theorem connectionClosed_spec (h : WireBooks tracked w) (hgone : w.transport.gone s = true) :
    WireBooks tracked (w.connectionClosed s) ∧ Ends w (w.connectionClosed s) [] [] [] ∧
      (w.connectionClosed s).wire = w.wire := by
  have hcalm := Calm.unwatch w s
  have hbooks := h.calm hcalm
  have hends := hcalm.ends
  have hlast : Calm (forgetSocket (w.unwatch s) s) (w.connectionClosed s) :=
    Calm.notifyDrain (forgetSocket (w.unwatch s) s)
  have hforget : WireBooks tracked (forgetSocket (w.unwatch s) s) := { hbooks with }
  refine ⟨hforget.calm hlast, ?_, hlast.wire.trans hcalm.wire⟩
  have hmid : Ends w (forgetSocket (w.unwatch s) s) [] [] [] := by
    refine { hends with connections := fun s' hs' hopen => ?_ }
    have hne : s' ≠ s := by
      rintro rfl
      rw [hgone] at hopen
      cases hopen
    exact (List.mem_erase_of_ne hne).mpr (hends.connections s' hs' hopen)
  exact hmid.trans hlast.ends

theorem closeSocket_spec (h : WireInv tracked w) (s : SocketId) :
    WireBooks tracked (w.closeSocket tracked s) ∧
      Ends (shutSocket w s) (w.closeSocket tracked s)
        ((w.wire.socketCloses.live s).flatMap Subscriber.dones)
        ((w.wire.socketCloses.live s).flatMap Subscriber.closeds)
        ((w.wire.socketCloses.live s).flatMap fun _ => []) := by
  have hshut : WireBooks tracked (shutSocket w s) := { h.books with }
  have hgone : (shutSocket w s).transport.gone s = true := Function.update_self ..
  obtain ⟨mid, hmid, hbooks, hends, hwire⟩ : ∃ mid,
      mid = (if tracked then (shutSocket w s).connectionClosed s else shutSocket w s) ∧
        WireBooks tracked mid ∧ Ends (shutSocket w s) mid [] [] [] ∧ mid.wire = w.wire := by
    refine ⟨_, rfl, ?_⟩
    split
    · exact connectionClosed_spec hshut hgone
    · exact ⟨hshut, (Calm.refl _).ends, rfl⟩
  have hclose : w.closeSocket tracked s = (w.wire.socketCloses.attached s).foldl (fun w entry =>
      (w.wire.socketCloses.members entry).foldl (fun w onDone => w.runSubscriber tracked onDone) w)
        mid := by
    rw [hmid]
    rfl
  rw [hclose, h.books.heap.attached, Heap.live]
  cases hentry : w.wire.socketCloses.entry s with
  | none => exact ⟨hbooks, hends⟩
  | some entry =>
      rw [Option.toList_some, List.foldl_cons, List.foldl_nil, hwire]
      obtain ⟨hafter, hrest⟩ := ends_foldl
        (fun w onDone hw => runSubscriber_spec hw onDone) hbooks (w.wire.socketCloses.members entry)
      exact ⟨hafter, hends.trans hrest⟩

theorem WireInv.closeSocket (h : WireInv tracked w) (s : SocketId) :
    WireInv tracked (w.closeSocket tracked s) := by
  obtain ⟨hbooks, hends⟩ := closeSocket_spec h s
  have hgone : ∀ s', (shutSocket w s).transport.gone s' = true ↔
      w.transport.gone s' = true ∨ s' = s := by
    intro s'
    show Function.update w.transport.gone s true s' = true ↔ _
    by_cases heq : s' = s
    · simp [heq]
    · simp [heq]
  -- What is on the wire has its subscription on the socket, so the fan-out reaches it.
  have hlive : ∀ out, OnTheWire w out = true →
      .wireDone out ∈ w.wire.socketCloses.live (w.transport.socket out) := by
    intro out hout
    obtain ⟨entry, hentry⟩ : ∃ entry, w.wire.wireFanout out = some entry := by
      apply Option.ne_none_iff_exists'.mp
      intro hnone
      rw [OnTheWire, (h.books.fanout out).mp hnone] at hout
      cases hout
    exact Heap.mem_live.mpr ⟨entry, h.books.registered out entry hentry⟩
  refine h.ends hbooks hends rfl rfl rfl rfl rfl rfl rfl (fun _ => id) (fun s' hs' => ?_) ?_
    (fun out hout => (h.fresh out hout).1) (fun out hout => ?_) (fun out hout hnot => ?_)
    (fun out hout => ?_) fun _ _ => rfl
  · exact (hgone s').mpr (.inl hs')
  · intro s' hs'
    show Function.update w.transport.destroyed s true s' = true
    by_cases heq : s' = s
    · rw [heq, Function.update_self]
    · rw [Function.update_of_ne heq]
      rcases hs' with hs' | hs'
      · exact hs'
      · exact h.gone s' (((hgone s').mp hs').resolve_right heq)
  · -- The exchanges that end are those on this socket.
    obtain ⟨-, -, hopen, halive⟩ := (h.counted out).mp hout
    have hopen : (shutSocket w s).transport.closed out = false := hopen
    rw [Subscriber.mem_dones, hgone, hopen]
    show .wireDone out ∈ w.wire.socketCloses.live s ↔ _ ∨
      w.transport.gone (w.transport.socket out) = true ∨ w.transport.socket out = s
    rw [halive]
    constructor
    · exact fun hmem => .inr (.inr (h.books.wireDone s out hmem).1)
    · rintro (hold | hold | hold)
      · cases hold
      · cases hold
      · exact hold ▸ hlive out hout
  · rw [← Bool.not_eq_true, ← Bool.not_eq_true, hgone]
    show ¬w.transport.closed out = true ∧ ¬(w.transport.gone (w.transport.socket out) = true ∨
      w.transport.socket out = s)
    rw [(h.watched out hout).1, (h.watched out hout).2]
    refine ⟨Bool.false_ne_true, ?_⟩
    rintro (hold | hold)
    · cases hold
    · obtain ⟨entry, hentry⟩ := Option.ne_none_iff_exists'.mp hout
      refine hnot (Subscriber.mem_closeds.mpr (Heap.mem_live.mpr ⟨entry, ?_⟩))
      exact hold ▸ h.books.watching out entry hentry
  · have hsub : out ∈ w.dispatched ∧ w.transport.socket out = s := by
      rcases hout with hmem | hmem | hmem
      · obtain ⟨hsocket, hfan⟩ := h.books.wireDone s out (Subscriber.mem_dones.mp hmem)
        refine ⟨?_, hsocket⟩
        by_contra hnot
        exact hfan ((h.books.fanout out).mpr (h.books.fresh out hnot).1)
      · obtain ⟨hsocket, hwatch⟩ := h.books.closed s out (Subscriber.mem_closeds.mp hmem)
        refine ⟨?_, hsocket⟩
        by_contra hnot
        exact hwatch (h.books.fresh out hnot).2
      · obtain ⟨onDone, -, hnone⟩ := List.mem_flatMap.mp hmem
        cases hnone
    exact ⟨hsub.1, .inr ((hgone _).mpr (.inr hsub.2))⟩

end Keala.Adapters
