import Keala.Adapters.DrainBooks
import Keala.Adapters.WireRuns

/-!
The graceful stop over every run of the server: it resolves once, not before
the work is over, not later than the callback that ends the last of it, and
closes nothing but idle connections unless it times out.
-/

namespace Keala.Adapters

open NodeServer

variable {tracked : Bool} {w w' : NodeServer} {s : SocketId} {out : ResponseId}

/-! ### The start of a drain -/

structure WatchShape (seen : SocketId → Prop) (w : NodeServer) : Prop where
  nodup : w.tracker.pending.Nodup
  watch : WatchBooks w
  connections : ∀ s ∈ w.tracker.pending, s ∈ w.tracker.connections
  pending : ∀ s ∈ w.tracker.pending, seen s →
    ∃ out, w.tracker.last s = some out ∧ w.tracker.watched s = some out
  settled : ∀ s ∈ w.tracker.connections, seen s → ∀ out, w.tracker.last s = some out →
    s ∈ w.tracker.pending ∨ w.transport.closed out = true ∨ w.flushed out = true

/-- Nothing needs to be watched for a connection. -/
theorem WatchShape.dropPending {seen : SocketId → Prop} (h : WatchShape seen w)
    (hover : ∀ out, w.tracker.last s = some out →
      w.transport.closed out = true ∨ w.flushed out = true) :
    WatchShape (fun s' => seen s' ∨ s' = s) (dropPending w s) := by
  have hcalm := Calm.dropPending w s
  have hmem : ∀ s', s' ∈ (Adapters.dropPending w s).tracker.pending ↔
      s' ≠ s ∧ s' ∈ w.tracker.pending := fun s' => mem_dropPending h.nodup
  refine ⟨?_, h.watch.unwatch s, fun s' hs' => ?_, fun s' hs' hseen => ?_,
    fun s' hs' hseen out hout => ?_⟩
  · show ((w.unwatch s).tracker.pending.erase s).Nodup
    rw [(unwatch_rest w s).1]
    exact h.nodup.erase s
  · rw [hcalm.connections]
    exact h.connections s' ((hmem s').mp hs').2
  · obtain ⟨hne, hold⟩ := (hmem s').mp hs'
    obtain ⟨out, hlast, hwatched⟩ := h.pending s' hold (hseen.resolve_right hne)
    refine ⟨out, hcalm.last ▸ hlast, ?_⟩
    show (w.unwatch s).tracker.watched s' = some out
    rw [unwatch_watched, Function.update_of_ne hne]
    exact hwatched
  · rw [hcalm.connections] at hs'
    rw [hcalm.last] at hout
    rw [hcalm.closed, hcalm.flushed]
    by_cases heq : s' = s
    · subst heq
      exact .inr (hover out hout)
    · exact (h.settled s' hs' (hseen.resolve_right heq) out hout).imp_left fun hold =>
        (hmem s').mpr ⟨heq, hold⟩

def listenTo (w : NodeServer) (s : SocketId) (out : ResponseId) : NodeServer :=
  let v := w.setListeners out (w.transport.listeners out ++ [.responseClosed])
  { v with tracker :=
    { v.tracker with
      pending := v.tracker.pending.insert s
      watched := Function.update v.tracker.watched s (some out)
      observed := Function.update v.tracker.observed out (some s) } }

theorem WatchShape.listenTo {seen : SocketId → Prop} (h : WatchShape seen w)
    (hs : s ∈ w.tracker.connections) (hlast : w.tracker.last s = some out)
    (hsocket : w.transport.socket out = s) (hout : out ∈ w.dispatched)
    (hfree : w.tracker.watched s = none) :
    WatchShape (fun s' => seen s' ∨ s' = s) (listenTo w s out) := by
  have hmem : ∀ s', s' ∈ (Adapters.listenTo w s out).tracker.pending ↔
      s' = s ∨ s' ∈ w.tracker.pending := fun s' => List.mem_insert_iff
  refine ⟨h.nodup.insert, fun s' out' hout' => ?_, fun s' hs' => ?_, fun s' hs' hseen => ?_,
    fun s' hs' hseen out' hout' => ?_⟩
  · change Function.update w.tracker.watched s (some out) s' = some out' at hout'
    show Function.update w.tracker.observed out (some s) out' = some s' ∧
      w.transport.socket out' = s' ∧ out' ∈ w.dispatched ∧
        (_ → .responseClosed ∈ Function.update w.transport.listeners out _ out')
    by_cases heq : s' = s
    · subst heq
      rw [Function.update_self, Option.some_inj] at hout'
      subst hout'
      rw [Function.update_self, Function.update_self]
      exact ⟨rfl, hsocket, hout, fun _ => List.mem_append_right _ List.mem_cons_self⟩
    · rw [Function.update_of_ne heq] at hout'
      obtain ⟨hobserved, hsocket', hrest⟩ := h.watch s' out' hout'
      have hne : out' ≠ out := by
        rintro rfl
        exact heq (hsocket'.symm.trans hsocket)
      rw [Function.update_of_ne hne, Function.update_of_ne hne]
      exact ⟨hobserved, hsocket', hrest⟩
  · rcases (hmem s').mp hs' with rfl | hold
    · exact hs
    · exact h.connections s' hold
  · show ∃ out', w.tracker.last s' = some out' ∧
      Function.update w.tracker.watched s (some out) s' = some out'
    by_cases heq : s' = s
    · subst heq
      exact ⟨out, hlast, Function.update_self ..⟩
    · rw [Function.update_of_ne heq]
      exact h.pending s' (((hmem s').mp hs').resolve_left heq) (hseen.resolve_right heq)
  · by_cases heq : s' = s
    · exact .inl ((hmem s').mpr (.inl heq))
    · exact (h.settled s' hs' (hseen.resolve_right heq) out' hout').imp_left fun hold =>
        (hmem s').mpr (.inr hold)

/-- A connection has at most one listener, on its last response. -/
theorem WatchShape.unwatch {seen : SocketId → Prop} (h : WatchShape seen w) :
    WatchShape (fun s' => seen s' ∧ s' ≠ s) (w.unwatch s) := by
  have hcalm := Calm.unwatch w s
  obtain ⟨hpending, -⟩ := unwatch_rest w s
  refine ⟨hpending ▸ h.nodup, h.watch.unwatch s, fun s' hs' => ?_, fun s' hs' hseen => ?_,
    fun s' hs' hseen out hout => ?_⟩
  · rw [hcalm.connections]
    exact h.connections s' (hpending ▸ hs')
  · obtain ⟨out, hlast, hwatched⟩ := h.pending s' (hpending ▸ hs') hseen.1
    refine ⟨out, hcalm.last ▸ hlast, ?_⟩
    rw [unwatch_watched, Function.update_of_ne hseen.2]
    exact hwatched
  · rw [hcalm.connections] at hs'
    rw [hcalm.last] at hout
    rw [hpending, hcalm.closed, hcalm.flushed]
    exact h.settled s' hs' hseen.1 out hout

theorem WatchShape.watch_spec {seen : SocketId → Prop} (h : WatchShape seen w)
    (hs : s ∈ w.tracker.connections)
    (hlast : ∀ out, w.tracker.last s = some out →
      w.transport.socket out = s ∧ out ∈ w.dispatched) :
    WatchShape (fun s' => seen s' ∨ s' = s) (w.watch s) := by
  have hcalm := Calm.unwatch w s
  rw [NodeServer.watch, hcalm.last]
  cases hout : w.tracker.last s with
  | none =>
      refine h.dropPending fun out hsome => ?_
      cases hout.symm.trans hsome
  | some out =>
      dsimp only
      split
      · next hflushed =>
          refine h.dropPending fun out' hsome => ?_
          cases hout.symm.trans hsome
          rw [Bool.and_eq_true, hcalm.flushed] at hflushed
          exact .inr hflushed.1
      · obtain ⟨hsocket, hmem⟩ := hlast out hout
        have hunwatched := h.unwatch (s := s)
        have hlisten := hunwatched.listenTo (hcalm.connections ▸ hs)
          (hcalm.last ▸ hout) (hcalm.socket ▸ hsocket) (hcalm.dispatched ▸ hmem)
          (by rw [unwatch_watched, Function.update_self])
        refine { hlisten with
          pending := fun s' hs' hseen => hlisten.pending s' hs' ?_
          settled := fun s' hs' hseen => hlisten.settled s' hs' ?_ }
        all_goals
          by_cases heq : s' = s
          · exact .inr heq
          · exact .inl ⟨hseen.resolve_right heq, heq⟩

theorem WatchShape.watches {seen : SocketId → Prop} (h : WatchShape seen w)
    (ss : List SocketId) (hss : ∀ s ∈ ss, s ∈ w.tracker.connections)
    (hlast : ∀ s out, w.tracker.last s = some out →
      w.transport.socket out = s ∧ out ∈ w.dispatched) :
    WatchShape (fun s => seen s ∨ s ∈ ss) (ss.foldl NodeServer.watch w) := by
  induction ss generalizing w seen with
  | nil =>
      refine { h with
        pending := fun s hs hseen => h.pending s hs (hseen.resolve_right List.not_mem_nil)
        settled := fun s hs hseen => h.settled s hs (hseen.resolve_right List.not_mem_nil) }
  | cons s ss ih =>
      have hcalm := Calm.watch w s
      have hfirst := h.watch_spec (hss s List.mem_cons_self) (hlast s)
      have hrest := ih hfirst
        (fun s' hs' => hcalm.connections ▸ hss s' (List.mem_cons_of_mem _ hs'))
        (by rw [hcalm.last, hcalm.socket, hcalm.dispatched]; exact hlast)
      refine { hrest with
        pending := fun s' hs' hseen => hrest.pending s' hs' ?_
        settled := fun s' hs' hseen => hrest.settled s' hs' ?_ }
      all_goals
        rw [List.mem_cons] at hseen
        exact or_assoc.mpr hseen

theorem watch_rest (w : NodeServer) (s : SocketId) :
    (w.watch s).tracker.notify = w.tracker.notify ∧ (w.watch s).stop = w.stop ∧
      (w.watch s).transport.destroyed = w.transport.destroyed := by
  obtain ⟨-, hrest⟩ := unwatch_rest w s
  rw [NodeServer.watch]
  split
  · exact hrest
  · split
    · exact hrest
    · exact hrest

theorem watches_rest (w : NodeServer) (ss : List SocketId) :
    (ss.foldl NodeServer.watch w).tracker.notify = w.tracker.notify ∧
      (ss.foldl NodeServer.watch w).stop = w.stop ∧
      (ss.foldl NodeServer.watch w).transport.destroyed = w.transport.destroyed := by
  induction ss generalizing w with
  | nil => exact ⟨rfl, rfl, rfl⟩
  | cons s ss ih =>
      obtain ⟨hnotify, hstop, hdestroyed⟩ := watch_rest w s
      obtain ⟨hnotify', hstop', hdestroyed'⟩ := ih (w.watch s)
      exact ⟨hnotify'.trans hnotify, hstop'.trans hstop, hdestroyed'.trans hdestroyed⟩

/-! ### The invariant -/

def lastTracked (w : NodeServer) (s : SocketId) : Option ResponseId :=
  (w.dispatched.filter fun out =>
    w.connectionTracked out && decide (w.transport.socket out = s)).getLast?

structure ExchangeInv (tracked : Bool) (w : NodeServer) : Prop where
  wire : WireInv tracked w
  sockets : ∀ s ∈ w.tracker.connections,
    w.transport.connected s = true ∧ w.transport.gone s = false
  gone : ∀ s, w.transport.gone s = true → w.transport.connected s = true
  arrived : ∀ out ∈ w.dispatched, w.transport.connected (w.transport.socket out) = true
  last : ∀ s out, w.tracker.last s = some out →
    w.transport.socket out = s ∧ out ∈ w.dispatched
  latest : ∀ s ∈ w.tracker.connections, w.tracker.last s = lastTracked w s
  finished : ∀ out, w.transport.writableFinished out = true → w.transport.writableEnded out = true
  fresh : ∀ out, out ∉ w.dispatched → w.transport.writableEnded out = false
  free : tracked = false → ∀ out, w.connectionTracked out = false

structure StopInv (tracked : Bool) (w : NodeServer) : Prop where
  exchanges : ExchangeInv tracked w
  drain : DrainBooks tracked w

theorem stopInv_createNodeServer (tracked : Bool) : StopInv tracked createNodeServer where
  exchanges := by
    refine ⟨wireInv_createNodeServer tracked, ?_, ?_, ?_, ?_, ?_, ?_, fun _ _ => rfl,
      fun _ _ => rfl⟩
    · intro s hs
      cases hs
    · intro s hs
      cases hs
    · intro out hout
      cases hout
    · intro s out hout
      cases hout
    · intro s hs
      cases hs
    · intro out hout
      cases hout
  drain := by
    refine
      ⟨⟨?_, fun _ => rfl, ?_, ?_, List.nodup_nil, ?_, ?_, ?_, fun _ => rfl, List.nodup_nil⟩, ?_⟩
    · refine iff_of_false Bool.false_ne_true ?_
      rintro ⟨-, run, hrun, -⟩
      cases hrun
    · intro run hrun
      cases hrun
    · intro run hrun
      cases hrun
    · intro s out hout
      cases hout
    · intro s hs
      cases hs
    · intro hon
      cases hon
    · intro run hrun
      cases hrun

/-- A step of the drain alone keeps what is known of the exchanges. -/
theorem ExchangeInv.calm (h : ExchangeInv tracked w) (hcalm : Calm w w') :
    ExchangeInv tracked w' where
  wire := h.wire.calm hcalm
  sockets := by
    rw [hcalm.connections, hcalm.connected, hcalm.gone]
    exact h.sockets
  gone := by
    rw [hcalm.connected, hcalm.gone]
    exact h.gone
  arrived := by
    rw [hcalm.dispatched, hcalm.connected, hcalm.socket]
    exact h.arrived
  last := by
    rw [hcalm.last, hcalm.socket, hcalm.dispatched]
    exact h.last
  latest s hs := by
    rw [hcalm.connections] at hs
    rw [hcalm.last, lastTracked, hcalm.dispatched, hcalm.connectionTracked, hcalm.socket]
    exact h.latest s hs
  finished := by
    rw [hcalm.finished, hcalm.ended]
    exact h.finished
  fresh := by
    rw [hcalm.dispatched, hcalm.ended]
    exact h.fresh
  free := by
    rw [hcalm.connectionTracked]
    exact h.free

/-- The callbacks of a `close` keep what is known of the exchanges. -/
theorem ExchangeInv.closes (h : ExchangeInv tracked w) {shut : NodeServer}
    {dones closeds torn torn' : List ResponseId} (hwire : WireInv tracked w')
    (hends : Ends shut w' dones closeds torn) (hdrains : Drains shut w' torn')
    (hconnected : shut.transport.connected = w.transport.connected)
    (hsocket : shut.transport.socket = w.transport.socket)
    (hended : shut.transport.writableEnded = w.transport.writableEnded)
    (hfinished : shut.transport.writableFinished = w.transport.writableFinished)
    (hdispatched : shut.dispatched = w.dispatched)
    (hfree : shut.connectionTracked = w.connectionTracked) (htracker : shut.tracker = w.tracker)
    (hgone : ∀ s, shut.transport.gone s = true → w.transport.connected s = true)
    (hopen : ∀ s ∈ w'.tracker.connections, shut.transport.gone s = false) :
    ExchangeInv tracked w' where
  wire := hwire
  sockets s hs := by
    rw [hends.connected, hconnected, hends.gone]
    exact ⟨(h.sockets s (htracker ▸ hdrains.connections s hs)).1, hopen s hs⟩
  gone s hs := by
    rw [hends.gone] at hs
    rw [hends.connected, hconnected]
    exact hgone s hs
  arrived out hout := by
    rw [hends.dispatched, hdispatched] at hout
    rw [hends.connected, hends.socket, hconnected, hsocket]
    exact h.arrived out hout
  last s out hout := by
    rw [hends.socket, hsocket, hends.dispatched, hdispatched]
    exact h.last s out (htracker ▸ hdrains.last s out hout)
  latest s hs := by
    rw [hdrains.kept s hs, htracker, lastTracked, hends.dispatched, hdispatched,
      hends.connectionTracked, hfree, hends.socket, hsocket]
    exact h.latest s (htracker ▸ hdrains.connections s hs)
  finished out hout := by
    rw [hends.finished, hfinished] at hout
    rw [hends.ended, hended]
    exact h.finished out hout
  fresh out hout := by
    rw [hends.dispatched, hdispatched] at hout
    rw [hends.ended, hended]
    exact h.fresh out hout
  free huntracked out := by
    rw [hends.connectionTracked, hfree]
    exact h.free huntracked out

/-! ### What a step does to a stop -/

/-- A stop resolves once, and without a time-out when everything is over. -/
structure StopStep (w w' : NodeServer) : Prop where
  kept : ∀ run timedOut, w.stop = some run → run.done = some timedOut →
    ∃ run', w'.stop = some run' ∧ run'.done = some timedOut
  settled : ∀ run', w'.stop = some run' → run'.done = some false →
    (∃ run, w.stop = some run ∧ run.done = some false) ∨ run'.appSettled = true ∧ Over w'

theorem StopMoves.stopStep (h : StopMoves w w') : StopStep w w' := by
  rcases h with ⟨hnone, hnone'⟩ | ⟨run, run', hrun, hrun', -, hmoves⟩
  · refine ⟨fun run timedOut hrun => ?_, fun run' hrun' => ?_⟩
    · cases hnone.symm.trans hrun
    · cases hnone'.symm.trans hrun'
  · refine ⟨fun run₁ timedOut hrun₁ hdone => ?_, fun run₁ hrun₁ hdone => ?_⟩
    · cases hrun.symm.trans hrun₁
      refine ⟨run', hrun', ?_⟩
      rcases hmoves with hsame | ⟨hnone, -⟩
      · exact hsame.trans hdone
      · cases hnone.symm.trans hdone
    · cases hrun'.symm.trans hrun₁
      rcases hmoves with hsame | ⟨-, -, hset, hover⟩
      · exact .inl ⟨run, hrun, hsame.symm.trans hdone⟩
      · exact .inr ⟨hset, hover⟩

/-- What destroys a socket other than a drain that finds it idle. -/
def Teardown (w : NodeServer) (e : NodeEvent) (w' : NodeServer) (s : SocketId) : Prop :=
  e = .destroySocket s ∨ e = .closeSocket s ∨
    (∃ out, e = .closeResponse out ∧ .abandoned ∈ w.transport.listeners out ∧
      w.transport.socket out = s) ∨
    ∃ run, w'.stop = some run ∧ run.done = some true

structure Stepped (tracked : Bool) (w : NodeServer) (e : NodeEvent) (w' : NodeServer) : Prop where
  inv : StopInv tracked w'
  stop : StopStep w w'
  destroyed : ∀ s, w'.transport.destroyed s = true →
    w.transport.destroyed s = true ∨ Teardown w e w' s ∨ Idle w' s

/-- A step that leaves the stop and the sockets as they are. -/
theorem Stepped.quiet {e : NodeEvent} (hinv : StopInv tracked w') (hstop : w'.stop = w.stop)
    (hdestroyed : w'.transport.destroyed = w.transport.destroyed) : Stepped tracked w e w' :=
  ⟨hinv, (StopMoves.of_stop hstop).stopStep, fun _ hs => .inl (hdestroyed ▸ hs)⟩

/-! ### Connections and requests -/

theorem ExchangeInv.unused (h : ExchangeInv tracked w) (hs : w.transport.connected s = false) :
    w.transport.gone s = false ∧ s ∉ w.tracker.connections ∧ w.tracker.last s = none ∧
      lastTracked w s = none := by
  have hnone : ∀ out ∈ w.dispatched, w.transport.socket out ≠ s := by
    rintro out hout rfl
    exact Bool.false_ne_true (hs.symm.trans (h.arrived out hout))
  refine ⟨?_, fun hmem => ?_, ?_, ?_⟩
  · rw [← Bool.not_eq_true]
    exact fun hgone => Bool.false_ne_true (hs.symm.trans (h.gone s hgone))
  · exact Bool.false_ne_true (hs.symm.trans (h.sockets s hmem).1)
  · by_contra hsome
    obtain ⟨out, hout⟩ := Option.ne_none_iff_exists'.mp hsome
    obtain ⟨hsocket, hmem⟩ := h.last s out hout
    exact hnone out hmem hsocket
  · rw [lastTracked, List.getLast?_eq_none_iff, List.filter_eq_nil_iff]
    intro out hout
    rw [decide_eq_false (hnone out hout), Bool.and_false]
    exact Bool.false_ne_true

theorem StopInv.connect (h : StopInv tracked w) (hs : w.transport.connected s = false) :
    StopInv tracked (w.connect tracked s) := by
  have hwire := h.exchanges.wire.connect s
  obtain ⟨hgone, hnot, hlast, hlatest⟩ := h.exchanges.unused hs
  have hconnected : ∀ s', w.transport.connected s' = true →
      Function.update w.transport.connected s true s' = true := by
    intro s' hs'
    by_cases heq : s' = s
    · rw [heq, Function.update_self]
    · rwa [Function.update_of_ne heq]
  rw [NodeServer.connect] at hwire ⊢
  cases tracked with
  | false =>
      refine ⟨{ h.exchanges with
        wire := hwire
        sockets := fun s' hs' => ?_
        gone := fun s' hs' => hconnected s' (h.exchanges.gone s' hs')
        arrived := fun out hout => hconnected _ (h.exchanges.arrived out hout) },
        { h.drain with }⟩
      have hnil : w.tracker.connections = [] := h.drain.untracked rfl
      change s' ∈ w.tracker.connections at hs'
      rw [hnil] at hs'
      cases hs'
  | true =>
      refine ⟨{ h.exchanges with
        wire := hwire
        sockets := fun s' hs' => ?_
        gone := fun s' hs' => hconnected s' (h.exchanges.gone s' hs')
        arrived := fun out hout => hconnected _ (h.exchanges.arrived out hout)
        latest := fun s' hs' => ?_ }, { h.drain with
        pending := fun s' hs' => ?_
        settled := fun hon s' hs' out hout => ?_
        untracked := fun hnot => ?_
        distinct := ?_ }⟩
      · rcases List.mem_append.mp hs' with hold | hnew
        · exact ⟨hconnected s' (h.exchanges.sockets s' hold).1, (h.exchanges.sockets s' hold).2⟩
        · rw [List.mem_singleton.mp hnew]
          exact ⟨Function.update_self .., hgone⟩
      · rcases List.mem_append.mp hs' with hold | hnew
        · exact h.exchanges.latest s' hold
        · rw [List.mem_singleton.mp hnew]
          exact hlast.trans hlatest.symm
      · exact (h.drain.pending s' hs').imp_left (List.mem_append_left _)
      · rcases List.mem_append.mp hs' with hold | hnew
        · exact h.drain.settled hon s' hold out hout
        · rw [List.mem_singleton.mp hnew] at hout
          cases hlast.symm.trans hout
      · cases hnot
      · refine List.nodup_append.mpr ⟨h.drain.distinct, List.nodup_singleton s,
          fun a ha b hb => ?_⟩
        rw [List.mem_singleton] at hb
        rintro rfl
        exact hnot (hb ▸ ha)

theorem lastTracked_arrive (hout : out ∉ w.dispatched) (connectionTracked valid : Bool)
    (s' : SocketId) : lastTracked (w.arrive out s connectionTracked valid) s' =
      if connectionTracked = true ∧ s' = s then some out else lastTracked w s' := by
  have hold : w.dispatched.filter (fun other =>
      Function.update w.connectionTracked out connectionTracked other &&
        decide (Function.update w.transport.socket out s other = s')) =
      w.dispatched.filter fun other =>
        w.connectionTracked other && decide (w.transport.socket other = s') := by
    refine List.filter_congr fun other hother => ?_
    have hne : other ≠ out := by
      rintro rfl
      exact hout hother
    rw [Function.update_of_ne hne, Function.update_of_ne hne]
  show ((w.dispatched ++ [out]).filter fun other =>
    Function.update w.connectionTracked out connectionTracked other &&
      decide (Function.update w.transport.socket out s other = s')).getLast? = _
  rw [List.filter_append, hold, List.filter_singleton, Function.update_self, Function.update_self]
  by_cases hnew : connectionTracked = true ∧ s' = s
  · obtain ⟨rfl, rfl⟩ := hnew
    simp
  · have hoff : (connectionTracked && decide (s = s')) = false := by
      rw [← Bool.not_eq_true, Bool.and_eq_true, decide_eq_true_eq]
      exact fun hboth => hnew ⟨hboth.1, hboth.2.symm⟩
    rw [hoff, if_neg hnew, lastTracked]
    simp

/-- What is known of the exchanges but for the last one of the socket that a
new one arrives on. -/
theorem ExchangeInv.arrive (h : ExchangeInv tracked w) (hout : out ∉ w.dispatched)
    (hs : w.transport.connected s = true) (bound : Bool) :
    (∀ other ∈ w.dispatched ++ [out],
      w.transport.connected (Function.update w.transport.socket out s other) = true) ∧
      (∀ s' other, w.tracker.last s' = some other →
        Function.update w.transport.socket out s other = s' ∧ other ∈ w.dispatched ++ [out]) ∧
      (∀ other, other ∉ w.dispatched ++ [out] → w.transport.writableEnded other = false) ∧
      (tracked = false →
        ∀ other, Function.update w.connectionTracked out (tracked && bound) other = false) := by
  have hmem : ∀ other, other ∈ w.dispatched ++ [out] ↔ other = out ∨ other ∈ w.dispatched := by
    intro other
    rw [List.mem_append, List.mem_singleton, or_comm]
  refine ⟨fun other hother => ?_, fun s' other hother => ?_, fun other hother => ?_,
    fun huntracked other => ?_⟩
  · by_cases heq : other = out
    · rwa [heq, Function.update_self]
    · rw [Function.update_of_ne heq]
      exact h.arrived other (((hmem other).mp hother).resolve_left heq)
  · obtain ⟨hsocket, hold⟩ := h.last s' other hother
    have hne : other ≠ out := by
      rintro rfl
      exact hout hold
    rw [Function.update_of_ne hne]
    exact ⟨hsocket, (hmem other).mpr (.inr hold)⟩
  · rw [hmem, not_or] at hother
    exact h.fresh other hother.2
  · by_cases heq : other = out
    · rw [heq, Function.update_self, huntracked, Bool.false_and]
    · rw [Function.update_of_ne heq]
      exact h.free huntracked other

theorem WatchBooks.arrive (h : WatchBooks w) (hout : out ∉ w.dispatched)
    (connectionTracked valid : Bool) :
    WatchBooks (w.arrive out s connectionTracked valid) := by
  intro s' other hother
  obtain ⟨hobserved, hsocket, hmem, hlistens⟩ := h s' other hother
  have hne : other ≠ out := by
    rintro rfl
    exact hout hmem
  refine ⟨hobserved, ?_, List.mem_append_left _ hmem, hlistens⟩
  show Function.update w.transport.socket out s other = s'
  rwa [Function.update_of_ne hne]

def noteLast (w : NodeServer) (out : ResponseId) (s : SocketId) : NodeServer :=
  { w with tracker := { w.tracker with last := Function.update w.tracker.last s (some out) } }

theorem ExchangeInv.noteLast (h : ExchangeInv true w) (hout : out ∉ w.dispatched)
    (hconnected : w.transport.connected s = true) (valid : Bool) :
    ExchangeInv true (noteLast (w.arrive out s true valid) out s) := by
  obtain ⟨harrived, hlast, hfresh, hfree⟩ := h.arrive hout hconnected true
  have hwire := (h.wire.arrive (s := s) hout true valid).wireInv h.wire (Function.update_self ..)
  have hmem : out ∈ w.dispatched ++ [out] := List.mem_append_right _ List.mem_cons_self
  refine { h with
    wire := { hwire with books := { hwire.books with } }
    arrived := harrived, last := fun s' other hother => ?_, latest := fun s' hs' => ?_,
    fresh := hfresh, free := hfree }
  · change Function.update w.tracker.last s (some out) s' = some other at hother
    show Function.update w.transport.socket out s other = s' ∧ other ∈ w.dispatched ++ [out]
    by_cases heq : s' = s
    · rw [heq, Function.update_self, Option.some_inj] at hother
      rw [← hother, heq, Function.update_self]
      exact ⟨rfl, hmem⟩
    · rw [Function.update_of_ne heq] at hother
      exact hlast s' other hother
  · refine Eq.trans ?_ (lastTracked_arrive hout true valid s').symm
    show Function.update w.tracker.last s (some out) s' = _
    by_cases heq : s' = s
    · rw [heq, Function.update_self, if_pos ⟨rfl, rfl⟩]
    · rw [Function.update_of_ne heq, if_neg fun hnot => heq hnot.2]
      exact h.latest s' hs'

theorem DrainBooks.noteLast (h : DrainBooks true w) (hout : out ∉ w.dispatched) (valid : Bool)
    (hon : w.tracker.notify = true) :
    WatchShape (· ≠ s) (noteLast (w.arrive out s true valid) out s) := by
  refine ⟨h.nodup, h.watch.arrive hout true valid, fun s' hs' => (h.pending s' hs').1,
    fun s' hs' hne => ?_, fun s' hs' hne other hother => ?_⟩
  · obtain ⟨-, hpending⟩ := h.pending s' hs'
    show ∃ other, Function.update w.tracker.last s (some out) s' = some other ∧ _
    rw [Function.update_of_ne hne]
    exact hpending
  · change Function.update w.tracker.last s (some out) s' = some other at hother
    rw [Function.update_of_ne hne] at hother
    exact h.settled hon s' hs' other hother

theorem StopInv.track (h : StopInv true w) (hout : out ∉ w.dispatched)
    (hconnected : w.transport.connected s = true) (hopen : w.transport.gone s = false)
    (valid : Bool) :
    StopInv true ((w.arrive out s true valid).track out s) ∧
      ((w.arrive out s true valid).track out s).stop = w.stop ∧
      ((w.arrive out s true valid).track out s).transport.destroyed = w.transport.destroyed := by
  have hs : s ∈ w.tracker.connections := h.exchanges.wire.connections rfl s hconnected hopen
  have hnoted := h.exchanges.noteLast hout hconnected valid
  have htrack : (w.arrive out s true valid).track out s =
      if w.tracker.notify then (noteLast (w.arrive out s true valid) out s).watch s
      else noteLast (w.arrive out s true valid) out s := by
    rw [NodeServer.track]
    exact if_pos hs
  rw [htrack]
  cases hon : w.tracker.notify with
  | false =>
      -- Nobody is notified yet: the connection is looked at when the stop asks for it.
      have hnil := h.drain.quiet hon
      refine ⟨⟨hnoted, { h.drain with
        watch := h.drain.watch.arrive hout true valid
        pending := fun s' hs' => ?_
        settled := fun hnot => ?_ }⟩, rfl, rfl⟩
      · change s' ∈ w.tracker.pending at hs'
        rw [hnil] at hs'
        cases hs'
      · cases hon.symm.trans hnot
  | true =>
      rw [if_pos rfl]
      have hcalm := Calm.watch (noteLast (w.arrive out s true valid) out s) s
      obtain ⟨hnotify, hstop, hdestroyed⟩ :=
        watch_rest (noteLast (w.arrive out s true valid) out s) s
      have hshape := (h.drain.noteLast (s := s) hout valid hon).watch_spec hs
        (hnoted.last s)
      have hseen : ∀ s', s' ≠ s ∨ s' = s := fun s' => (eq_or_ne s' s).symm
      have hlast : ((noteLast (w.arrive out s true valid) out s).watch s).tracker.last s =
          some out := by
        rw [hcalm.last]
        exact Function.update_self ..
      -- The new response is not flushed, so the connection is pending again.
      have hpending : s ∈
          ((noteLast (w.arrive out s true valid) out s).watch s).tracker.pending := by
        have hpart := hshape.settled s (hcalm.connections ▸ hs) (.inr rfl) out hlast
        refine hpart.resolve_right ?_
        rw [hcalm.closed, hcalm.flushed]
        rintro (hclosed | hflushed)
        · exact Bool.false_ne_true ((h.exchanges.wire.fresh out hout).1.symm.trans hclosed)
        · rw [NodeServer.flushed, Bool.and_eq_true] at hflushed
          have hended := h.exchanges.finished out hflushed.1
          exact Bool.false_ne_true ((h.exchanges.fresh out hout).symm.trans hended)
      refine ⟨⟨hnoted.calm hcalm, ⟨⟨?_, fun hoff => ?_, fun run hrun => ?_, fun run hrun => ?_,
        hshape.nodup, hshape.watch, fun s' hs' => ⟨hshape.connections s' hs', ?_⟩,
        fun _ s' hs' => hshape.settled s' hs' (hseen s'), fun hnot => ?_, ?_⟩,
        fun run hrun hnone hall => ?_⟩⟩, hstop, hdestroyed⟩
      · rw [hnotify, hstop]
        exact h.drain.notify
      · cases (hnotify.trans hon).symm.trans hoff
      · exact h.drain.waiting run (hstop ▸ hrun)
      · exact h.drain.timer run (hstop ▸ hrun)
      · exact hshape.pending s' hs' (hseen s')
      · cases hnot
      · rw [hcalm.connections]
        exact h.drain.distinct
      · rw [hall.2.1] at hpending
        cases hpending

theorem StopInv.request (h : StopInv tracked w) (hout : out ∉ w.dispatched)
    (hconnected : w.transport.connected s = true) (hopen : w.transport.gone s = false)
    (bound valid : Bool) :
    StopInv tracked (w.dispatch tracked out s bound valid) ∧
      (w.dispatch tracked out s bound valid).stop = w.stop ∧
      (w.dispatch tracked out s bound valid).transport.destroyed = w.transport.destroyed := by
  have hwire := h.exchanges.wire.dispatch hout hconnected hopen bound valid
  obtain ⟨harrived, hlast, hfresh, hfree⟩ := h.exchanges.arrive hout hconnected bound
  rw [NodeServer.dispatch] at hwire ⊢
  cases hbound : tracked && bound with
  | true =>
      rw [Bool.and_eq_true] at hbound
      obtain ⟨rfl, -⟩ := hbound
      exact h.track hout hconnected hopen valid
  | false =>
      rw [hbound] at hwire hfree
      rw [if_neg Bool.false_ne_true] at hwire ⊢
      refine ⟨⟨{ h.exchanges with
        wire := hwire, arrived := harrived, last := hlast, fresh := hfresh, free := hfree
        latest := fun s' hs' => ?_ }, { h.drain with
        watch := fun s' other hother => ?_
        awake := fun run hrun hnone hall => ?_ }⟩, rfl, rfl⟩
      · refine (h.exchanges.latest s' hs').trans ?_
        refine Eq.trans ?_ (lastTracked_arrive (s := s) hout false valid s').symm
        rw [if_neg fun hnot => Bool.false_ne_true hnot.1]
      · obtain ⟨hobserved, hsocket, hmem, hlistens⟩ :=
          h.drain.watch.arrive (s := s) hout false valid s' other hother
        refine ⟨hobserved, hsocket, hmem, fun hclosed => ?_⟩
        show .responseClosed ∈ Function.update w.transport.listeners out _ other
        by_cases heq : other = out
        · subst heq
          rw [Function.update_self]
          exact List.mem_append_left _ (hlistens hclosed)
        · rw [Function.update_of_ne heq]
          exact hlistens hclosed
      · have hzero : w.wire.wireInFlight + 1 = 0 := hall.1
        rw [h.exchanges.wire.books.count] at hzero
        omega

/-! ### Signals and answers -/

theorem WatchBooks.listen (h : WatchBooks w) (out : ResponseId) (listener : CloseListener) :
    WatchBooks (w.setListeners out (w.transport.listeners out ++ [listener])) := by
  intro s other hother
  obtain ⟨hobserved, hsocket, hmem, hlistens⟩ := h s other hother
  refine ⟨hobserved, hsocket, hmem, fun hopen => ?_⟩
  show .responseClosed ∈ Function.update w.transport.listeners out _ other
  by_cases heq : other = out
  · subst heq
    rw [Function.update_self]
    exact List.mem_append_left _ (hlistens hopen)
  · rw [Function.update_of_ne heq]
    exact hlistens hopen

theorem StopInv.clientAbort (h : StopInv tracked w) (hout : out ∈ w.dispatched) :
    Stepped tracked w (.clientAbort out) (w.clientAbort out) := by
  have hwire := h.exchanges.wire.clientAbort hout
  rw [NodeServer.clientAbort] at hwire ⊢
  dsimp only at hwire ⊢
  split at hwire
  · next hover =>
      rw [if_pos hover]
      exact .quiet ⟨{ h.exchanges with wire := hwire }, { h.drain with }⟩ rfl rfl
  · next hover =>
      rw [if_neg hover]
      split at hwire
      · next hshut =>
          rw [if_pos hshut]
          exact .quiet ⟨{ h.exchanges with wire := hwire }, { h.drain with }⟩ rfl rfl
      · next hopen =>
          rw [if_neg hopen]
          exact .quiet ⟨{ h.exchanges with wire := hwire },
            { h.drain with watch := h.drain.watch.listen out .closed }⟩ rfl rfl

theorem StopInv.abandon (h : StopInv tracked w) (hended : w.transport.writableEnded out = false) :
    Stepped tracked w (.abandon out) (w.abandon out) := by
  refine .quiet ⟨{ h.exchanges with wire := h.exchanges.wire.abandon out }, { h.drain with
    watch := h.drain.watch.listen out .abandoned
    settled := fun hon s hs other hother => ?_ }⟩ rfl rfl
  refine (h.drain.settled hon s hs other hother).imp_right (Or.imp_right fun hflushed => ?_)
  rw [NodeServer.flushed, Bool.and_eq_true] at hflushed ⊢
  refine ⟨hflushed.1, ?_⟩
  show (!Function.update w.tracker.heldCloses out true other) = true
  by_cases heq : other = out
  · subst heq
    have hnot := h.exchanges.finished other hflushed.1
    cases hended.symm.trans hnot
  · rw [Function.update_of_ne heq]
    exact hflushed.2

theorem StopInv.endResponse (h : StopInv tracked w) (hout : out ∈ w.dispatched) :
    Stepped tracked w (.endResponse out) { w with transport :=
      { w.transport with
        writableEnded := Function.update w.transport.writableEnded out true } } := by
  refine .quiet ⟨{ h.exchanges with
    wire := h.exchanges.wire.endResponse out
    finished := fun other hother => ?_
    fresh := fun other hother => ?_ }, { h.drain with }⟩ rfl rfl
  · show Function.update w.transport.writableEnded out true other = true
    by_cases heq : other = out
    · rw [heq, Function.update_self]
    · rw [Function.update_of_ne heq]
      exact h.exchanges.finished other hother
  · have hne : other ≠ out := by
      rintro rfl
      exact hother hout
    show Function.update w.transport.writableEnded out true other = false
    rw [Function.update_of_ne hne]
    exact h.exchanges.fresh other hother

theorem StopInv.finishResponse (h : StopInv tracked w)
    (hended : w.transport.writableEnded out = true) :
    Stepped tracked w (.finishResponse out) { w with transport :=
      { w.transport with
        writableFinished := Function.update w.transport.writableFinished out true } } := by
  have hwire := h.exchanges.wire
  refine .quiet ⟨{ h.exchanges with
    wire := { hwire with books := { hwire.books with } }
    finished := fun other hother => ?_ }, { h.drain with
    settled := fun hon s hs other hother => ?_ }⟩ rfl rfl
  · change Function.update w.transport.writableFinished out true other = true at hother
    by_cases heq : other = out
    · exact heq ▸ hended
    · rw [Function.update_of_ne heq] at hother
      exact h.exchanges.finished other hother
  · refine (h.drain.settled hon s hs other hother).imp_right (Or.imp_right fun hflushed => ?_)
    rw [NodeServer.flushed, Bool.and_eq_true] at hflushed ⊢
    refine ⟨?_, hflushed.2⟩
    show Function.update w.transport.writableFinished out true other = true
    by_cases heq : other = out
    · rw [heq, Function.update_self]
    · rw [Function.update_of_ne heq]
      exact hflushed.1

/-! ### The closes -/

theorem StopInv.closeResponse (h : StopInv tracked w) (hout : out ∈ w.dispatched) :
    Stepped tracked w (.closeResponse out) (w.closeResponse tracked out) := by
  obtain ⟨hends, -⟩ := closeResponse_spec h.exchanges.wire out
  have hwire := h.exchanges.wire.closeResponse hout
  have hclosed : ∀ other, w.transport.closed other = true →
      (shutResponse w out).transport.closed other = true := by
    intro other hother
    show Function.update w.transport.closed out true other = true
    by_cases heq : other = out
    · rw [heq, Function.update_self]
    · rwa [Function.update_of_ne heq]
  have hshut : DrainBooks tracked (shutResponse w out) := by
    refine { h.drain with
      watch := fun s other hother => ?_
      settled := fun hon s hs other hother => ?_ }
    · obtain ⟨hobserved, hsocket, hmem, hlistens⟩ := h.drain.watch s other hother
      refine ⟨hobserved, hsocket, hmem, fun hopen => ?_⟩
      change Function.update w.transport.closed out true other = false at hopen
      show .responseClosed ∈ Function.update w.transport.listeners out [] other
      by_cases heq : other = out
      · subst heq
        rw [Function.update_self] at hopen
        cases hopen
      · rw [Function.update_of_ne heq] at hopen ⊢
        exact hlistens hopen
    · exact (h.drain.settled hon s hs other hother).imp_right (Or.imp_left (hclosed other))
  have hbooks : WireBooks tracked (shutResponse w out) := { h.exchanges.wire.books with }
  have hfold : DrainBooks tracked (w.closeResponse tracked out) ∧
      Drains (shutResponse w out) (w.closeResponse tracked out)
        ((w.transport.listeners out).flatMap (CloseListener.torn out)) :=
    drains_foldl (Q := fun w => w.transport.closed out = true)
      (fun hd hq => by rw [hd.closed]; exact hq)
      (fun w listener hb hd hq => ⟨(runListener_spec hb out listener).1,
        runListener_drain hb hd hq listener⟩)
      hbooks hshut (Function.update_self ..) (w.transport.listeners out)
  obtain ⟨hdrain, hdrains⟩ := hfold
  have hinv : ExchangeInv tracked (w.closeResponse tracked out) :=
    h.exchanges.closes hwire hends hdrains rfl rfl rfl rfl rfl rfl rfl h.exchanges.gone
      fun s hs => (h.exchanges.sockets s (hdrains.connections s hs)).2
  have hmoves : StopMoves w (w.closeResponse tracked out) := hdrains.stop
  refine ⟨⟨hinv, hdrain⟩, hmoves.stopStep, fun s hs => ?_⟩
  refine (hdrains.destroyed s hs).imp_right (Or.imp_left ?_)
  rintro ⟨other, hmem, hsocket⟩
  obtain ⟨rfl, habandoned⟩ := CloseListener.mem_torn.mp hmem
  exact .inr (.inr (.inl ⟨other, rfl, habandoned, hsocket⟩))

/-- The subscribers of one listener of a socket. -/
theorem members_drain (hbooks : WireBooks tracked w) (h : DrainBooks tracked w)
    (members : List Subscriber) :
    WireBooks tracked (members.foldl (fun w onDone => w.runSubscriber tracked onDone) w) ∧
      DrainBooks tracked (members.foldl (fun w onDone => w.runSubscriber tracked onDone) w) ∧
      Drains w (members.foldl (fun w onDone => w.runSubscriber tracked onDone) w) [] := by
  obtain ⟨hafter, -⟩ := ends_foldl (fun w onDone hw => runSubscriber_spec hw onDone) hbooks members
  have hfold : DrainBooks tracked
        (members.foldl (fun w onDone => w.runSubscriber tracked onDone) w) ∧
      Drains w (members.foldl (fun w onDone => w.runSubscriber tracked onDone) w)
        (members.flatMap fun _ => []) :=
    drains_foldl (Q := fun _ => True) (fun _ _ => trivial)
      (fun w onDone hb hd _ =>
        ⟨(runSubscriber_spec hb onDone).1, runSubscriber_drain hb hd onDone⟩)
      hbooks h trivial members
  have hnone : members.flatMap (fun _ => ([] : List ResponseId)) = [] := by simp
  rw [hnone] at hfold
  exact ⟨hafter, hfold⟩

/-- The listeners of a socket. -/
theorem handlers_drain (hbooks : WireBooks tracked w) (h : DrainBooks tracked w)
    (entries : List ℕ) :
    DrainBooks tracked (entries.foldl (fun w entry => (w.wire.socketCloses.members entry).foldl
      (fun w onDone => w.runSubscriber tracked onDone) w) w) ∧
    Drains w (entries.foldl (fun w entry => (w.wire.socketCloses.members entry).foldl
      (fun w onDone => w.runSubscriber tracked onDone) w) w) [] := by
  induction entries generalizing w with
  | nil => exact ⟨h, .refl w⟩
  | cons entry entries ih =>
      obtain ⟨hafter, hdrain, hdrains⟩ :=
        members_drain hbooks h (w.wire.socketCloses.members entry)
      obtain ⟨hrest, hdrains'⟩ := ih hafter hdrain
      exact ⟨hrest, hdrains.trans hdrains'⟩

theorem StopInv.closeSocket (h : StopInv tracked w) (hs : w.transport.connected s = true) :
    Stepped tracked w (.closeSocket s) (w.closeSocket tracked s) := by
  obtain ⟨-, hends⟩ := closeSocket_spec h.exchanges.wire s
  have hwire := h.exchanges.wire.closeSocket s
  have hgone : ∀ s', (shutSocket w s).transport.gone s' = true ↔
      w.transport.gone s' = true ∨ s' = s := by
    intro s'
    show Function.update w.transport.gone s true s' = true ↔ _
    by_cases heq : s' = s
    · simp [heq]
    · simp [heq]
  have hshut : DrainBooks tracked (shutSocket w s) := { h.drain with }
  have hbooks : WireBooks tracked (shutSocket w s) := { h.exchanges.wire.books with }
  obtain ⟨mid, hmid, hbooks', hdrain', hdrains', hmissing⟩ : ∃ mid,
      mid = (if tracked then (shutSocket w s).connectionClosed s else shutSocket w s) ∧
        WireBooks tracked mid ∧ DrainBooks tracked mid ∧ Drains (shutSocket w s) mid [] ∧
        s ∉ mid.tracker.connections := by
    refine ⟨_, rfl, ?_⟩
    cases htr : tracked with
    | false =>
        rw [htr] at hbooks hshut
        refine ⟨hbooks, hshut, .refl _, ?_⟩
        have hnil : (shutSocket w s).tracker.connections = [] := hshut.untracked rfl
        rw [if_neg Bool.false_ne_true, hnil]
        exact List.not_mem_nil
    | true =>
        rw [htr] at hbooks hshut
        obtain ⟨hafter, -, -⟩ := connectionClosed_spec hbooks ((hgone s).mpr (.inr rfl))
        obtain ⟨hdrain, hdrains⟩ := connectionClosed_drain hbooks hshut s
        refine ⟨hafter, hdrain, hdrains, ?_⟩
        have hlast : Calm (forgetSocket ((shutSocket w s).unwatch s) s)
            ((shutSocket w s).connectionClosed s) := Calm.notifyDrain _
        rw [if_pos rfl, hlast.connections]
        show s ∉ ((shutSocket w s).unwatch s).tracker.connections.erase s
        rw [(Calm.unwatch (shutSocket w s) s).connections]
        exact hshut.distinct.not_mem_erase
  have hclose : w.closeSocket tracked s = (w.wire.socketCloses.attached s).foldl (fun w entry =>
      (w.wire.socketCloses.members entry).foldl (fun w onDone => w.runSubscriber tracked onDone) w)
        mid := by
    rw [hmid]
    rfl
  obtain ⟨hdrain, hrest⟩ := handlers_drain hbooks' hdrain' (w.wire.socketCloses.attached s)
  rw [← hclose] at hdrain hrest
  have hdrains := hdrains'.trans hrest
  have hinv := h.exchanges.closes hwire hends hdrains rfl rfl rfl rfl rfl rfl rfl
    (fun s' hs' => by
      rcases (hgone s').mp hs' with hold | rfl
      · exact h.exchanges.gone s' hold
      · exact hs)
    fun s' hs' => by
      rw [← Bool.not_eq_true, hgone, not_or, Bool.not_eq_true]
      refine ⟨(h.exchanges.sockets s' (hdrains.connections s' hs')).2, ?_⟩
      rintro rfl
      exact hmissing (hrest.connections s' hs')
  have hmoves : StopMoves w (w.closeSocket tracked s) := hdrains.stop
  refine ⟨⟨hinv, hdrain⟩, hmoves.stopStep, fun s' hs' => ?_⟩
  rcases hdrains.destroyed s' hs' with hold | ⟨out, hmem, -⟩ | hidle
  · change Function.update w.transport.destroyed s true s' = true at hold
    by_cases heq : s' = s
    · exact .inr (.inl (.inr (.inl (heq ▸ rfl))))
    · rw [Function.update_of_ne heq] at hold
      exact .inl hold
  · cases hmem
  · exact .inr (.inr hidle)

theorem StopInv.destroySocket (h : StopInv tracked w) (s : SocketId) :
    Stepped tracked w (.destroySocket s) (w.destroySocket s) := by
  have hmoves : StopMoves w (w.destroySocket s) := .of_stop rfl
  refine ⟨⟨h.exchanges.calm (Calm.destroySocket w s), { h.drain with }⟩, hmoves.stopStep,
    fun s' hs' => ?_⟩
  change Function.update w.transport.destroyed s true s' = true at hs'
  by_cases heq : s' = s
  · exact .inr (.inl (.inl (heq ▸ rfl)))
  · rw [Function.update_of_ne heq] at hs'
    exact .inl hs'

/-! ### The stop -/

theorem Idle.calm (h : Idle w s) (hcalm : Calm w w') : Idle w' s := by
  refine ⟨fun out hout => ?_, fun out hout => ?_⟩
  · rw [hcalm.wire] at hout
    rw [hcalm.socket]
    exact h.1 out hout
  · rw [hcalm.last] at hout
    rw [hcalm.flushed]
    exact h.2 out hout

/-- The tracker has looked at every connection. -/
theorem StopInv.startDrain (h : StopInv true w) (hstop : w.stop = none) :
    WatchShape (· ∈ w.tracker.connections) w.closeIdle.startDrain ∧
      w.closeIdle.startDrain.tracker.notify = true ∧ w.closeIdle.startDrain.stop = none ∧
      w.closeIdle.startDrain.transport.destroyed = w.closeIdle.transport.destroyed := by
  have hnil : w.tracker.pending = [] := by
    refine h.drain.quiet ?_
    rw [← Bool.not_eq_true, h.drain.notify]
    rintro ⟨-, run, hrun, -⟩
    cases hstop.symm.trans hrun
  have hnone : WatchShape (fun _ => False)
      { w.closeIdle with tracker := { w.closeIdle.tracker with notify := true } } := by
    refine ⟨h.drain.nodup, h.drain.watch, fun s hs => ?_, fun _ _ => False.elim,
      fun _ _ => False.elim⟩
    change s ∈ w.tracker.pending at hs
    rw [hnil] at hs
    cases hs
  have hall := hnone.watches w.tracker.connections (fun _ => id) h.exchanges.last
  obtain ⟨hnotify, hstop', hdestroyed⟩ := watches_rest
    { w.closeIdle with tracker := { w.closeIdle.tracker with notify := true } }
    w.tracker.connections
  exact ⟨{ hall with
    pending := fun s hs hseen => hall.pending s hs (.inr hseen)
    settled := fun s hs hseen => hall.settled s hs (.inr hseen) }, hnotify, hstop'.trans hstop,
    hdestroyed⟩

/-- The state in which a stop first looks whether it may settle. -/
theorem StopInv.stopping (h : StopInv tracked w) (hstop : w.stop = none) (finite settled : Bool) :
    ∃ v, Calm w v ∧ DrainShape tracked v ∧ v.stop = some ⟨none, finite, settled, true⟩ ∧
      w.stopGraceful tracked finite settled = v.trySettle tracked ∧
      ∀ s, v.transport.destroyed s = true → w.transport.destroyed s = true ∨ Idle v s := by
  have hrun : ∀ run, some (⟨none, finite, settled, true⟩ : StopRun) = some run →
      run.done = none ∧ run.waiting = true := by
    rintro run heq
    cases heq
    exact ⟨rfl, rfl⟩
  cases tracked with
  | false =>
      refine ⟨{ w with stop := some ⟨none, finite, settled, true⟩ }, Calm.setStop w _,
        { h.drain with
          notify := ?_
          waiting := fun run heq => iff_of_true (hrun run heq).2 (hrun run heq).1
          timer := fun run heq _ => (hrun run heq).1 }, rfl, rfl, fun s => .inl⟩
      refine iff_of_false ?_ fun hnot => Bool.false_ne_true hnot.1
      exact fun hon => Bool.false_ne_true (h.drain.notify.mp hon).1
  | true =>
      obtain ⟨hshape, hnotify, -, hdestroyed⟩ := h.startDrain hstop
      have hcalm : Calm w w.closeIdle.startDrain :=
        (Calm.closeIdle w).trans (Calm.startDrain w.closeIdle)
      have hcalm' := hcalm.trans
        (Calm.setStop w.closeIdle.startDrain (some ⟨none, finite, settled, true⟩))
      have hseen : ∀ s ∈ w.closeIdle.startDrain.tracker.connections,
          s ∈ w.tracker.connections := fun s hs => hcalm.connections ▸ hs
      refine ⟨_, hcalm', ⟨iff_of_true hnotify ⟨rfl, _, rfl, rfl⟩, fun hoff => ?_,
        fun run heq => iff_of_true (hrun run heq).2 (hrun run heq).1,
        fun run heq _ => (hrun run heq).1, hshape.nodup, hshape.watch,
        fun s hs => ⟨hshape.connections s hs, ?_⟩, fun _ s hs => ?_, fun hnot => ?_, ?_⟩,
        rfl, rfl, fun s hs => ?_⟩
      · cases hnotify.symm.trans hoff
      · exact hshape.pending s hs (hseen s (hshape.connections s hs))
      · exact hshape.settled s hs (hseen s hs)
      · cases hnot
      · rw [hcalm'.connections]
        exact h.drain.distinct
      · change w.closeIdle.startDrain.transport.destroyed s = true at hs
        rw [hdestroyed, NodeServer.closeIdle, Bool.or_eq_true, Bool.and_eq_true] at hs
        exact hs.imp_right fun hidle =>
          (idle_of_closeIdle h.exchanges.wire.books hidle.2).calm hcalm'

theorem StopInv.stopGraceful (h : StopInv tracked w) (hstop : w.stop = none)
    (finite settled : Bool) :
    Stepped tracked w (.stopGraceful finite settled) (w.stopGraceful tracked finite settled) := by
  obtain ⟨v, hcalm, hshape, hrun, heq, hdestroyed⟩ := h.stopping hstop finite settled
  obtain ⟨hdrain, hdrains⟩ := trySettle_spec (h.exchanges.wire.books.calm hcalm) hshape
  rw [heq]
  refine ⟨⟨(h.exchanges.calm hcalm).calm (Calm.trySettle v tracked), hdrain⟩,
    ⟨fun run timedOut hsome => ?_, fun run' hrun' hdone => ?_⟩, fun s hs => ?_⟩
  · cases hstop.symm.trans hsome
  · refine (hdrains.stop.stopStep.settled run' hrun' hdone).imp_left ?_
    rintro ⟨run, hsome, hnot⟩
    cases hrun.symm.trans hsome
    cases hnot
  · rcases hdrains.destroyed s hs with hold | ⟨out, hmem, -⟩ | hidle
    · exact (hdestroyed s hold).imp_right fun hidle => .inr (hdrains.idle hidle)
    · cases hmem
    · exact .inr (.inr hidle)

theorem StopInv.appSettled (h : StopInv tracked w) {run : StopRun} (hrun : w.stop = some run) :
    Stepped tracked w .appSettled
      ({ w with stop := some { run with appSettled := true } }.trySettle tracked) := by
  have hcalm := Calm.setStop w (some { run with appSettled := true })
  have hsame : ∀ run', some { run with appSettled := true } = some run' →
      run'.done = run.done ∧ run'.waiting = run.waiting ∧ run'.timer = run.timer := by
    rintro run' heq
    cases heq
    exact ⟨rfl, rfl, rfl⟩
  have hshape : DrainShape tracked { w with stop := some { run with appSettled := true } } := by
    refine { h.drain with notify := ?_, waiting := fun run' heq => ?_, timer := fun run' heq => ?_ }
    · refine h.drain.notify.trans (and_congr_right fun _ => ?_)
      constructor
      · rintro ⟨run', hrun', hnone⟩
        cases hrun.symm.trans hrun'
        exact ⟨_, rfl, hnone⟩
      · rintro ⟨run', hrun', hnone⟩
        exact ⟨run, hrun, (hsame run' hrun').1 ▸ hnone⟩
    · obtain ⟨hdone, hwaiting, -⟩ := hsame run' heq
      rw [hdone, hwaiting]
      exact h.drain.waiting run hrun
    · obtain ⟨hdone, -, htimer⟩ := hsame run' heq
      rw [hdone, htimer]
      exact h.drain.timer run hrun
  obtain ⟨hdrain, hdrains⟩ := trySettle_spec (h.exchanges.wire.books.calm hcalm) hshape
  have hstop := hdrains.stop.stopStep
  refine ⟨⟨(h.exchanges.calm hcalm).calm (Calm.trySettle _ tracked), hdrain⟩,
    ⟨fun run₁ timedOut hsome hdone => ?_, fun run' hrun' hdone => ?_⟩, fun s hs => ?_⟩
  · cases hrun.symm.trans hsome
    exact hstop.kept _ timedOut rfl hdone
  · refine (hstop.settled run' hrun' hdone).imp_left ?_
    rintro ⟨run₁, hsome, hfalse⟩
    exact ⟨run, hrun, (hsame run₁ hsome).1 ▸ hfalse⟩
  · rcases hdrains.destroyed s hs with hold | ⟨out, hmem, -⟩ | hidle
    · exact .inl hold
    · cases hmem
    · exact .inr (.inr hidle)

theorem StopInv.timeOut (h : StopInv tracked w) (e : NodeEvent) :
    Stepped tracked w e (w.finish tracked true) := by
  have hcalm := Calm.finish w tracked true
  rw [NodeServer.finish] at hcalm ⊢
  cases hrun : w.stop with
  | none => exact .quiet h rfl rfl
  | some run =>
      dsimp only
      cases hdone : run.done with
      | some timedOut => exact .quiet h rfl rfl
      | none =>
          rw [hrun] at hcalm
          dsimp only at hcalm
          rw [hdone] at hcalm
          rw [Option.isSome_none, if_neg Bool.false_ne_true, if_pos rfl] at hcalm ⊢
          obtain ⟨hretired, hstop, -, -⟩ := h.drain.toDrainShape.retire
            { run with done := some true, timer := false, waiting := false } rfl rfl rfl
          have hlate : (w.retire tracked { run with
              done := some true, timer := false, waiting := false }).closeAllConnections.stop =
              some { run with done := some true, timer := false, waiting := false } := hstop
          refine ⟨⟨h.exchanges.calm hcalm, hretired.closeAllConnections⟩,
            ⟨fun run₁ timedOut hsome hnot => ?_, fun run' hrun' hfalse => ?_⟩,
            fun s _ => .inr (.inl (.inr (.inr (.inr ⟨_, hlate, rfl⟩))))⟩
          · cases hrun.symm.trans hsome
            cases hdone.symm.trans hnot
          · cases hlate.symm.trans hrun'
            cases hfalse

/-! ### Every run -/

theorem StopInv.step (h : StopInv tracked w) {e : NodeEvent}
    (hstep : w.step tracked e = some w') : Stepped tracked w e w' := by
  cases e with
  | connect s =>
      simp only [NodeServer.step, Option.ite_none_left_eq_some, Bool.not_eq_true,
        Option.some_inj] at hstep
      obtain ⟨hfresh, rfl⟩ := hstep
      refine .quiet (h.connect hfresh) ?_ ?_
      all_goals
        rw [NodeServer.connect]
        split
        · rfl
        · rfl
  | request out s bound valid =>
      simp only [NodeServer.step, Option.ite_none_right_eq_some, Bool.not_eq_true',
        Option.some_inj] at hstep
      obtain ⟨⟨hout, hconnected, hopen⟩, rfl⟩ := hstep
      obtain ⟨hinv, hstop, hdestroyed⟩ := h.request hout hconnected hopen bound valid
      exact .quiet hinv hstop hdestroyed
  | clientAbort out =>
      simp only [NodeServer.step, Option.ite_none_right_eq_some, Option.some_inj] at hstep
      obtain ⟨⟨hout, -⟩, rfl⟩ := hstep
      exact h.clientAbort hout
  | abandon out =>
      simp only [NodeServer.step, Option.ite_none_right_eq_some, Bool.not_eq_true',
        Option.some_inj] at hstep
      obtain ⟨⟨-, -, hended, -⟩, rfl⟩ := hstep
      exact h.abandon hended
  | endResponse out =>
      simp only [NodeServer.step, Option.ite_none_right_eq_some, Option.some_inj] at hstep
      obtain ⟨hout, rfl⟩ := hstep
      exact h.endResponse hout
  | finishResponse out =>
      simp only [NodeServer.step, Option.ite_none_right_eq_some, Option.some_inj] at hstep
      obtain ⟨hended, rfl⟩ := hstep
      exact h.finishResponse hended
  | closeResponse out =>
      simp only [NodeServer.step, Option.ite_none_right_eq_some, Option.some_inj] at hstep
      obtain ⟨⟨hout, -⟩, rfl⟩ := hstep
      exact h.closeResponse hout
  | destroySocket s =>
      simp only [NodeServer.step, Option.ite_none_right_eq_some, Option.some_inj] at hstep
      obtain ⟨-, rfl⟩ := hstep
      exact h.destroySocket s
  | closeSocket s =>
      simp only [NodeServer.step, Option.ite_none_right_eq_some, Option.some_inj] at hstep
      obtain ⟨⟨hconnected, -⟩, rfl⟩ := hstep
      exact h.closeSocket hconnected
  | stopGraceful finite settled =>
      simp only [NodeServer.step, Option.ite_none_left_eq_some, Bool.not_eq_true,
        Option.isSome_eq_false_iff, Option.isNone_iff_eq_none, Option.some_inj] at hstep
      obtain ⟨hstop, rfl⟩ := hstep
      exact h.stopGraceful hstop finite settled
  | appSettled =>
      simp only [NodeServer.step] at hstep
      split at hstep
      · cases hstep
      · next run hrun =>
          simp only [Option.ite_none_left_eq_some, Option.some_inj] at hstep
          obtain ⟨-, rfl⟩ := hstep
          exact h.appSettled hrun
  | drainTimer =>
      simp only [NodeServer.step] at hstep
      split at hstep
      · cases hstep
      · simp only [Option.ite_none_right_eq_some, Option.some_inj] at hstep
        obtain ⟨-, rfl⟩ := hstep
        exact h.timeOut .drainTimer
  | force =>
      simp only [NodeServer.step, Option.ite_none_right_eq_some, Option.some_inj] at hstep
      obtain ⟨-, rfl⟩ := hstep
      exact h.timeOut .force

theorem stopInv_of_reachable (h : (nodeServer tracked).Reachable w) : StopInv tracked w :=
  Lts.Reachable.invariant (stopInv_createNodeServer tracked)
    (fun _ _ _ hinv hs => (hinv.step hs).inv) h

theorem StopInv.awaited (h : StopInv tracked w) (hout : out ∈ w.dispatched)
    (hsource : w.wire.wireSource out = none) : Awaited w out = false := by
  rw [← h.exchanges.wire.onTheWire hout, OnTheWire, hsource, Option.isSome_none]

/-- What the tracker holds of an open socket is the last exchange of it. -/
theorem StopInv.lastTracked (h : StopInv tracked w) (hopen : w.transport.gone s = false)
    (hlatest : lastTracked w s = some out) : s ∈ w.tracker.connections ∧
      w.tracker.last s = some out := by
  have hmem := List.mem_of_getLast? hlatest
  rw [List.mem_filter, Bool.and_eq_true, decide_eq_true_eq] at hmem
  obtain ⟨hout, hfree, rfl⟩ := hmem
  have htracked : tracked = true := by
    rw [← Bool.not_eq_false]
    intro huntracked
    exact Bool.false_ne_true ((h.exchanges.free huntracked out).symm.trans hfree)
  have hs := h.exchanges.wire.connections htracked _ (h.exchanges.arrived out hout) hopen
  exact ⟨hs, (h.exchanges.latest _ hs).trans hlatest⟩

/-- A stop resolves once. It resolves without a time-out only when the
application has settled, no exchange is awaited any more, and the last tracked
exchange on each open socket has closed or is flushed. -/
theorem graceful_stop_resolves (h : (nodeServer tracked).Reachable w) {e : NodeEvent}
    (hstep : w.step tracked e = some w') :
    (∀ run timedOut, w.stop = some run → run.done = some timedOut →
      ∃ run', w'.stop = some run' ∧ run'.done = some timedOut) ∧
    ∀ run', w'.stop = some run' → run'.done = some false →
      (∃ run, w.stop = some run ∧ run.done = some false) ∨
        run'.appSettled = true ∧ (∀ out ∈ w'.dispatched, Awaited w' out = false) ∧
          ∀ s out, w'.transport.gone s = false → lastTracked w' s = some out →
            w'.transport.closed out = true ∨ w'.flushed out = true := by
  obtain ⟨hinv, hstop, -⟩ := (stopInv_of_reachable h).step hstep
  refine ⟨hstop.kept, fun run' hrun' hdone => ?_⟩
  refine (hstop.settled run' hrun' hdone).imp_right fun ⟨hsettled, hnone, hover⟩ => ?_
  refine ⟨hsettled, fun out hout => hinv.awaited hout (hnone out), fun s out hopen hlatest => ?_⟩
  obtain ⟨hs, hlast⟩ := hinv.lastTracked hopen hlatest
  exact hover s hs out hlast

/-- A stop that has not resolved although the application has settled waits
for an exchange that is still open, or for the last exchange of an open socket,
whose close the tracker hears; one that has resolved leaves no timer and no
watch behind. -/
theorem graceful_stop_waits (h : (nodeServer tracked).Reachable w) {run : StopRun}
    (hrun : w.stop = some run) :
    (run.done = none → run.appSettled = true → (∃ out ∈ w.dispatched, Awaited w out = true) ∨
      ∃ s out, w.transport.connected s = true ∧ w.transport.gone s = false ∧
        lastTracked w s = some out ∧ w.tracker.observed out = some s ∧
          (w.transport.closed out = false → .responseClosed ∈ w.transport.listeners out)) ∧
    (run.done ≠ none → run.timer = false ∧ run.waiting = false ∧ w.tracker.notify = false ∧
      w.tracker.pending = []) := by
  have hinv := stopInv_of_reachable h
  refine ⟨fun hnone hsettled => ?_, fun hdone => ?_⟩
  · by_cases hpending : w.tracker.pending = []
    · refine .inl ?_
      have hwire : w.wire.wireInFlight ≠ 0 := fun hzero =>
        hinv.drain.awake run hrun hnone ⟨hzero, hpending, hsettled⟩
      rw [hinv.exchanges.wire.books.count, ne_eq, Int.natCast_eq_zero, List.countP_eq_zero] at hwire
      push Not at hwire
      obtain ⟨out, hout, hon⟩ := hwire
      exact ⟨out, hout, hinv.exchanges.wire.onTheWire hout ▸ hon⟩
    · obtain ⟨s, hs⟩ := List.exists_mem_of_ne_nil _ hpending
      obtain ⟨hconnection, out, hlast, hwatched⟩ := hinv.drain.pending s hs
      obtain ⟨hconnected, hopen⟩ := hinv.exchanges.sockets s hconnection
      obtain ⟨hobserved, -, -, hlistens⟩ := hinv.drain.watch s out hwatched
      exact .inr ⟨s, out, hconnected, hopen, (hinv.exchanges.latest s hconnection).symm.trans hlast,
        hobserved, hlistens⟩
  · have hoff : w.tracker.notify = false := by
      rw [← Bool.not_eq_true, hinv.drain.notify]
      rintro ⟨-, run', hrun', hnone⟩
      cases hrun.symm.trans hrun'
      exact hdone hnone
    refine ⟨?_, ?_, hoff, hinv.drain.quiet hoff⟩
    · rw [← Bool.not_eq_true]
      exact mt (hinv.drain.timer run hrun) hdone
    · rw [← Bool.not_eq_true]
      exact mt (hinv.drain.waiting run hrun).mp hdone

/-- A socket is gone when it has emitted its `close`. -/
theorem StopInv.step_gone (h : StopInv tracked w) {e : NodeEvent}
    (hstep : w.step tracked e = some w') (hgone : w'.transport.gone s = true) :
    w.transport.gone s = true ∨ e = .closeSocket s := by
  have hcalm : ∀ {v}, Calm w v → v.transport.gone s = true → w.transport.gone s = true ∨
      e = .closeSocket s := fun hv hs => .inl (by rwa [hv.gone] at hs)
  cases e with
  | connect s' =>
      simp only [NodeServer.step, Option.ite_none_left_eq_some, Option.some_inj] at hstep
      obtain ⟨-, rfl⟩ := hstep
      rw [NodeServer.connect] at hgone
      split at hgone
      · exact .inl hgone
      · exact .inl hgone
  | request out s' bound valid =>
      simp only [NodeServer.step, Option.ite_none_right_eq_some, Option.some_inj] at hstep
      obtain ⟨-, rfl⟩ := hstep
      rw [NodeServer.dispatch] at hgone
      split at hgone
      · rw [NodeServer.track] at hgone
        split at hgone
        · dsimp only at hgone
          split at hgone
          · rw [(Calm.watch _ s').gone] at hgone
            exact .inl hgone
          · exact .inl hgone
        · exact .inl hgone
      · exact .inl hgone
  | clientAbort out =>
      simp only [NodeServer.step, Option.ite_none_right_eq_some, Option.some_inj] at hstep
      obtain ⟨-, rfl⟩ := hstep
      rw [NodeServer.clientAbort] at hgone
      dsimp only at hgone
      split at hgone
      · exact .inl hgone
      · split at hgone
        · exact .inl hgone
        · exact .inl hgone
  | abandon out =>
      simp only [NodeServer.step, Option.ite_none_right_eq_some, Option.some_inj] at hstep
      obtain ⟨-, rfl⟩ := hstep
      exact .inl hgone
  | endResponse out =>
      simp only [NodeServer.step, Option.ite_none_right_eq_some, Option.some_inj] at hstep
      obtain ⟨-, rfl⟩ := hstep
      exact .inl hgone
  | finishResponse out =>
      simp only [NodeServer.step, Option.ite_none_right_eq_some, Option.some_inj] at hstep
      obtain ⟨-, rfl⟩ := hstep
      exact .inl hgone
  | closeResponse out =>
      simp only [NodeServer.step, Option.ite_none_right_eq_some, Option.some_inj] at hstep
      obtain ⟨-, rfl⟩ := hstep
      rw [(closeResponse_spec h.exchanges.wire out).1.gone] at hgone
      exact .inl hgone
  | destroySocket s' =>
      simp only [NodeServer.step, Option.ite_none_right_eq_some, Option.some_inj] at hstep
      obtain ⟨-, rfl⟩ := hstep
      exact .inl hgone
  | closeSocket s' =>
      simp only [NodeServer.step, Option.ite_none_right_eq_some, Option.some_inj] at hstep
      obtain ⟨-, rfl⟩ := hstep
      -- The one event that makes a socket gone, and only its own.
      rw [(closeSocket_spec h.exchanges.wire s').2.gone] at hgone
      change Function.update w.transport.gone s' true s = true at hgone
      by_cases heq : s = s'
      · exact .inr (heq ▸ rfl)
      · rw [Function.update_of_ne heq] at hgone
        exact .inl hgone
  | stopGraceful finite settled =>
      simp only [NodeServer.step, Option.ite_none_left_eq_some, Option.some_inj] at hstep
      obtain ⟨-, rfl⟩ := hstep
      -- What concerns the tracker and the stop destroys sockets, but closes none.
      exact hcalm (Calm.stopGraceful w tracked finite settled) hgone
  | appSettled =>
      simp only [NodeServer.step] at hstep
      split at hstep
      · cases hstep
      · simp only [Option.ite_none_left_eq_some, Option.some_inj] at hstep
        obtain ⟨-, rfl⟩ := hstep
        exact hcalm ((Calm.setStop w _).trans (Calm.trySettle _ tracked)) hgone
  | drainTimer =>
      simp only [NodeServer.step] at hstep
      split at hstep
      · cases hstep
      · simp only [Option.ite_none_right_eq_some, Option.some_inj] at hstep
        obtain ⟨-, rfl⟩ := hstep
        exact hcalm (Calm.finish w tracked true) hgone
  | force =>
      simp only [NodeServer.step, Option.ite_none_right_eq_some, Option.some_inj] at hstep
      obtain ⟨-, rfl⟩ := hstep
      exact hcalm (Calm.finish w tracked true) hgone

/-- A tracked exchange and one without a connection of its own, a drain, and
the closes that end it. -/
def drainRun : List NodeEvent :=
  [.connect 0, .connect 1, .request 0 0 true true, .request 1 1 false true,
    .stopGraceful true true, .endResponse 1, .closeResponse 1, .endResponse 0, .finishResponse 0]

theorem graceful_stop_resolves_drained : ∃ w w',
    (nodeServer true).runFrom createNodeServer drainRun = some w ∧
      w.step true (.closeResponse 0) = some w' ∧
      (w.stop.bind StopRun.done, w'.stop.bind StopRun.done) = (none, some false) ∧
      ∀ run', w'.stop = some run' → run'.done = some false →
        (∃ run, w.stop = some run ∧ run.done = some false) ∨
          run'.appSettled = true ∧ (∀ out ∈ w'.dispatched, Awaited w' out = false) ∧
            ∀ s out, w'.transport.gone s = false → lastTracked w' s = some out →
              w'.transport.closed out = true ∨ w'.flushed out = true :=
  ⟨_, _, rfl, rfl, rfl, (graceful_stop_resolves
    (Lts.reachable_of_run (L := nodeServer true) drainRun rfl) (e := .closeResponse 0) rfl).2⟩

theorem graceful_stop_waits_draining : ∃ w run,
    (nodeServer true).runFrom createNodeServer drainRun = some w ∧ w.stop = some run ∧
      ((∃ out ∈ w.dispatched, Awaited w out = true) ∨
        ∃ s out, w.transport.connected s = true ∧ w.transport.gone s = false ∧
          lastTracked w s = some out ∧ w.tracker.observed out = some s ∧
            (w.transport.closed out = false → .responseClosed ∈ w.transport.listeners out)) :=
  ⟨_, _, rfl, rfl, (graceful_stop_waits
    (Lts.reachable_of_run (L := nodeServer true) drainRun rfl) rfl).1 rfl rfl⟩

end Keala.Adapters
