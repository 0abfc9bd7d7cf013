import Keala.Adapters.WireAccounting

/-!
The books of the wire over every run of the server: each event keeps them, so
they hold in whatever order requests, closes, signals and stops come.
-/

namespace Keala.Adapters

open NodeServer SharedListener

variable {tracked : Bool} {w w' : NodeServer} {s : SocketId} {out : ResponseId}

/-! ### A new exchange -/

theorem WireInv.connect (h : WireInv tracked w) (s : SocketId) :
    WireInv tracked (w.connect tracked s) := by
  rw [NodeServer.connect]
  cases tracked with
  | false => exact { h with books := { h.books with }, connections := fun htr => by cases htr }
  | true =>
      refine { h with books := { h.books with }, connections := fun _ s' hs' hopen => ?_ }
      change Function.update w.transport.connected s true s' = true at hs'
      by_cases heq : s' = s
      · exact List.mem_append_right _ (heq ▸ List.mem_cons_self)
      · rw [Function.update_of_ne heq] at hs'
        exact List.mem_append_left _ (h.connections rfl s' hs' hopen)

structure Unknown (w : NodeServer) (out : ResponseId) : Prop where
  source : w.wire.wireSource out = none
  watching : w.wire.watching out = none
  release : w.wire.wireRelease out = false
  done : ∀ s, .wireDone out ∉ w.wire.socketCloses.live s
  closed : ∀ s, .closed out ∉ w.wire.socketCloses.live s
  fresh : w.transport.closed out = false ∧ w.wire.abort out = false ∧
    w.wire.disconnected out = false

theorem WireInv.unknown (h : WireInv tracked w) (hout : out ∉ w.dispatched) : Unknown w out := by
  obtain ⟨hsource, hwatching⟩ := h.books.fresh out hout
  refine ⟨hsource, hwatching, ?_, fun s hs => ?_, fun s hs => ?_, h.fresh out hout⟩
  · rw [h.books.release, OnTheWire, hsource, Option.isSome_none, Bool.and_false]
  · exact (h.books.wireDone s out hs).2 ((h.books.fanout out).mpr hsource)
  · exact (h.books.closed s out hs).2 hwatching

/-- An element that is not in a list changes no count over it. -/
theorem countP_other {l : List ResponseId} (hl : out ∉ l) {p q : ResponseId → Bool}
    (hother : ∀ other, other ≠ out → q other = p other) : l.countP q = l.countP p := by
  refine List.countP_congr fun other hmem => ?_
  rw [hother other]
  rintro rfl
  exact hl hmem

theorem WireBooks.arrive (h : WireBooks tracked w) (hun : Unknown w out)
    (hout : out ∉ w.dispatched) (s : SocketId) (connectionTracked valid : Bool) :
    WireBooks tracked (w.arrive out s connectionTracked valid) := by
  have hsocket : ∀ other, other ≠ out →
      Function.update w.transport.socket out s other = w.transport.socket other :=
    fun other hne => Function.update_of_ne hne ..
  refine ⟨h.heap, ?_, fun other hother => ?_, h.fanout, fun other entry hentry => ?_,
    fun other entry hentry => ?_, fun s' other hother => ?_, fun s' other hother => ?_, ?_,
    h.release, fun s' => ?_⟩
  · refine List.nodup_append.mpr ⟨h.nodup, List.nodup_singleton out, fun a ha b hb => ?_⟩
    rw [List.mem_singleton] at hb
    rintro rfl
    exact hout (hb ▸ ha)
  · exact h.fresh other fun hmem => hother (List.mem_append_left _ hmem)
  · have hne : other ≠ out := by
      rintro rfl
      have hnone := (h.fanout other).mpr hun.source
      exact Option.some_ne_none entry (hentry.symm.trans hnone)
    show Registered _ (Function.update w.transport.socket out s other) entry _
    rw [hsocket other hne]
    exact h.registered other entry hentry
  · have hne : other ≠ out := by
      rintro rfl
      exact Option.some_ne_none entry (hentry.symm.trans hun.watching)
    show Registered _ (Function.update w.transport.socket out s other) entry _
    rw [hsocket other hne]
    exact h.watching other entry hentry
  · have hne : other ≠ out := by
      rintro rfl
      exact hun.done s' hother
    show Function.update w.transport.socket out s other = s' ∧ _
    rw [hsocket other hne]
    exact h.wireDone s' other hother
  · have hne : other ≠ out := by
      rintro rfl
      exact hun.closed s' hother
    show Function.update w.transport.socket out s other = s' ∧ _
    rw [hsocket other hne]
    exact h.closed s' other hother
  · show w.wire.wireInFlight = ((w.dispatched ++ [out]).countP (OnTheWire w) : ℕ)
    have hnone : OnTheWire w out = false := by rw [OnTheWire, hun.source, Option.isSome_none]
    rw [List.countP_append, List.countP_singleton, hnone, h.count]
    simp
  · show w.tracker.queued s' = ((w.dispatched ++ [out]).countP fun other =>
      w.wire.wireRelease other && decide (Function.update w.transport.socket out s other = s') : ℕ)
    rw [List.countP_append, List.countP_singleton, hun.release, h.queued]
    rw [countP_other hout (q := fun other => w.wire.wireRelease other &&
      decide (Function.update w.transport.socket out s other = s')) fun other hne => by
        rw [hsocket other hne]]
    simp

def enterWire (w : NodeServer) : NodeServer :=
  { w with wire := { w.wire with wireInFlight := w.wire.wireInFlight + 1 } }

/-- One element more is counted. -/
theorem countP_enter {l : List ResponseId} (hl : l.Nodup) (hout : out ∈ l)
    {p q : ResponseId → Bool} (hp : p out = false) (hq : q out = true)
    (hother : ∀ other, other ≠ out → q other = p other) : l.countP q = l.countP p + 1 :=
  (countP_leave hl hout hq hp fun other hne => (hother other hne).symm).symm

theorem WireBooks.trackWire (h : WireBooks tracked w) (hun : Unknown w out)
    (hout : out ∈ w.dispatched) (hs : w.transport.socket out = s)
    (hconn : tracked = true → s ∈ w.tracker.connections) (valid : Bool) :
    WireBooks tracked ((enterWire w).trackWire tracked out s valid) := by
  have hrelease : (tracked && decide (s ∈ w.tracker.connections)) = tracked := by
    cases tracked with
    | false => rfl
    | true => simp [hconn rfl]
  have hbooks : ∀ other, other ≠ out → ∀ {α : Type} (f : ResponseId → α) (a : α),
      Function.update f out a other = f other := fun other hne _ f a => Function.update_of_ne hne ..
  have hlive : ∀ s' onDone,
      onDone ∈ (w.wire.socketCloses.subscribe s (.wireDone out)).1.live s' ↔
        onDone ∈ w.wire.socketCloses.live s' ∨ s' = s ∧ onDone = .wireDone out :=
    fun s' onDone => h.heap.mem_live_subscribe
  refine ⟨h.heap.subscribe s _, h.nodup, fun other hother => ?_, fun other => ?_,
    fun other entry hentry => ?_, fun other entry hentry => ?_, fun s' other hother => ?_,
    fun s' other hother => ?_, ?_, fun other => ?_, fun s' => ?_⟩
  · have hne : other ≠ out := by
      rintro rfl
      exact hother hout
    show Function.update w.wire.wireSource out (some valid) other = none ∧ _
    rw [hbooks other hne]
    exact h.fresh other hother
  · show Function.update w.wire.wireFanout out _ other = none ↔
      Function.update w.wire.wireSource out _ other = none
    by_cases heq : other = out
    · subst heq
      simp
    · rw [hbooks other heq, hbooks other heq]
      exact h.fanout other
  · change Function.update w.wire.wireFanout out _ other = some entry at hentry
    show Registered (w.wire.socketCloses.subscribe s _).1 (w.transport.socket other) entry _
    by_cases heq : other = out
    · subst heq
      rw [Function.update_self, Option.some_inj] at hentry
      rw [hs, ← hentry]
      exact Registered.subscribe ..
    · rw [hbooks other heq] at hentry
      exact (h.registered other entry hentry).after_subscribe h.heap ..
  · exact (h.watching other entry hentry).after_subscribe h.heap ..
  · show w.transport.socket other = s' ∧ Function.update w.wire.wireFanout out _ other ≠ none
    by_cases heq : other = out
    · subst heq
      rw [Function.update_self]
      refine ⟨?_, Option.some_ne_none _⟩
      rcases (hlive s' _).mp hother with hold | ⟨rfl, -⟩
      · exact absurd hold (hun.done s')
      · exact hs
    · rw [hbooks other heq]
      refine h.wireDone s' other (((hlive s' _).mp hother).resolve_right ?_)
      rintro ⟨-, hnot⟩
      exact heq (by injection hnot)
  · refine h.closed s' other (((hlive s' _).mp hother).resolve_right ?_)
    rintro ⟨-, hnot⟩
    cases hnot
  · -- The counter grows with the exchanges on the wire.
    have hcount := countP_enter h.nodup hout (p := OnTheWire w)
      (q := fun other => (Function.update w.wire.wireSource out (some valid) other).isSome)
      (by rw [OnTheWire, hun.source, Option.isSome_none])
      (by rw [Function.update_self, Option.isSome_some])
      fun other hne => by rw [hbooks other hne, OnTheWire]
    show w.wire.wireInFlight + 1 = (w.dispatched.countP fun other =>
      (Function.update w.wire.wireSource out (some valid) other).isSome : ℕ)
    rw [hcount, h.count, Int.natCast_add, Int.natCast_one]
  · show Function.update w.wire.wireRelease out (tracked && decide (s ∈ w.tracker.connections))
      other = (tracked && (Function.update w.wire.wireSource out (some valid) other).isSome)
    rw [hrelease]
    by_cases heq : other = out
    · subst heq
      rw [Function.update_self, Function.update_self, Option.isSome_some, Bool.and_true]
    · rw [hbooks other heq, hbooks other heq]
      exact h.release other
  · -- So does the queue of the socket, where there is a tracker.
    show (if (tracked && decide (s ∈ w.tracker.connections)) = true then
        Function.update w.tracker.queued s (w.tracker.queued s + 1)
      else w.tracker.queued : SocketId → ℤ) s' =
      (w.dispatched.countP fun other =>
        Function.update w.wire.wireRelease out (tracked && decide (s ∈ w.tracker.connections))
          other && decide (w.transport.socket other = s') : ℕ)
    rw [hrelease]
    by_cases hboth : tracked = true ∧ s' = s
    · obtain ⟨rfl, rfl⟩ := hboth
      rw [if_pos rfl, Function.update_self, h.queued]
      rw [countP_enter h.nodup hout (q := fun other => Function.update w.wire.wireRelease out true
        other && decide (w.transport.socket other = s'))
        (p := fun other => w.wire.wireRelease other && decide (w.transport.socket other = s'))
        (by rw [hun.release, Bool.false_and])
        (by rw [Function.update_self, hs, decide_eq_true rfl, Bool.and_true])
        fun other hne => by rw [hbooks other hne], Int.natCast_add, Int.natCast_one]
    · have hsame : (fun other => Function.update w.wire.wireRelease out tracked other &&
          decide (w.transport.socket other = s')) =
          fun other => w.wire.wireRelease other && decide (w.transport.socket other = s') := by
        funext other
        by_cases heq : other = out
        · subst heq
          rw [Function.update_self, hun.release, Bool.false_and, hs]
          cases tracked with
          | false => rfl
          | true =>
              rw [Bool.true_and, decide_eq_false_iff_not]
              exact fun hnot => hboth ⟨rfl, hnot.symm⟩
        · rw [hbooks other heq]
      rw [hsame, ← h.queued]
      split
      · next htr => exact Function.update_of_ne (fun heq => hboth ⟨htr, heq⟩) ..
      · rfl

structure Arrived (tracked : Bool) (w v : NodeServer) (out : ResponseId) : Prop where
  books : WireBooks tracked v
  unknown : Unknown v out
  mem : out ∈ v.dispatched
  others : ∀ other, other ≠ out → (OnTheWire v other = true ↔ other ∈ v.dispatched ∧
    v.connectionTracked other = false ∧ v.transport.closed other = false ∧
      v.transport.gone (v.transport.socket other) = false)
  watched : ∀ other, v.wire.watching other ≠ none →
    v.transport.closed other = false ∧ v.transport.gone (v.transport.socket other) = false
  cause : ∀ other, v.wire.disconnected other = true → v.transport.closed other = true ∨
    v.transport.destroyed (v.transport.socket other) = true
  fresh : ∀ other, other ∉ v.dispatched → v.transport.closed other = false ∧
    v.wire.abort other = false ∧ v.wire.disconnected other = false
  rest : v.wire = w.wire ∧ v.tracker = w.tracker ∧ v.transport.listeners = w.transport.listeners ∧
    v.transport.writableEnded = w.transport.writableEnded ∧
    v.transport.gone = w.transport.gone ∧ v.transport.destroyed = w.transport.destroyed ∧
    v.transport.connected = w.transport.connected

theorem WireInv.arrive (h : WireInv tracked w) (hout : out ∉ w.dispatched)
    (connectionTracked valid : Bool) :
    Arrived tracked w (w.arrive out s connectionTracked valid) out := by
  have hun := h.unknown hout
  have hsocket : ∀ other, other ≠ out →
      Function.update w.transport.socket out s other = w.transport.socket other :=
    fun other hne => Function.update_of_ne hne ..
  refine ⟨h.books.arrive hun hout s connectionTracked valid, { hun with },
    List.mem_append_right _ List.mem_cons_self, fun other hne => ?_, fun other hother => ?_,
    fun other hother => ?_, fun other hother => h.fresh other fun hmem =>
      hother (List.mem_append_left _ hmem), rfl, rfl, rfl, rfl, rfl, rfl, rfl⟩
  · show OnTheWire w other = true ↔ other ∈ w.dispatched ++ [out] ∧
      Function.update w.connectionTracked out connectionTracked other = false ∧
        w.transport.closed other = false ∧
          w.transport.gone (Function.update w.transport.socket out s other) = false
    rw [hsocket other hne, Function.update_of_ne hne, h.counted, List.mem_append,
      List.mem_singleton, or_iff_left hne]
  · have hne : other ≠ out := by
      rintro rfl
      exact hother hun.watching
    show _ ∧ w.transport.gone (Function.update w.transport.socket out s other) = false
    rw [hsocket other hne]
    exact h.watched other hother
  · have hne : other ≠ out := by
      rintro rfl
      exact Bool.false_ne_true (hun.fresh.2.2.symm.trans hother)
    show _ ∨ w.transport.destroyed (Function.update w.transport.socket out s other) = true
    rw [hsocket other hne]
    exact h.cause other hother

theorem Arrived.wireInv {v : NodeServer} (h : WireInv tracked w) (ha : Arrived tracked w v out)
    (hfree : v.connectionTracked out = true) : WireInv tracked v := by
  obtain ⟨hwire, htracker, hlisteners, hended, hgone, hdestroyed, hconnected⟩ := ha.rest
  have hon : OnTheWire v = OnTheWire w := by
    funext other
    rw [OnTheWire, OnTheWire, hwire]
  refine ⟨ha.books, fun other => ?_, ha.watched, ?_, ?_, ?_, ha.cause, ha.fresh, ?_, ?_⟩
  · by_cases heq : other = out
    · subst heq
      rw [OnTheWire, ha.unknown.source, hfree]
      simp
    · exact ha.others other heq
  · rw [hon, hlisteners]
    exact h.onWireDone
  · rw [hwire, hlisteners]
    exact h.listening
  · rw [hwire, hended]
    exact h.signal
  · rw [hgone, hdestroyed]
    exact h.gone
  · rw [hconnected, hgone, htracker]
    exact h.connections

theorem Arrived.trackWire {v : NodeServer} (h : WireInv tracked w) (ha : Arrived tracked w v out)
    (hfree : v.connectionTracked out = false) (hs : v.transport.socket out = s)
    (hconnected : v.transport.connected s = true) (hopen : v.transport.gone s = false)
    (valid : Bool) : WireInv tracked ((enterWire v).trackWire tracked out s valid) := by
  obtain ⟨hwire, htracker, hlisteners, hended, hgone, hdestroyed, hconn⟩ := ha.rest
  have hconnections : tracked = true → s ∈ v.tracker.connections := by
    intro htr
    rw [htracker]
    exact h.connections htr s (hconn ▸ hconnected) (hgone ▸ hopen)
  have hbooks := ha.books.trackWire ha.unknown ha.mem hs hconnections valid
  have hnew : ∀ other, other ≠ out →
      OnTheWire ((enterWire v).trackWire tracked out s valid) other = OnTheWire v other := by
    intro other hne
    show (Function.update v.wire.wireSource out (some valid) other).isSome = _
    rw [Function.update_of_ne hne, OnTheWire]
  have hmem : ∀ other listener, listener ∈ v.transport.listeners other →
      listener ∈ Function.update v.transport.listeners out
        (v.transport.listeners out ++ [.onWireDone]) other := by
    intro other listener hin
    by_cases heq : other = out
    · subst heq
      rw [Function.update_self]
      exact List.mem_append_left _ hin
    · rwa [Function.update_of_ne heq]
  refine ⟨hbooks, fun other => ?_, ha.watched, fun other hother => ?_, fun other hother => ?_, ?_,
    ha.cause, ha.fresh, ?_, ?_⟩
  · by_cases heq : other = out
    · subst heq
      refine iff_of_true ?_ ⟨ha.mem, hfree, ha.unknown.fresh.1, ?_⟩
      · show (Function.update v.wire.wireSource other (some valid) other).isSome = true
        rw [Function.update_self, Option.isSome_some]
      · show v.transport.gone (v.transport.socket other) = false
        rwa [hs]
    · rw [hnew other heq]
      exact ha.others other heq
  · show .onWireDone ∈ Function.update v.transport.listeners out _ other
    by_cases heq : other = out
    · subst heq
      rw [Function.update_self]
      exact List.mem_append_right _ List.mem_cons_self
    · refine hmem other _ ?_
      rw [hnew other heq, OnTheWire, hwire] at hother
      rw [hlisteners]
      exact h.onWireDone other hother
  · refine hmem other _ ?_
    change v.wire.watching other ≠ none at hother
    rw [hwire] at hother
    rw [hlisteners]
    exact h.listening other hother
  · show ∀ other, v.wire.abort other = true → v.wire.watching other ≠ none ∨
      v.wire.disconnected other = true ∨ v.transport.writableEnded other = true
    rw [hwire, hended]
    exact h.signal
  · show ∀ s, v.transport.gone s = true → v.transport.destroyed s = true
    rw [hgone, hdestroyed]
    exact h.gone
  · show tracked = true → ∀ s, v.transport.connected s = true → v.transport.gone s = false →
      s ∈ v.tracker.connections
    rw [hconn, hgone, htracker]
    exact h.connections

theorem WireInv.dispatch (h : WireInv tracked w) (hout : out ∉ w.dispatched)
    (hconnected : w.transport.connected s = true) (hopen : w.transport.gone s = false)
    (bound valid : Bool) : WireInv tracked (w.dispatch tracked out s bound valid) := by
  have ha := h.arrive (s := s) hout (tracked && bound) valid
  have hself : Function.update w.connectionTracked out (tracked && bound) out =
      (tracked && bound) := Function.update_self ..
  rw [NodeServer.dispatch]
  cases hbound : tracked && bound with
  | true =>
      rw [hbound] at ha hself
      rw [if_pos rfl, NodeServer.track]
      have harrived := ha.wireInv h hself
      split
      · have hlast : WireInv tracked { w.arrive out s true valid with tracker :=
            { (w.arrive out s true valid).tracker with
              last := Function.update (w.arrive out s true valid).tracker.last s (some out) } } :=
          { harrived with books := { harrived.books with } }
        dsimp only
        split
        · exact hlast.calm (Calm.watch _ s)
        · exact hlast
      · exact harrived
  | false =>
      rw [hbound] at ha hself
      rw [if_neg Bool.false_ne_true]
      exact ha.trackWire h hself (Function.update_self ..) hconnected hopen valid

/-! ### Signals and answers -/

def openSignal (w : NodeServer) (out : ResponseId) : NodeServer :=
  { w with wire := { w.wire with abort := Function.update w.wire.abort out true } }

theorem WireInv.disconnect (h : WireInv tracked w) (hout : out ∈ w.dispatched)
    (hcause : w.transport.closed out = true ∨
      w.transport.destroyed (w.transport.socket out) = true) :
    WireInv tracked ((openSignal w out).disconnect out) := by
  refine { h with
    books := { h.books with }, signal := fun other hother => ?_,
    cause := fun other hother => ?_, fresh := fun other hother => ?_ }
  · show _ ∨ Function.update w.wire.disconnected out true other = true ∨ _
    change Function.update w.wire.abort out true other = true at hother
    by_cases heq : other = out
    · subst heq
      exact .inr (.inl (Function.update_self ..))
    · rw [Function.update_of_ne heq] at hother ⊢
      exact h.signal other hother
  · change Function.update w.wire.disconnected out true other = true at hother
    by_cases heq : other = out
    · subst heq
      exact hcause
    · rw [Function.update_of_ne heq] at hother
      exact h.cause other hother
  · have hne : other ≠ out := by
      rintro rfl
      exact hother hout
    show _ ∧ Function.update w.wire.abort out true other = false ∧
      Function.update w.wire.disconnected out true other = false
    rw [Function.update_of_ne hne, Function.update_of_ne hne]
    exact h.fresh other hother

/-- A signal that is aborted already, or of an ended response, watches nothing. -/
theorem WireInv.openSignal (h : WireInv tracked w) (hout : out ∈ w.dispatched)
    (hover : w.wire.watching out ≠ none ∨ w.wire.disconnected out = true ∨
      w.transport.writableEnded out = true) :
    WireInv tracked (openSignal w out) := by
  refine { h with
    books := { h.books with }, signal := fun other hother => ?_,
    fresh := fun other hother => ?_ }
  · change Function.update w.wire.abort out true other = true at hother
    by_cases heq : other = out
    · subst heq
      exact hover
    · rw [Function.update_of_ne heq] at hother
      exact h.signal other hother
  · have hne : other ≠ out := by
      rintro rfl
      exact hother hout
    show _ ∧ Function.update w.wire.abort out true other = false ∧ _
    rw [Function.update_of_ne hne]
    exact h.fresh other hother

def watchDisconnect (w : NodeServer) (out : ResponseId) : NodeServer :=
  let s := w.transport.socket out
  let v := w.setListeners out (w.transport.listeners out ++ [.closed])
  { v with wire :=
    { v.wire with
      watching := Function.update v.wire.watching out
        (some (v.wire.socketCloses.subscribe s (.closed out)).2)
      socketCloses := (v.wire.socketCloses.subscribe s (.closed out)).1 } }

theorem WireBooks.watchDisconnect (h : WireBooks tracked w) (hout : out ∈ w.dispatched) :
    WireBooks tracked (watchDisconnect w out) := by
  have hlive : ∀ s onDone, onDone ∈ (w.wire.socketCloses.subscribe
      (w.transport.socket out) (.closed out)).1.live s ↔
        onDone ∈ w.wire.socketCloses.live s ∨
          s = w.transport.socket out ∧ onDone = .closed out :=
    fun s onDone => h.heap.mem_live_subscribe
  refine { h with
    heap := h.heap.subscribe _ _, fresh := fun other hother => ?_,
    registered := fun other entry hentry => ?_, watching := fun other entry hentry => ?_,
    wireDone := fun s other hother => ?_, closed := fun s other hother => ?_ }
  · have hne : other ≠ out := by
      rintro rfl
      exact hother hout
    show _ ∧ Function.update w.wire.watching out _ other = none
    rw [Function.update_of_ne hne]
    exact h.fresh other hother
  · exact (h.registered other entry hentry).after_subscribe h.heap ..
  · change Function.update w.wire.watching out _ other = some entry at hentry
    by_cases heq : other = out
    · subst heq
      rw [Function.update_self, Option.some_inj] at hentry
      rw [← hentry]
      exact Registered.subscribe ..
    · rw [Function.update_of_ne heq] at hentry
      exact (h.watching other entry hentry).after_subscribe h.heap ..
  · refine h.wireDone s other (((hlive s _).mp hother).resolve_right ?_)
    rintro ⟨-, hnot⟩
    cases hnot
  · show w.transport.socket other = s ∧ Function.update w.wire.watching out _ other ≠ none
    by_cases heq : other = out
    · subst heq
      rw [Function.update_self]
      refine ⟨?_, Option.some_ne_none _⟩
      rcases (hlive s _).mp hother with hold | ⟨rfl, -⟩
      · exact (h.closed s other hold).1
      · rfl
    · rw [Function.update_of_ne heq]
      refine h.closed s other (((hlive s _).mp hother).resolve_right ?_)
      rintro ⟨-, hnot⟩
      exact heq (by injection hnot)

theorem WireInv.watchDisconnect (h : WireInv tracked w) (hout : out ∈ w.dispatched)
    (hopen : w.transport.closed out = false)
    (halive : w.transport.destroyed (w.transport.socket out) = false) :
    WireInv tracked (watchDisconnect w out) := by
  have hmem : ∀ other listener, listener ∈ w.transport.listeners other →
      listener ∈ Function.update w.transport.listeners out
        (w.transport.listeners out ++ [.closed]) other := by
    intro other listener hin
    by_cases heq : other = out
    · subst heq
      rw [Function.update_self]
      exact List.mem_append_left _ hin
    · rwa [Function.update_of_ne heq]
  have hwatching : ∀ other, other ≠ out →
      (Adapters.watchDisconnect w out).wire.watching other = w.wire.watching other :=
    fun other hne => Function.update_of_ne hne ..
  refine { h with
    books := h.books.watchDisconnect hout, watched := fun other hother => ?_,
    onWireDone := fun other hother => hmem other _ (h.onWireDone other hother),
    listening := fun other hother => ?_, signal := fun other hother => ?_ }
  · by_cases heq : other = out
    · subst heq
      refine ⟨hopen, Bool.not_eq_true _ ▸ fun hgone => ?_⟩
      exact Bool.false_ne_true (halive.symm.trans (h.gone _ hgone))
    · rw [hwatching other heq] at hother
      exact h.watched other hother
  · show .closed ∈ Function.update w.transport.listeners out _ other
    by_cases heq : other = out
    · subst heq
      rw [Function.update_self]
      exact List.mem_append_right _ List.mem_cons_self
    · refine hmem other _ (h.listening other ?_)
      rwa [hwatching other heq] at hother
  · by_cases heq : other = out
    · subst heq
      refine .inl ?_
      show Function.update w.wire.watching other _ other ≠ none
      rw [Function.update_self]
      exact Option.some_ne_none _
    · rw [hwatching other heq]
      exact h.signal other hother

theorem WireInv.clientAbort (h : WireInv tracked w) (hout : out ∈ w.dispatched) :
    WireInv tracked (w.clientAbort out) := by
  rw [NodeServer.clientAbort]
  dsimp only
  split
  · next hover =>
      refine h.openSignal hout (.inr ?_)
      rwa [Bool.or_eq_true] at hover
  · split
    · next hshut =>
        refine h.disconnect hout ?_
        rwa [Bool.or_eq_true] at hshut
    · next hopen =>
        rw [Bool.or_eq_true, not_or, Bool.not_eq_true, Bool.not_eq_true] at hopen
        have hwatch := h.watchDisconnect hout hopen.1 hopen.2
        refine hwatch.openSignal hout (.inl ?_)
        show Function.update w.wire.watching out _ out ≠ none
        rw [Function.update_self]
        exact Option.some_ne_none _

theorem WireInv.abandon (h : WireInv tracked w) (out : ResponseId) :
    WireInv tracked (w.abandon out) := by
  have hmem : ∀ other listener, listener ∈ w.transport.listeners other →
      listener ∈ Function.update w.transport.listeners out
        (w.transport.listeners out ++ [.abandoned]) other := by
    intro other listener hin
    by_cases heq : other = out
    · subst heq
      rw [Function.update_self]
      exact List.mem_append_left _ hin
    · rwa [Function.update_of_ne heq]
  exact { h with
    books := { h.books with }
    onWireDone := fun other hother => hmem other _ (h.onWireDone other hother)
    listening := fun other hother => hmem other _ (h.listening other hother) }

theorem WireInv.endResponse (h : WireInv tracked w) (out : ResponseId) :
    WireInv tracked { w with transport :=
      { w.transport with
        writableEnded := Function.update w.transport.writableEnded out true } } := by
  refine { h with
    books := { h.books with }, signal := fun other hother => ?_ }
  refine (h.signal other hother).imp_right fun hover => hover.imp_right fun hended => ?_
  show Function.update w.transport.writableEnded out true other = true
  by_cases heq : other = out
  · rw [heq, Function.update_self]
  · rwa [Function.update_of_ne heq]

theorem Calm.destroySocket (w : NodeServer) (s : SocketId) : Calm w (w.destroySocket s) := by
  refine { Calm.refl w with destroyed := fun s' hs' => ?_ }
  show Function.update w.transport.destroyed s true s' = true
  by_cases heq : s' = s
  · rw [heq, Function.update_self]
  · rwa [Function.update_of_ne heq]

theorem Calm.setStop (w : NodeServer) (stop : Option StopRun) : Calm w { w with stop := stop } :=
  { Calm.refl w with }

theorem Calm.stopGraceful (w : NodeServer) (tracked finite settled : Bool) :
    Calm w (w.stopGraceful tracked finite settled) := by
  have hdrain : Calm w (if tracked then (if tracked then w.closeIdle else w).startDrain
      else (if tracked then w.closeIdle else w)) := by
    cases tracked with
    | false => exact .refl w
    | true => exact (Calm.closeIdle w).trans (Calm.startDrain _)
  exact (hdrain.trans (Calm.setStop _ (some ⟨none, finite, settled, true⟩))).trans
    (Calm.trySettle _ tracked)

/-! ### Every run -/

theorem WireInv.step (h : WireInv tracked w) {e : NodeEvent}
    (hstep : w.step tracked e = some w') : WireInv tracked w' := by
  cases e with
  | connect s =>
      simp only [NodeServer.step] at hstep
      split at hstep
      · cases hstep
      · cases hstep
        exact h.connect s
  | request out s bound valid =>
      simp only [NodeServer.step, Option.ite_none_right_eq_some, Bool.not_eq_true',
        Option.some_inj] at hstep
      obtain ⟨⟨hout, hconnected, hopen⟩, rfl⟩ := hstep
      exact h.dispatch hout hconnected hopen bound valid
  | clientAbort out =>
      simp only [NodeServer.step, Option.ite_none_right_eq_some, Option.some_inj] at hstep
      obtain ⟨⟨hout, -⟩, rfl⟩ := hstep
      exact h.clientAbort hout
  | abandon out =>
      simp only [NodeServer.step, Option.ite_none_right_eq_some, Option.some_inj] at hstep
      obtain ⟨-, rfl⟩ := hstep
      exact h.abandon out
  | endResponse out =>
      simp only [NodeServer.step, Option.ite_none_right_eq_some, Option.some_inj] at hstep
      obtain ⟨-, rfl⟩ := hstep
      exact h.endResponse out
  | finishResponse out =>
      simp only [NodeServer.step, Option.ite_none_right_eq_some, Option.some_inj] at hstep
      obtain ⟨-, rfl⟩ := hstep
      exact { h with books := { h.books with } }
  | closeResponse out =>
      simp only [NodeServer.step, Option.ite_none_right_eq_some, Option.some_inj] at hstep
      obtain ⟨⟨hout, -⟩, rfl⟩ := hstep
      exact h.closeResponse hout
  | destroySocket s =>
      simp only [NodeServer.step, Option.ite_none_right_eq_some, Option.some_inj] at hstep
      obtain ⟨-, rfl⟩ := hstep
      exact h.calm (Calm.destroySocket w s)
  | closeSocket s =>
      simp only [NodeServer.step, Option.ite_none_right_eq_some, Option.some_inj] at hstep
      obtain ⟨-, rfl⟩ := hstep
      exact h.closeSocket s
  | stopGraceful finite settled =>
      simp only [NodeServer.step, Option.ite_none_left_eq_some, Option.some_inj] at hstep
      obtain ⟨-, rfl⟩ := hstep
      exact h.calm (Calm.stopGraceful w tracked finite settled)
  | appSettled =>
      simp only [NodeServer.step] at hstep
      split at hstep
      · cases hstep
      · next run _ =>
          simp only [Option.ite_none_left_eq_some, Option.some_inj] at hstep
          obtain ⟨-, rfl⟩ := hstep
          exact h.calm ((Calm.setStop w _).trans (Calm.trySettle _ tracked))
  | drainTimer =>
      simp only [NodeServer.step] at hstep
      split at hstep
      · cases hstep
      · simp only [Option.ite_none_right_eq_some, Option.some_inj] at hstep
        obtain ⟨-, rfl⟩ := hstep
        exact h.calm (Calm.finish w tracked true)
  | force =>
      simp only [NodeServer.step, Option.ite_none_right_eq_some, Option.some_inj] at hstep
      obtain ⟨-, rfl⟩ := hstep
      exact h.calm (Calm.finish w tracked true)

theorem wireInv_of_reachable (h : (nodeServer tracked).Reachable w) : WireInv tracked w :=
  Lts.Reachable.invariant (wireInv_createNodeServer tracked) (fun _ _ _ hinv => hinv.step) h

/-- Nothing else tells the server that the exchange is over: it has no tracked
connection, and its response and its socket are both open. -/
def Awaited (w : NodeServer) (out : ResponseId) : Bool :=
  !w.connectionTracked out && !w.transport.closed out &&
    !w.transport.gone (w.transport.socket out)

theorem WireInv.onTheWire (h : WireInv tracked w) (hout : out ∈ w.dispatched) :
    OnTheWire w out = Awaited w out := by
  rw [Bool.eq_iff_iff, h.counted, and_iff_right hout]
  simp [Awaited, and_assoc]

/-- In every run, the adapter counts exactly the exchanges that it awaits, on
the wire and in the queue of each tracked connection, and a socket carries one
listener while it has such an exchange or a watched signal. -/
theorem wire_accounting (h : (nodeServer tracked).Reachable w) :
    w.wire.wireInFlight = w.dispatched.countP (Awaited w) ∧
      (∀ s, w.tracker.queued s = w.dispatched.countP fun out =>
        tracked && Awaited w out && decide (w.transport.socket out = s)) ∧
      ∀ s, (w.wire.socketCloses.attached s).length =
        if ∃ out ∈ w.dispatched, w.transport.socket out = s ∧
          (Awaited w out = true ∨ w.wire.watching out ≠ none) then 1 else 0 := by
  have hinv := wireInv_of_reachable h
  refine ⟨?_, fun s => ?_, fun s => ?_⟩
  · rw [hinv.books.count]
    exact congrArg _ (List.countP_congr fun out hout => by rw [hinv.onTheWire hout])
  · rw [hinv.books.queued]
    refine congrArg _ (List.countP_congr fun out hout => ?_)
    rw [hinv.books.release, hinv.onTheWire hout]
  · rw [hinv.books.heap.attached_length]
    have hlive : w.wire.socketCloses.live s ≠ [] ↔ ∃ out ∈ w.dispatched,
        w.transport.socket out = s ∧ (Awaited w out = true ∨ w.wire.watching out ≠ none) := by
      constructor
      · intro hne
        obtain ⟨onDone, hmem⟩ := List.exists_mem_of_ne_nil _ hne
        cases onDone with
        | wireDone out =>
            obtain ⟨hsocket, hfan⟩ := hinv.books.wireDone s out hmem
            have hon : OnTheWire w out = true := by
              rw [OnTheWire, Option.isSome_iff_ne_none]
              exact mt (hinv.books.fanout out).mpr hfan
            have hout := ((hinv.counted out).mp hon).1
            exact ⟨out, hout, hsocket, .inl (hinv.onTheWire hout ▸ hon)⟩
        | closed out =>
            obtain ⟨hsocket, hwatch⟩ := hinv.books.closed s out hmem
            refine ⟨out, ?_, hsocket, .inr hwatch⟩
            by_contra hnot
            exact hwatch (hinv.books.fresh out hnot).2
      · rintro ⟨out, hout, rfl, hawaited | hwatch⟩
        · rw [← hinv.onTheWire hout] at hawaited
          obtain ⟨entry, hentry⟩ : ∃ entry, w.wire.wireFanout out = some entry := by
            apply Option.ne_none_iff_exists'.mp
            intro hnone
            rw [OnTheWire, (hinv.books.fanout out).mp hnone] at hawaited
            cases hawaited
          exact List.ne_nil_of_mem
            (Heap.mem_live.mpr ⟨entry, hinv.books.registered out entry hentry⟩)
        · obtain ⟨entry, hentry⟩ := Option.ne_none_iff_exists'.mp hwatch
          exact List.ne_nil_of_mem
            (Heap.mem_live.mpr ⟨entry, hinv.books.watching out entry hentry⟩)
    by_cases hempty : w.wire.socketCloses.live s = []
    · rw [if_pos hempty, if_neg fun hnot => hlive.mpr hnot hempty]
    · rw [if_neg hempty, if_pos (hlive.mp hempty)]

/-- Two exchanges and a watched signal on one socket, of which one exchange ends. -/
def sharedRun : List NodeEvent :=
  [.connect 0, .request 0 0 false true, .clientAbort 0, .request 1 0 false true, .clientAbort 1,
    .endResponse 0, .closeResponse 0]

theorem wire_accounting_shared : ∃ w, (nodeServer true).runFrom createNodeServer sharedRun =
    some w ∧ w.tracker.queued 0 = 1 ∧ (w.wire.socketCloses.attached 0).length = 1 ∧
      w.wire.wireInFlight = w.dispatched.countP (Awaited w) :=
  ⟨_, rfl, rfl, rfl,
    (wire_accounting (Lts.reachable_of_run (L := nodeServer true) sharedRun rfl)).1⟩

/-! ### What a signal says -/

/-- The clients that are found gone: of responses that had not ended, and of
early answers. -/
def Told (w w' : NodeServer) : Prop :=
  ∀ out, w'.wire.disconnected out = true → w.wire.disconnected out = true ∨
    w.transport.writableEnded out = false ∨ .abandoned ∈ w.transport.listeners out

theorem Told.of_wire (h : w'.wire.disconnected = w.wire.disconnected) : Told w w' :=
  fun out hout => .inl (by rwa [h] at hout)

theorem Told.clientAbort (w : NodeServer) (out : ResponseId) : Told w (w.clientAbort out) := by
  rw [NodeServer.clientAbort]
  dsimp only
  split
  · exact .of_wire rfl
  · next hopen =>
      split
      · intro other hother
        change Function.update w.wire.disconnected out true other = true at hother
        by_cases heq : other = out
        · subst heq
          refine .inr (.inl (Bool.not_eq_true _ ▸ fun hended => hopen ?_))
          show (w.wire.disconnected other || w.transport.writableEnded other) = true
          rw [hended, Bool.or_true]
        · rw [Function.update_of_ne heq] at hother
          exact .inl hother
      · exact .of_wire rfl

theorem WireInv.told_closeResponse (h : WireInv tracked w) (out : ResponseId) :
    Told w (w.closeResponse tracked out) := by
  obtain ⟨hends, -⟩ := closeResponse_spec h out
  intro other hother
  rcases hends.cause other hother with hold | ⟨hended, -⟩ | hmem
  · exact .inl hold
  · exact .inr (.inl hended)
  · obtain ⟨rfl, habandoned⟩ := CloseListener.mem_torn.mp hmem
    exact .inr (.inr habandoned)

theorem WireInv.told_closeSocket (h : WireInv tracked w) (s : SocketId) :
    Told w (w.closeSocket tracked s) := by
  obtain ⟨-, hends⟩ := closeSocket_spec h s
  intro out hout
  rcases hends.cause out hout with hold | ⟨hended, -⟩ | hmem
  · exact .inl hold
  · exact .inr (.inl hended)
  · obtain ⟨onDone, -, hnone⟩ := List.mem_flatMap.mp hmem
    cases hnone

theorem told_dispatch (w : NodeServer) (out : ResponseId) (s : SocketId) (bound valid : Bool) :
    Told w (w.dispatch tracked out s bound valid) := by
  rw [NodeServer.dispatch]
  split
  · rw [NodeServer.track]
    split
    · dsimp only
      split
      · exact .of_wire (congrArg Wire.disconnected (Calm.watch _ s).wire)
      · exact .of_wire rfl
    · exact .of_wire rfl
  · exact .of_wire rfl

theorem WireInv.told_step (h : WireInv tracked w) {e : NodeEvent}
    (hstep : w.step tracked e = some w') : Told w w' := by
  cases e with
  | connect s =>
      simp only [NodeServer.step, Option.ite_none_left_eq_some, Option.some_inj] at hstep
      obtain ⟨-, rfl⟩ := hstep
      rw [NodeServer.connect]
      split
      · exact .of_wire rfl
      · exact .of_wire rfl
  | request out s bound valid =>
      simp only [NodeServer.step, Option.ite_none_right_eq_some, Option.some_inj] at hstep
      obtain ⟨-, rfl⟩ := hstep
      exact told_dispatch w out s bound valid
  | clientAbort out =>
      simp only [NodeServer.step, Option.ite_none_right_eq_some, Option.some_inj] at hstep
      obtain ⟨-, rfl⟩ := hstep
      exact .clientAbort w out
  | abandon out =>
      simp only [NodeServer.step, Option.ite_none_right_eq_some, Option.some_inj] at hstep
      obtain ⟨-, rfl⟩ := hstep
      exact .of_wire rfl
  | endResponse out =>
      simp only [NodeServer.step, Option.ite_none_right_eq_some, Option.some_inj] at hstep
      obtain ⟨-, rfl⟩ := hstep
      exact .of_wire rfl
  | finishResponse out =>
      simp only [NodeServer.step, Option.ite_none_right_eq_some, Option.some_inj] at hstep
      obtain ⟨-, rfl⟩ := hstep
      exact .of_wire rfl
  | closeResponse out =>
      simp only [NodeServer.step, Option.ite_none_right_eq_some, Option.some_inj] at hstep
      obtain ⟨-, rfl⟩ := hstep
      exact h.told_closeResponse out
  | destroySocket s =>
      simp only [NodeServer.step, Option.ite_none_right_eq_some, Option.some_inj] at hstep
      obtain ⟨-, rfl⟩ := hstep
      exact .of_wire rfl
  | closeSocket s =>
      simp only [NodeServer.step, Option.ite_none_right_eq_some, Option.some_inj] at hstep
      obtain ⟨-, rfl⟩ := hstep
      exact h.told_closeSocket s
  | stopGraceful finite settled =>
      simp only [NodeServer.step, Option.ite_none_left_eq_some, Option.some_inj] at hstep
      obtain ⟨-, rfl⟩ := hstep
      exact .of_wire (congrArg Wire.disconnected (Calm.stopGraceful w tracked finite settled).wire)
  | appSettled =>
      simp only [NodeServer.step] at hstep
      split at hstep
      · cases hstep
      · simp only [Option.ite_none_left_eq_some, Option.some_inj] at hstep
        obtain ⟨-, rfl⟩ := hstep
        exact .of_wire (congrArg Wire.disconnected (Calm.trySettle _ tracked).wire)
  | drainTimer =>
      simp only [NodeServer.step] at hstep
      split at hstep
      · cases hstep
      · simp only [Option.ite_none_right_eq_some, Option.some_inj] at hstep
        obtain ⟨-, rfl⟩ := hstep
        exact .of_wire (congrArg Wire.disconnected (Calm.finish w tracked true).wire)
  | force =>
      simp only [NodeServer.step, Option.ite_none_right_eq_some, Option.some_inj] at hstep
      obtain ⟨-, rfl⟩ := hstep
      exact .of_wire (congrArg Wire.disconnected (Calm.finish w tracked true).wire)

/-- Once the response or the socket of an exchange has closed, its signal is
aborted unless the response had ended; a client is found gone only when its
response has closed or its socket is destroyed, and only while the response
has not ended or is an early answer. -/
theorem client_abort (h : (nodeServer tracked).Reachable w) :
    (∀ out, w.wire.abort out = true →
      w.transport.closed out = true ∨ w.transport.gone (w.transport.socket out) = true →
        w.wire.disconnected out = true ∨ w.transport.writableEnded out = true) ∧
      (∀ out, w.wire.disconnected out = true → w.transport.closed out = true ∨
        w.transport.destroyed (w.transport.socket out) = true) ∧
      ∀ e w', w.step tracked e = some w' → ∀ out, w.wire.disconnected out = false →
        w'.wire.disconnected out = true →
          w.transport.writableEnded out = false ∨ .abandoned ∈ w.transport.listeners out := by
  have hinv := wireInv_of_reachable h
  refine ⟨fun out habort hover => ?_, hinv.cause, fun e w' hstep out hbefore hafter => ?_⟩
  · refine (hinv.signal out habort).resolve_left fun hwatch => ?_
    obtain ⟨hopen, halive⟩ := hinv.watched out hwatch
    rcases hover with hclosed | hgone
    · exact Bool.false_ne_true (hopen.symm.trans hclosed)
    · exact Bool.false_ne_true (halive.symm.trans hgone)
  · refine (hinv.told_step hstep out hafter).resolve_left ?_
    rw [hbefore]
    exact Bool.false_ne_true

/-- The socket closes under two exchanges, of which one has ended. -/
theorem client_abort_shared : ∃ w, (nodeServer true).runFrom createNodeServer
    (sharedRun ++ [.closeSocket 0]) = some w ∧ w.wire.disconnected 0 = false ∧
      w.transport.writableEnded 1 = false ∧
      (w.wire.disconnected 1 = true ∨ w.transport.writableEnded 1 = true) :=
  ⟨_, rfl, rfl, rfl, (client_abort (Lts.reachable_of_run (L := nodeServer true)
    (sharedRun ++ [.closeSocket 0]) rfl)).1
    1 rfl (.inr rfl)⟩

end Keala.Adapters
