import Keala.Lib.Lts
import Keala.Lib.SharedListener
import Mathlib.Data.Int.Notation

/-!
The wire side of the Node adapter: the responses that are still on the wire
(`src/adapters/node.ts`), the connections of a drain (`src/adapters/node-drain.ts`)
and the one `close` listener of a socket (`src/adapters/node-socket-fanout.ts`).
An event is one callback of the event loop, and what the application does in
between is an event of its own. What a real `node:http` server does on its own
accord, `closeIdleConnections()` among it, is the event that destroys a socket.
-/

namespace Keala.Adapters

abbrev SocketId := ℕ

abbrev ResponseId := ℕ

inductive Subscriber
  /-- `() => onWireDone.call(out)`. -/
  | wireDone (out : ResponseId)
  /-- The `closed` of `watchNodeDisconnect`. -/
  | closed (out : ResponseId)
  deriving DecidableEq

inductive CloseListener
  | onWireDone
  | responseClosed
  /-- The `closed` of `watchNodeDisconnect`. -/
  | closed
  /-- The teardown of an early answer. -/
  | abandoned
  deriving DecidableEq

/-- What `node:http` itself knows of its sockets and responses. -/
structure Transport where
  connected : SocketId → Bool
  destroyed : SocketId → Bool
  /-- The socket has emitted its `close`. -/
  gone : SocketId → Bool
  /-- `incoming.socket`. -/
  socket : ResponseId → SocketId
  writableEnded : ResponseId → Bool
  writableFinished : ResponseId → Bool
  /-- The response has emitted its `close`. -/
  closed : ResponseId → Bool
  listeners : ResponseId → List CloseListener

/-- The tracker of `createNodeDrainTracker`, the fields of its connections by
their sockets. -/
structure DrainTracker where
  connections : List SocketId
  pending : List SocketId
  notify : Bool
  queued : SocketId → ℤ
  last : SocketId → Option ResponseId
  watched : SocketId → Option ResponseId
  observed : ResponseId → Option SocketId
  heldCloses : ResponseId → Bool

/-- The properties that the adapter keeps on its responses and their sources. -/
structure Wire where
  wireInFlight : ℤ
  /-- `WIRE_SOURCE`, and whether it is a source or `null`. -/
  wireSource : ResponseId → Option Bool
  wireRelease : ResponseId → Bool
  wireFanout : ResponseId → Option ℕ
  socketCloses : SharedListener.Heap SocketId Subscriber
  /-- `source._abort` has been materialized. -/
  abort : ResponseId → Bool
  /-- The registration of a `watchNodeDisconnect` that is not done. -/
  watching : ResponseId → Option ℕ
  disconnected : ResponseId → Bool

structure StopRun where
  /-- `done`, with the `timedOut` that it resolved to. -/
  done : Option Bool
  timer : Bool
  appSettled : Bool
  /-- `trySettle` is in `wireWaiters`. -/
  waiting : Bool

structure NodeServer where
  transport : Transport
  tracker : DrainTracker
  wire : Wire
  stop : Option StopRun
  /-- The dispatched exchanges, in order. -/
  dispatched : List ResponseId
  /-- `connectionTracked` of an exchange. -/
  connectionTracked : ResponseId → Bool
  /-- The exchange has a `NodeRequestSource`. -/
  sourced : ResponseId → Bool

def createNodeServer : NodeServer where
  transport := ⟨fun _ => false, fun _ => false, fun _ => false, fun _ => 0, fun _ => false,
    fun _ => false, fun _ => false, fun _ => []⟩
  tracker := ⟨[], [], false, fun _ => 0, fun _ => none, fun _ => none, fun _ => none,
    fun _ => false⟩
  wire := ⟨0, fun _ => none, fun _ => false, fun _ => none, .empty, fun _ => false, fun _ => none,
    fun _ => false⟩
  stop := none
  dispatched := []
  connectionTracked := fun _ => false
  sourced := fun _ => false

namespace NodeServer

variable (w : NodeServer)

def setListeners (out : ResponseId) (listeners : List CloseListener) : NodeServer :=
  { w with transport :=
      { w.transport with listeners := Function.update w.transport.listeners out listeners } }

def destroySocket (s : SocketId) : NodeServer :=
  { w with transport :=
      { w.transport with destroyed := Function.update w.transport.destroyed s true } }

/-! ### The drain tracker -/

def unwatch (s : SocketId) : NodeServer :=
  match w.tracker.watched s with
  | none => w
  | some out =>
      let w := w.setListeners out ((w.transport.listeners out).erase .responseClosed)
      { w with tracker :=
          { w.tracker with
            observed := Function.update w.tracker.observed out none
            watched := Function.update w.tracker.watched s none } }

def flushed (out : ResponseId) : Bool :=
  w.transport.writableFinished out && !w.tracker.heldCloses out

def watch (s : SocketId) : NodeServer :=
  let w := w.unwatch s
  match w.tracker.last s with
  | none => { w with tracker := { w.tracker with pending := w.tracker.pending.erase s } }
  | some out =>
      if w.flushed out && !w.transport.destroyed s then
        { w with tracker := { w.tracker with pending := w.tracker.pending.erase s } }
      else
        let w := w.setListeners out (w.transport.listeners out ++ [.responseClosed])
        { w with tracker :=
            { w.tracker with
              pending := w.tracker.pending.insert s
              watched := Function.update w.tracker.watched s (some out)
              observed := Function.update w.tracker.observed out (some s) } }

def track (out : ResponseId) (s : SocketId) : NodeServer :=
  if s ∈ w.tracker.connections then
    let w :=
      { w with tracker :=
          { w.tracker with last := Function.update w.tracker.last s (some out) } }
    if w.tracker.notify then w.watch s else w
  else w

def startDrain : NodeServer :=
  w.tracker.connections.foldl watch { w with tracker := { w.tracker with notify := true } }

def idle (s : SocketId) : Bool :=
  decide (w.tracker.queued s = 0) &&
    match w.tracker.last s with
    | none => true
    | some out => w.flushed out

def closeIdle : NodeServer :=
  { w with transport :=
      { w.transport with
        destroyed := fun s =>
          w.transport.destroyed s || (decide (s ∈ w.tracker.connections) && w.idle s) } }

def stopDrain : NodeServer :=
  let w := w.tracker.pending.foldl unwatch { w with tracker := { w.tracker with notify := false } }
  { w with tracker := { w.tracker with pending := [] } }

/-! ### The graceful stop -/

def closeAllConnections : NodeServer :=
  { w with transport :=
      { w.transport with
        destroyed := fun s => w.transport.destroyed s || w.transport.connected s } }

/-- The first part of `finish`: nothing waits for the stop any more. -/
def retire (tracked : Bool) (run : StopRun) : NodeServer :=
  let w := { w with stop := some run }
  if tracked then w.stopDrain else w

/-- `finish` of `stopGraceful`; `tracked` says that there is a tracker. -/
def finish (tracked timedOut : Bool) : NodeServer :=
  match w.stop with
  | none => w
  | some run =>
      if run.done.isSome then w
      else
        let w :=
          w.retire tracked { run with done := some timedOut, timer := false, waiting := false }
        if timedOut then w.closeAllConnections
        else if tracked then w.closeIdle
        else w

def trySettle (tracked : Bool) : NodeServer :=
  match w.stop with
  | none => w
  | some run =>
      if w.wire.wireInFlight = 0 ∧ w.tracker.pending = [] ∧ run.appSettled then
        w.finish tracked false
      else w

def notifyDrain : NodeServer := if w.tracker.notify then w.trySettle true else w

/-- `stopGraceful`: whether the drain is finite, and whether the counter of the
application was at zero already. -/
def stopGraceful (tracked finite settled : Bool) : NodeServer :=
  let w := if tracked then w.closeIdle else w
  let w := if tracked then w.startDrain else w
  { w with stop := some ⟨none, finite, settled, true⟩ }.trySettle tracked

/-! ### The end of an exchange -/

def disconnect (out : ResponseId) : NodeServer :=
  { w with wire :=
      { w.wire with disconnected := Function.update w.wire.disconnected out true } }

/-- The exchange of `out` leaves the wire: its place in the queue of the
connection and its registration on the socket are given back. -/
def leaveWire (out : ResponseId) (source : Bool) : NodeServer :=
  let s := w.transport.socket out
  { w with
    wire := { w.wire with
      wireSource := Function.update w.wire.wireSource out none
      wireInFlight := w.wire.wireInFlight - 1
      wireRelease := Function.update w.wire.wireRelease out false
      wireFanout := Function.update w.wire.wireFanout out none
      socketCloses := match w.wire.wireFanout out with
        | some entry => w.wire.socketCloses.unsubscribe s entry (.wireDone out)
        | none => w.wire.socketCloses
      disconnected :=
        if !w.transport.writableEnded out && source then
          Function.update w.wire.disconnected out true
        else w.wire.disconnected }
    tracker := { w.tracker with
      queued :=
        if w.wire.wireRelease out then
          Function.update w.tracker.queued s (w.tracker.queued s - 1)
        else w.tracker.queued } }

def wakeWaiters (tracked : Bool) : NodeServer :=
  match w.stop with
  | some run =>
      if w.wire.wireInFlight = 0 ∧ run.waiting then w.trySettle tracked else w
  | none => w

def onWireDone (tracked : Bool) (out : ResponseId) : NodeServer :=
  match w.wire.wireSource out with
  | none => w
  | some source => (w.leaveWire out source).wakeWaiters tracked

def responseClosed (out : ResponseId) : NodeServer :=
  match w.tracker.observed out with
  | none => w
  | some s =>
      if w.tracker.last s = some out then
        let w := w.unwatch s
        { w with tracker := { w.tracker with pending := w.tracker.pending.erase s } }.notifyDrain
      else w

def watcherClosed (out : ResponseId) : NodeServer :=
  match w.wire.watching out with
  | none => w
  | some entry =>
      let w := w.setListeners out ((w.transport.listeners out).erase .closed)
      { w with wire :=
        { w.wire with
          watching := Function.update w.wire.watching out none
          socketCloses :=
            w.wire.socketCloses.unsubscribe (w.transport.socket out) entry (.closed out)
          disconnected :=
            if w.transport.writableEnded out then w.wire.disconnected
            else Function.update w.wire.disconnected out true } }

def abandonedClosed (out : ResponseId) : NodeServer :=
  let w := (w.disconnect out).destroySocket (w.transport.socket out)
  { w with tracker :=
      { w.tracker with heldCloses := Function.update w.tracker.heldCloses out false } }

def runListener (tracked : Bool) (out : ResponseId) : CloseListener → NodeServer
  | .onWireDone => w.onWireDone tracked out
  | .responseClosed => w.responseClosed out
  | .closed => w.watcherClosed out
  | .abandoned => w.abandonedClosed out

def runSubscriber (tracked : Bool) : Subscriber → NodeServer
  | .wireDone out => w.onWireDone tracked out
  | .closed out => w.watcherClosed out

/-! ### The events -/

def connect (tracked : Bool) (s : SocketId) : NodeServer :=
  let w := { w with transport :=
    { w.transport with connected := Function.update w.transport.connected s true } }
  if tracked then
    { w with tracker := { w.tracker with connections := w.tracker.connections ++ [s] } }
  else w

def trackWire (tracked : Bool) (out : ResponseId) (s : SocketId) (source : Bool) : NodeServer :=
  -- `queue` finds the connection of the socket, or returns nothing.
  let release := tracked && decide (s ∈ w.tracker.connections)
  let (heap, entry) := w.wire.socketCloses.subscribe s (.wireDone out)
  let w := w.setListeners out (w.transport.listeners out ++ [.onWireDone])
  { w with
    wire := { w.wire with
      wireSource := Function.update w.wire.wireSource out (some source)
      wireRelease := Function.update w.wire.wireRelease out release
      wireFanout := Function.update w.wire.wireFanout out (some entry)
      socketCloses := heap }
    tracker := { w.tracker with
      queued :=
        if release then Function.update w.tracker.queued s (w.tracker.queued s + 1)
        else w.tracker.queued } }

def arrive (out : ResponseId) (s : SocketId) (connectionTracked valid : Bool) : NodeServer :=
  { w with
    transport := { w.transport with socket := Function.update w.transport.socket out s }
    dispatched := w.dispatched ++ [out]
    connectionTracked := Function.update w.connectionTracked out connectionTracked
    sourced := Function.update w.sourced out valid }

/-- `dispatch` of an exchange on a socket: whether its response is assigned to
the socket, and whether its target makes a source. -/
def dispatch (tracked : Bool) (out : ResponseId) (s : SocketId) (bound valid : Bool) :
    NodeServer :=
  let w := w.arrive out s (tracked && bound) valid
  if tracked && bound then w.track out s
  else
    let w := { w with wire := { w.wire with wireInFlight := w.wire.wireInFlight + 1 } }
    w.trackWire tracked out s valid

/-- `clientAbort()` of a source, with its `watchNodeDisconnect`; a response that has
closed is the one whose `destroyed` is set. -/
def clientAbort (out : ResponseId) : NodeServer :=
  let w := { w with wire := { w.wire with abort := Function.update w.wire.abort out true } }
  let s := w.transport.socket out
  if w.wire.disconnected out || w.transport.writableEnded out then w
  else if w.transport.closed out || w.transport.destroyed s then w.disconnect out
  else
    let w := w.setListeners out (w.transport.listeners out ++ [.closed])
    let (heap, entry) := w.wire.socketCloses.subscribe s (.closed out)
    { w with wire :=
      { w.wire with
        watching := Function.update w.wire.watching out (some entry)
        socketCloses := heap } }

def abandon (out : ResponseId) : NodeServer :=
  let w := { w with tracker :=
    { w.tracker with heldCloses := Function.update w.tracker.heldCloses out true } }
  w.setListeners out (w.transport.listeners out ++ [.abandoned])

def closeResponse (tracked : Bool) (out : ResponseId) : NodeServer :=
  let fired := w.transport.listeners out
  let w := { w with transport :=
    { w.transport with
      closed := Function.update w.transport.closed out true
      listeners := Function.update w.transport.listeners out [] } }
  fired.foldl (fun w listener => w.runListener tracked out listener) w

def connectionClosed (s : SocketId) : NodeServer :=
  let w := w.unwatch s
  { w with tracker :=
      { w.tracker with
        connections := w.tracker.connections.erase s
        pending := w.tracker.pending.erase s
        last := Function.update w.tracker.last s none } }.notifyDrain

def closeSocket (tracked : Bool) (s : SocketId) : NodeServer :=
  let handlers := w.wire.socketCloses.attached s
  let w := { w with transport :=
    { w.transport with
      destroyed := Function.update w.transport.destroyed s true
      gone := Function.update w.transport.gone s true } }
  let w := if tracked then w.connectionClosed s else w
  handlers.foldl (fun w entry =>
    (w.wire.socketCloses.members entry).foldl (fun w onDone => w.runSubscriber tracked onDone) w) w

end NodeServer

inductive NodeEvent
  | connect (s : SocketId)
  | request (out : ResponseId) (s : SocketId) (bound valid : Bool)
  | clientAbort (out : ResponseId)
  /-- The answer comes while the body is still being read. -/
  | abandon (out : ResponseId)
  /-- `out.end()`. -/
  | endResponse (out : ResponseId)
  /-- The last byte of the response has been flushed. -/
  | finishResponse (out : ResponseId)
  | closeResponse (out : ResponseId)
  | destroySocket (s : SocketId)
  | closeSocket (s : SocketId)
  | stopGraceful (finite settled : Bool)
  /-- The counter of the application reaches zero. -/
  | appSettled
  | drainTimer
  /-- The force routine that `stopGraceful` registered. -/
  | force

/-- What an event makes of the server; requests arrive on open sockets, a
socket and a response close once, and a server is stopped once. -/
def NodeServer.step (tracked : Bool) (w : NodeServer) : NodeEvent → Option NodeServer
  | .connect s => if w.transport.connected s then none else some (w.connect tracked s)
  | .request out s bound valid =>
      if out ∉ w.dispatched ∧ w.transport.connected s ∧ !w.transport.gone s then
        some (w.dispatch tracked out s bound valid)
      else none
  | .clientAbort out =>
      if out ∈ w.dispatched ∧ w.sourced out ∧ !w.wire.abort out then some (w.clientAbort out)
      else none
  | .abandon out =>
      if out ∈ w.dispatched ∧ w.sourced out ∧ !w.transport.writableEnded out ∧
          !w.tracker.heldCloses out then some (w.abandon out)
      else none
  | .endResponse out =>
      if out ∈ w.dispatched then
        some { w with transport :=
          { w.transport with writableEnded := Function.update w.transport.writableEnded out true } }
      else none
  | .finishResponse out =>
      if w.transport.writableEnded out then
        some { w with transport :=
          { w.transport with
            writableFinished := Function.update w.transport.writableFinished out true } }
      else none
  | .closeResponse out =>
      if out ∈ w.dispatched ∧ !w.transport.closed out then some (w.closeResponse tracked out)
      else none
  | .destroySocket s =>
      if w.transport.connected s then some (w.destroySocket s) else none
  | .closeSocket s =>
      if w.transport.connected s ∧ !w.transport.gone s then some (w.closeSocket tracked s) else none
  | .stopGraceful finite settled =>
      if w.stop.isSome then none else some (w.stopGraceful tracked finite settled)
  | .appSettled =>
      match w.stop with
      | none => none
      | some run =>
          if run.appSettled then none
          else some ({ w with stop := some { run with appSettled := true } }.trySettle tracked)
  | .drainTimer =>
      match w.stop with
      | none => none
      | some run => if run.timer then some (w.finish tracked true) else none
  | .force => if w.stop.isSome then some (w.finish tracked true) else none

def nodeServer (tracked : Bool) : Lts NodeServer NodeEvent where
  start := createNodeServer
  step := NodeServer.step tracked

end Keala.Adapters
