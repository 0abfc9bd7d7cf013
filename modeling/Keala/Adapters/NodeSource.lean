import Keala.Lib.Lts
import Keala.Plugins.BodyReaders

/-!
The request source of the Node adapter: the message of a request, the read of
its body, and the channel that reports that the client is gone.

The message, its listeners and the callers act in any order. Of a web stream
over the message only its lock and its use are kept; what it delivers is left
open.
-/

namespace Keala.Adapters

open Js Plugins

inductive Reason (Err : Type)
  /-- The abort error `client disconnected`. -/
  | clientDisconnected
  /-- The abort error `early answer abandoned the body`. -/
  | earlyAnswer
  | error (error : Err)
  /-- A value that is no `Error`, and not `undefined`. -/
  | other (value : ℕ)
  deriving DecidableEq

inductive ReadFailure (Err : Type)
  | body (error : BodyError)
  /-- `client disconnected while reading request`. -/
  | aborted
  /-- `request body abandoned`. -/
  | abandoned
  | disconnected (reason : Reason Err)
  | error (error : Err)

def Reason.failure {Err : Type} : Reason Err → ReadFailure Err
  | .other _ => .abandoned
  | reason => .disconnected reason

structure IncomingMessage where
  contentLength : Option JsString
  transferEncoding : Option JsString
  /-- The chunks that the parser has delivered. -/
  pushed : List (List UInt8) := []
  /-- The delivered chunks that no `data` event has carried. -/
  buffered : List (List UInt8) := []
  complete : Bool := false
  flowing : Bool := false
  readableEnded : Bool := false
  destroyed : Bool := false
  onData : Bool := false
  onEnd : Bool := false
  onAborted : Bool := false
  onError : Bool := false

/-- A call of `#readIncoming`. -/
structure OwnedRead (Err : Type) where
  limit : Number
  chunks : List (List UInt8) := []
  total : ℕ := 0
  settled : Option (Except (ReadFailure Err) (List UInt8)) := none
  /-- The message had ended or was destroyed, or the client was gone, before the call. -/
  late : Bool

inductive BytesPromise (Err : Type)
  | empty
  /-- The read of the web stream. -/
  | web (limit : Number)
  | incoming (read : OwnedRead Err)

structure WebBody where
  locked : Bool
  used : Bool

inductive RequestView
  | streamed
  | consumed
  deriving DecidableEq

inductive EarlyAnswer
  | none
  | waiting
  | closed
  deriving DecidableEq

structure NodeRequestSource (Err : Type) where
  method : JsString
  incoming : IncomingMessage
  bodyCap : Number
  /-- `_response` is there. -/
  response : Bool
  /-- `_body`; `some none` is `null`. -/
  body : Option (Option WebBody) := none
  request : Option RequestView := none
  bytes : Option (BytesPromise Err) := none
  bodyOwned : Bool := false
  pendingRead : Bool := false
  /-- `_abort`, with the reason of its signal. -/
  abort : Option (Option (Reason Err)) := none
  disconnected : Option (Reason Err) := none
  /-- The registrations of `watchNodeDisconnect` are not done. -/
  watching : Bool := false
  answered : Bool := false
  early : EarlyAnswer := .none
  /-- `cleanupUnread` has set the message going. -/
  drained : Bool := false
  /-- The chunks that were given away before the read. -/
  lost : List (List UInt8) := []
  /-- The chunks that the read was given. -/
  heard : List (List UInt8) := []

inductive OutState
  | ended
  | gone
  | live

def mayCarryBody (method : JsString) : Bool := method ≠ js "GET" && method ≠ js "HEAD"

def bufferConcat (list : List (List UInt8)) (total : ℕ) : List UInt8 :=
  list.flatten.take total ++ List.replicate (total - list.flatten.length) 0

def OwnedRead.concat {Err : Type} (read : OwnedRead Err) : List UInt8 :=
  match read.chunks with
  | [] => []
  | [chunk] => chunk
  | chunks => bufferConcat chunks read.total

namespace NodeRequestSource

variable {Err : Type} (s : NodeRequestSource Err)

/-! ### The read of the message -/

def setRead (read : OwnedRead Err) : NodeRequestSource Err :=
  { s with bytes := some (.incoming read) }

def cleanup : NodeRequestSource Err :=
  { s with
    pendingRead := false
    incoming :=
      { s.incoming with onData := false, onEnd := false, onAborted := false, onError := false } }

def resume : NodeRequestSource Err := { s with incoming := { s.incoming with flowing := true } }

def fail (failure : ReadFailure Err) : NodeRequestSource Err :=
  match s.bytes with
  | some (.incoming read) =>
      if read.settled.isSome then s
      else s.cleanup.setRead { read with settled := some (.error failure) }
  | _ => s

def onData (chunk : List UInt8) : NodeRequestSource Err :=
  match s.bytes with
  | some (.incoming read) =>
      let read := { read with total := read.total + chunk.length }
      if read.limit.lt (.ofNat read.total) then
        ((s.setRead read).fail (.body (.tooLarge read.limit none))).resume
      else s.setRead { read with chunks := read.chunks ++ [chunk] }
  | _ => s

def onEnd : NodeRequestSource Err :=
  match s.bytes with
  | some (.incoming read) =>
      if read.settled.isSome then s
      else s.cleanup.setRead { read with settled := some (.ok read.concat) }
  | _ => s

def readIncoming (limit : Number) : NodeRequestSource Err :=
  { s with
    pendingRead := true
    incoming :=
      { s.incoming with
        flowing := true, onData := true, onEnd := true, onAborted := true, onError := true }
    bytes := some (.incoming
      { limit
        late := s.incoming.readableEnded || s.incoming.destroyed || s.disconnected.isSome }) }

/-! ### The views of the body -/

def bodyless : Bool :=
  !mayCarryBody s.method ||
    (s.incoming.contentLength.isNone && s.incoming.transferEncoding.isNone) ||
    s.incoming.contentLength = some (js "0")

def getBody : NodeRequestSource Err :=
  if s.body.isSome then s
  else if s.bodyless then { s with body := some none }
  else
    { s with
      bodyOwned := true
      incoming := { s.incoming with flowing := true }
      body := some (some ⟨false, false⟩) }

def getRequest : NodeRequestSource Err :=
  if s.request.isSome then s
  else if s.bytes.isSome && mayCarryBody s.method then { s with request := some .consumed }
  else { s.getBody with request := some .streamed }

def readBytes (limit : Number) : NodeRequestSource Err :=
  let limit := limit.min s.bodyCap
  if s.bytes.isSome then s
  else
    let s := { s with bodyOwned := true }
    if s.request.isSome || s.body.isSome then
      let s := s.getRequest
      match s.body with
      | some (some _) => { s with bytes := some (.web limit), body := some (some ⟨true, true⟩) }
      | _ => { s with bytes := some .empty }
    else if s.bodyless then { s with bytes := some .empty }
    else s.readIncoming limit

def hasPendingOwnedRead : Bool :=
  let locked := match s.body with
    | some (some web) => web.locked
    | _ => false
  let bodyUsed := match s.request, s.body with
    | some .consumed, _ => true
    | some .streamed, some (some web) => web.used
    | _, _ => false
  (s.pendingRead || (locked || bodyUsed)) && !s.incoming.readableEnded

def cleanupUnread : NodeRequestSource Err :=
  if s.bodyOwned || s.incoming.readableEnded || s.incoming.destroyed then s
  else { s.resume with drained := true }

/-! ### The client -/

def destroy : NodeRequestSource Err :=
  if s.incoming.destroyed then s
  else
    let listening := s.incoming.onAborted && !s.incoming.readableEnded
    let s := { s with incoming := { s.incoming with destroyed := true } }
    if listening then
      { s with incoming := { s.incoming with onAborted := false } }.fail .aborted
    else s

def setDisconnected (reason : Reason Err) : NodeRequestSource Err :=
  { s with disconnected := some reason }

def failPending (failure : ReadFailure Err) : NodeRequestSource Err :=
  if s.pendingRead then s.fail failure else s

def signal (reason : Reason Err) : NodeRequestSource Err :=
  { s with abort := s.abort.map fun _ => some reason }

def destroyWeb : NodeRequestSource Err :=
  if s.body.join.isSome && !s.incoming.readableEnded then s.destroy else s

def disconnect (reason : Reason Err) : NodeRequestSource Err :=
  if s.disconnected.isSome then s
  else ((s.setDisconnected reason).failPending reason.failure |>.signal reason).destroyWeb

def clientAbort (out : OutState) : NodeRequestSource Err :=
  if s.abort.isSome then s
  else
    let s := { s with abort := some s.disconnected }
    if s.disconnected.isSome || !s.response then s
    else
      match out with
      | .ended => s
      | .gone => s.disconnect .clientDisconnected
      | .live => { s with watching := true }

def answer : NodeRequestSource Err :=
  let abandonedRead := s.hasPendingOwnedRead
  let s := if mayCarryBody s.method then s.cleanupUnread else s
  { s with answered := true, early := if abandonedRead then .waiting else s.early }

/-! ### The events -/

/-- A `data` event; without a listener the chunk is gone. -/
def emitData (chunk : List UInt8) (rest : List (List UInt8)) : NodeRequestSource Err :=
  let s := { s with incoming := { s.incoming with buffered := rest } }
  if s.incoming.onData then { s with heard := s.heard ++ [chunk] }.onData chunk
  else if s.bytes.isSome || s.body.isSome then s
  else { s with lost := s.lost ++ [chunk] }

def emitEnd : NodeRequestSource Err :=
  let listening := s.incoming.onEnd
  let s := { s with incoming := { s.incoming with readableEnded := true, onEnd := false } }
  if listening then s.onEnd else s

def emitError (error : Err) : NodeRequestSource Err :=
  let listening := s.incoming.onError
  let s := { s with incoming := { s.incoming with onError := false } }
  if listening then s.fail (.error error) else s

end NodeRequestSource

inductive SourceEvent (Err : Type)
  /-- The parser delivers a chunk. -/
  | push (chunk : List UInt8)
  /-- The parser delivers the end of the message. -/
  | complete
  /-- The message emits the next chunk, or its end. -/
  | emit
  /-- The message is torn down. -/
  | teardown
  | error (error : Err)
  | bytes (limit : Number)
  | request
  /-- Somebody reads, locks or releases the web stream. -/
  | useWeb (web : WebBody)
  | clientAbort (out : OutState)
  /-- The response or the socket has closed; whether the response had ended. -/
  | closed (ended : Bool)
  | disconnect (reason : Reason Err)
  | answer
  /-- The response of an early answer has closed. -/
  | earlyClosed

/-- The limit of a `bytes()` call. -/
def SourceEvent.asked {Err : Type} : SourceEvent Err → Option Number
  | bytes limit => some limit
  | _ => none

open NodeRequestSource in
def NodeRequestSource.step {Err : Type} (s : NodeRequestSource Err) :
    SourceEvent Err → Option (NodeRequestSource Err)
  | .push chunk =>
      if s.incoming.complete || s.incoming.destroyed then none
      else some { s with incoming :=
        { s.incoming with
          pushed := s.incoming.pushed ++ [chunk], buffered := s.incoming.buffered ++ [chunk] } }
  | .complete =>
      if s.incoming.complete || s.incoming.destroyed then none
      else some { s with incoming := { s.incoming with complete := true } }
  | .emit =>
      if !s.incoming.flowing || s.incoming.destroyed || s.incoming.readableEnded then none
      else
        match s.incoming.buffered with
        | chunk :: rest => some (s.emitData chunk rest)
        | [] => if s.incoming.complete then some s.emitEnd else none
  | .teardown => some s.destroy
  | .error error => some (s.emitError error)
  | .bytes limit => some (s.readBytes limit)
  | .request => some s.getRequest
  | .useWeb web =>
      match s.body with
      | some (some _) => some { s with body := some (some web) }
      | _ => none
  | .clientAbort out => some (s.clientAbort out)
  | .closed ended =>
      if s.watching then
        let s := { s with watching := false }
        some (if ended then s else s.disconnect .clientDisconnected)
      else none
  | .disconnect reason => some (s.disconnect reason)
  | .answer => if s.answered then none else some s.answer
  | .earlyClosed =>
      match s.early with
      | .waiting => some ({ s with early := .closed }.disconnect .earlyAnswer)
      | _ => none

/-- The request of a message with a method and the headers that frame it. -/
def nodeRequestSource (Err : Type) (method : JsString)
    (contentLength transferEncoding : Option JsString) (bodyCap : Number) (response : Bool) :
    Lts (NodeRequestSource Err) (SourceEvent Err) where
  start := { method, incoming := { contentLength, transferEncoding }, bodyCap, response }
  step := NodeRequestSource.step

end Keala.Adapters
