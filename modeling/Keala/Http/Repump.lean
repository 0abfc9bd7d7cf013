import Keala.Http.ReadableStream

/-!
The body re-pump (`repumpStream` of `src/utils/streams.ts`, `holdBody` of
`src/core/lifecycle.ts`): a fresh stream whose pull reads the source, the hooks
it calls, and the steps of a consumer, of the source and of the callbacks in any
order. The hooks do not throw.
-/

namespace Keala.Http

variable {Chunk Err : Type}

/-! ### The source -/

inductive SourceEnding (Err : Type)
  | ended
  | failed (error : Err)
  | stalled
  deriving DecidableEq

/-- The chunks that were not read yet, and what comes after them. -/
structure PumpSource (Chunk Err : Type) where
  remaining : List Chunk
  ending : SourceEnding Err
  cancelled : Bool := false
  deriving DecidableEq

inductive Settled (Chunk Err : Type)
  | chunk (value : Chunk)
  | done
  | failed (error : Err)
  deriving DecidableEq

inductive SourceRead (Chunk Err : Type)
  | idle
  | waiting
  | settled (result : Settled Chunk Err)
  deriving DecidableEq

/-- A read that waits is told that nothing comes. -/
def SourceRead.told : SourceRead Chunk Err → SourceRead Chunk Err
  | .waiting => .settled .done
  | read => read

/-! ### The pump -/

inductive HookCall (Err : Type)
  | onLocked
  | onFinish
  | onReadError (error : Err)
  deriving DecidableEq

structure Repump (Chunk Err : Type) where
  stream : ReadableStream Chunk Err := {}
  source : PumpSource Chunk Err
  /-- The read that the last `pull` awaits. -/
  read : SourceRead Chunk Err := .idle
  /-- The last `pull` has returned, and the stream has not been told yet. -/
  returned : Bool := false
  finished : Bool := false
  calls : List (HookCall Err) := []
  deriving DecidableEq

/-- The hooks called at once, and the pump unless the body is locked. -/
def repumpStream (locked : Bool) (chunks : List Chunk) (ending : SourceEnding Err) :
    List (HookCall Err) × Option (Repump Chunk Err) :=
  if locked then ([.onLocked], none)
  else ([], some { source := { remaining := chunks, ending := ending } })

namespace Repump

/-- The stream after an operation that may have called `pull`. -/
def withStream (pump : Repump Chunk Err) (next : ReadableStream Chunk Err × Bool) :
    Repump Chunk Err :=
  if next.2 then { pump with stream := next.1, read := .waiting }
  else { pump with stream := next.1 }

def finish (pump : Repump Chunk Err) : Repump Chunk Err :=
  if pump.finished then pump
  else { pump with finished := true, calls := pump.calls ++ [.onFinish] }

def resume (pump : Repump Chunk Err) : Settled Chunk Err → Repump Chunk Err
  | .done =>
      match pump.stream.close with
      | some stream => finish { pump with stream := stream }
      | none => pump.finish
  | .failed error =>
      finish { pump with
        stream := pump.stream.error error
        calls := pump.calls ++ [.onReadError error] }
  | .chunk value =>
      match pump.stream.enqueue value with
      | some next => pump.withStream next
      | none => pump.finish

def cancelSource (pump : Repump Chunk Err) : Repump Chunk Err :=
  { pump with
    source := { pump.source with cancelled := true }
    read := pump.read.told }

/-- What a waiting read comes to; none while the source stalls. -/
def settle (pump : Repump Chunk Err) : Option (Repump Chunk Err) :=
  match pump.source.remaining, pump.source.ending with
  | value :: remaining, _ =>
      some { pump with
        source := { pump.source with remaining := remaining }
        read := .settled (.chunk value) }
  | [], .ended => some { pump with read := .settled .done }
  | [], .failed error => some { pump with read := .settled (.failed error) }
  | [], .stalled => none

end Repump

inductive RepumpEvent
  | read
  | cancel
  | start
  | settle
  | resume
  | pullFulfilled
  deriving DecidableEq

/-- None where the event cannot happen. -/
def Repump.step (pump : Repump Chunk Err) : RepumpEvent → Option (Repump Chunk Err)
  | .read => some (pump.withStream pump.stream.read)
  | .cancel =>
      let next := pump.stream.cancel
      if next.2 then some (cancelSource { pump with stream := next.1 }).finish else some pump
  | .start => if pump.stream.started then none else some (pump.withStream pump.stream.start)
  | .settle =>
      match pump.read with
      | .waiting => pump.settle
      | _ => none
  | .resume =>
      match pump.read with
      | .settled result => some { resume { pump with read := .idle } result with returned := true }
      | _ => none
  | .pullFulfilled =>
      if pump.returned then some ({ pump with returned := false }.withStream
        pump.stream.pullFulfilled)
      else none

def Repump.after (chunks : List Chunk) (ending : SourceEnding Err) (events : List RepumpEvent) :
    Option (Repump Chunk Err) :=
  (repumpStream false chunks ending).2.bind fun pump => events.foldlM Repump.step pump

/-! ### Holding a slot while a body is read -/

/-- `releaseHold`, which both hooks of `holdBody` call; the number counts the slots released. -/
def releaseHold (hold : Bool × ℕ) : HookCall Err → Bool × ℕ
  | .onReadError _ => hold
  | _ => if hold.1 then hold else (true, hold.2 + 1)

def heldReleases (calls : List (HookCall Err)) : ℕ := (calls.foldl releaseHold (false, 0)).2

end Keala.Http
