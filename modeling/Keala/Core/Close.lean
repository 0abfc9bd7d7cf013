import Keala.Core.Lifecycle
import Keala.Js.Text
import Mathlib.Data.Rat.Defs

/-!
Graceful close without a server (`closeApp` and `runShutdownHandlers` of
`src/core/lifecycle.ts`). A call of `close()` that a shutdown handler makes
before it returns or suspends runs inside the callback that started the handler.
-/

namespace Keala.Core

open Keala.Js

inductive Millis
  | nan
  | infinity
  | negInfinity
  | finite (value : ℚ)
  deriving DecidableEq

structure CloseOptions where
  drain : Option Millis
  shutdownTimeout : Option Millis

structure CloseStatus where
  timedOut : Bool
  inFlight : ℤ
  deriving DecidableEq

def DEFAULT_DRAIN_MS : ℚ := 30000

def DEFAULT_SHUTDOWN_TIMEOUT_MS : ℚ := 10000

def isValidDrain : Millis → Bool
  | .infinity => true
  | .finite value => 0 ≤ value
  | _ => false

def drainFault : JsString :=
  js "close() drain requires a non-negative number of milliseconds (or Infinity)"

def shutdownTimeoutFault : JsString :=
  js "close() shutdownTimeout requires a non-negative finite number of milliseconds " ++
    js "(0 waits indefinitely)"

/-- The drain and the cap of a handler, 0 for none, or the message of the `TypeError`. -/
def CloseOptions.checked (options : CloseOptions) : Except JsString (Millis × ℚ) :=
  let drain := options.drain.getD (.finite DEFAULT_DRAIN_MS)
  if isValidDrain drain = false then .error drainFault
  else
    match options.shutdownTimeout.getD (.finite DEFAULT_SHUTDOWN_TIMEOUT_MS) with
    | .finite cap => if cap < 0 then .error shutdownTimeoutFault else .ok (drain, cap)
    | _ => .error shutdownTimeoutFault

/-- A handler of `app.onShutdown()`: its place in the order of registration, and
what it does before it returns or suspends. -/
structure Hook where
  index : ℕ
  /-- The `close()` calls it makes. -/
  calls : List CloseOptions
  throws : Bool

inductive DrainEnd
  /-- The counter reached zero. -/
  | zero
  | timer
  /-- A repeat close with drain 0. -/
  | escalated
  /-- A first close with drain 0. -/
  | immediate
  deriving DecidableEq

/-- The variables of one promise of `close()`. -/
structure CloseRun where
  cap : ℚ
  /-- `done`, and why. -/
  ended : Option DrainEnd
  /-- The drain timer is armed. -/
  timer : Bool

structure HookLoop where
  /-- The promise that waits for it. -/
  close : ℕ
  cap : ℚ
  hook : Hook
  /-- The handler has been called. -/
  called : Bool
  rest : List Hook

structure CloseState where
  lifecycle : LifecycleState
  shutdownHandlers : List Hook
  shutdownRan : Bool
  closePromise : Option ℕ
  escalate : Option ℕ
  runs : ℕ → CloseRun
  /-- The promises made so far. -/
  made : ℕ
  loop : Option HookLoop
  /-- The promises whose handlers are through, in the order of their reactions. -/
  pending : List ℕ
  settled : List (ℕ × CloseStatus)
  /-- A call of `close()` is creating its promise. -/
  creating : Bool
  registered : List Hook
  /-- The handlers taken when the drain ended. -/
  awaited : List Hook
  started : List Hook
  /-- The promise of each call, and whether it was made while another call was
  creating its own. -/
  returned : List (Bool × ℕ)

def createClosing : CloseState where
  lifecycle := createLifecycle
  shutdownHandlers := []
  shutdownRan := false
  closePromise := none
  escalate := none
  runs := fun _ => ⟨0, none, false⟩
  made := 0
  loop := none
  pending := []
  settled := []
  creating := false
  registered := []
  awaited := []
  started := []
  returned := []

namespace CloseState

def setRun (s : CloseState) (k : ℕ) (run : CloseRun) : CloseState :=
  { s with runs := Function.update s.runs k run }

/-- `finish`, the handlers of the close run by `handlers`. -/
def finish (handlers : CloseState → ℕ → CloseState) (s : CloseState) (k : ℕ) (why : DrainEnd) :
    CloseState :=
  if (s.runs k).ended.isSome then s
  else
    handlers
      { s.setRun k { s.runs k with ended := some why, timer := false } with escalate := none } k

def execute (handlers : CloseState → ℕ → CloseState) (s : CloseState) (k : ℕ) (drain : Millis) :
    CloseState :=
  if drain = .finite 0 then
    handlers (s.setRun k { s.runs k with ended := some .immediate }) k
  else
    let s := { s with escalate := some k }
    let (lifecycle, zero) := subscribeSettled s.lifecycle k
    let s := { s with lifecycle }
    if zero then s.finish handlers k .zero
    else s.setRun k { s.runs k with timer := decide (drain ≠ .infinity) }

def closeWith (handlers : CloseState → ℕ → CloseState) (s : CloseState) (options : CloseOptions) :
    CloseState × Except JsString ℕ :=
  match s.closePromise with
  | some promise =>
      let s := match s.escalate with
        | some k => if options.drain = some (.finite 0) then s.finish handlers k .escalated else s
        | none => s
      (s, .ok promise)
  | none =>
      match options.checked with
      | .error fault => (s, .error fault)
      | .ok (drain, cap) =>
          let k := s.made
          let outer := s.creating
          let s := { s.setRun k ⟨cap, none, false⟩ with
            lifecycle := startDraining s.lifecycle, made := k + 1, creating := true }
          let s := s.execute handlers k drain
          ({ s with closePromise := some k, creating := outer }, .ok k)

/-- A call of `close()` with what it returns on record. -/
def call (handlers : CloseState → ℕ → CloseState) (s : CloseState) (options : CloseOptions) :
    CloseState :=
  match s.closeWith handlers options with
  | (after, .ok promise) => { after with returned := after.returned ++ [(s.creating, promise)] }
  | (after, .error _) => after

def skipHandlers (s : CloseState) (k : ℕ) : CloseState := { s with pending := s.pending ++ [k] }

/-- A handler is called. What it calls finds the handlers taken. -/
def callHook (s : CloseState) (loop : HookLoop) : CloseState :=
  loop.hook.calls.foldl (call skipHandlers)
    { s with started := s.started ++ [loop.hook], loop := some { loop with called := true } }

/-- The loop goes on to its next handler. One without a cap is called at once,
and one that throws there is not awaited. -/
def nextHook (k : ℕ) (cap : ℚ) : List Hook → CloseState → CloseState
  | [], s => { s with loop := none, pending := s.pending ++ [k] }
  | hook :: rest, s =>
      if 0 < cap then { s with loop := some ⟨k, cap, hook, false, rest⟩ }
      else
        let s := s.callHook ⟨k, cap, hook, false, rest⟩
        if hook.throws then nextHook k cap rest s else s

def runShutdownHandlers (s : CloseState) (k : ℕ) : CloseState :=
  if s.shutdownRan then s.skipHandlers k
  else
    nextHook k (s.runs k).cap s.shutdownHandlers
      { s with shutdownRan := true, shutdownHandlers := [], awaited := s.shutdownHandlers }

def closeApp (s : CloseState) (options : CloseOptions) : CloseState × Except JsString ℕ :=
  s.closeWith runShutdownHandlers options

end CloseState

/-- How an awaited handler ends; the loop contains its failures. -/
inductive HookOutcome
  | fulfilled
  | rejected

inductive CloseEvent
  /-- An event of the gate but `close` and `subscribe`, which `close()` makes. -/
  | gate (e : GateEvent)
  /-- `app.onShutdown()`, by what its handler does. -/
  | register (calls : List CloseOptions) (throws : Bool)
  | close (options : CloseOptions)
  | drainTimer (k : ℕ)
  /-- The microtask that calls a capped handler. -/
  | callHook
  | hookEnds (outcome : HookOutcome)
  | capExpires
  /-- The reaction that settles a promise. -/
  | resolve

def GateEvent.own : GateEvent → Bool
  | .close => false
  | .subscribe _ => false
  | _ => true

namespace CloseState

def wake (s : CloseState) (lifecycle : LifecycleState) : CloseState :=
  (lifecycle.woken.drop s.lifecycle.woken.length).foldl
    (fun s k => s.finish runShutdownHandlers k .zero) { s with lifecycle }

def status (s : CloseState) (k : ℕ) : CloseStatus where
  timedOut :=
    match (s.runs k).ended with
    | some .zero => false
    | some .immediate => decide (0 < s.lifecycle.inFlight)
    | _ => true
  inFlight := s.lifecycle.inFlight

def step (overload : Option LifecycleOverload) (s : CloseState) : CloseEvent → Option CloseState
  | .gate e => if e.own then (gateStep overload s.lifecycle e).map s.wake else none
  | .register calls throws =>
      let hook : Hook := ⟨s.registered.length, calls, throws⟩
      some { s with
        shutdownHandlers := s.shutdownHandlers ++ [hook], registered := s.registered ++ [hook] }
  | .close options => some (s.call runShutdownHandlers options)
  | .drainTimer k => if (s.runs k).timer then some (s.finish runShutdownHandlers k .timer) else none
  | .callHook =>
      match s.loop with
      | some loop => if loop.called then none else some (s.callHook loop)
      | none => none
  | .hookEnds _ =>
      match s.loop with
      | some loop => if loop.called then some (nextHook loop.close loop.cap loop.rest s) else none
      | none => none
  | .capExpires =>
      match s.loop with
      | some loop =>
          if loop.called ∧ 0 < loop.cap then some (nextHook loop.close loop.cap loop.rest s)
          else none
      | none => none
  | .resolve =>
      match s.pending with
      | [] => none
      | k :: rest => some { s with pending := rest, settled := s.settled ++ [(k, s.status k)] }

end CloseState

def closing (overload : Option LifecycleOverload) : Lts CloseState CloseEvent where
  start := createClosing
  step := CloseState.step overload

end Keala.Core
