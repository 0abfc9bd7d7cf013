import Keala.Lib.Lts
import Mathlib.Logic.Function.Basic
import Mathlib.Data.Int.Notation
import Mathlib.Data.Nat.Notation

/-!
The in-flight counter and the admission gate (`src/core/lifecycle.ts`,
`src/core/lifecycle-admission.ts`). The heap of waiter slots, the promises of
queued requests and the abort signals are part of the state; an event is one
callback of the event loop.
-/

namespace Keala.Core

abbrev RequestId := ℕ

abbrev SlotId := ℕ

inductive OverloadReason
  | concurrency
  | queue
  | draining
  deriving DecidableEq

inductive Strategy
  | failFast
  | queue
  deriving DecidableEq

/-- Normalized, validated overload configuration; no bound stands for
`Infinity`. -/
structure LifecycleOverload where
  maxConcurrency : Option ℕ
  maxQueue : ℕ
  queueTimeoutMs : ℕ
  strategy : Strategy
  maxConcurrency_pos : ∀ m, maxConcurrency = some m → 0 < m
  queueTimeoutMs_pos : 0 < queueTimeoutMs

/-- What a gate promise resolves to: `null`, or a refusal. -/
inductive Verdict
  | admitted
  | refused (reason : OverloadReason)
  deriving DecidableEq

/-- Where a request stands: `waiting` on the promise of the strategy, `running`
from its admission to its release. -/
inductive Phase
  | unseen
  | waiting
  | running
  | refused
  | released
  deriving DecidableEq

structure WaiterSlot where
  settled : Bool
  request : Option RequestId
  /-- The request whose promise `resolve` settles. -/
  resolve : Option RequestId
  /-- The request whose `admit` the slot transfers to. -/
  transfer : Option RequestId
  /-- The request whose abort signal the slot listens on. -/
  signal : Option RequestId
  timer : Bool
  deriving DecidableEq

def WaiterSlot.idle : WaiterSlot := ⟨true, none, none, none, none, false⟩

structure LifecycleState where
  draining : Bool
  inFlight : ℤ
  queue : List SlotId
  waiterPool : List SlotId
  closeWaiters : List ℕ
  woken : List ℕ
  slots : SlotId → WaiterSlot
  constructed : ℕ
  taken : RequestId → Bool
  /-- The calls of a request's `resolve`. -/
  settlements : RequestId → List Verdict
  aborted : RequestId → Bool
  listeners : RequestId → List SlotId
  phase : RequestId → Phase
  /-- The requests that entered the queue, in order. -/
  enqueued : List RequestId
  /-- The requests admitted from the queue, in order. -/
  transferred : List RequestId

def createLifecycle : LifecycleState where
  draining := false
  inFlight := 0
  queue := []
  waiterPool := []
  closeWaiters := []
  woken := []
  slots := fun _ => .idle
  constructed := 0
  taken := fun _ => false
  settlements := fun _ => []
  aborted := fun _ => false
  listeners := fun _ => []
  phase := fun _ => .unseen
  enqueued := []
  transferred := []

def WAITER_POOL_MAX : ℕ := 64

def hasRoom (overload : Option LifecycleOverload) (inFlight : ℤ) : Bool :=
  match overload.bind LifecycleOverload.maxConcurrency with
  | none => true
  | some m => decide (inFlight < m)

def LifecycleState.setPhase (lc : LifecycleState) (r : RequestId) (phase : Phase) :
    LifecycleState :=
  { lc with phase := Function.update lc.phase r phase }

/-! ### Waiter slots -/

/-- `finish`: empty the slot, recycle it, resolve its promise. -/
def finishSlot (lc : LifecycleState) (s : SlotId) (value : Verdict) : LifecycleState :=
  let slot := lc.slots s
  if slot.settled then lc
  else
    { lc with
      slots := Function.update lc.slots s .idle
      listeners := match slot.signal with
        | none => lc.listeners
        | some r => Function.update lc.listeners r ((lc.listeners r).erase s)
      waiterPool := if lc.waiterPool.length < WAITER_POOL_MAX then lc.waiterPool ++ [s]
        else lc.waiterPool
      settlements := match slot.resolve with
        | none => lc.settlements
        | some r => Function.update lc.settlements r (lc.settlements r ++ [value]) }

def takeSlot (lc : LifecycleState) (r : RequestId) : LifecycleState :=
  if lc.taken r then lc
  else { lc with taken := Function.update lc.taken r true, inFlight := lc.inFlight + 1 }

def admitSlot (lc : LifecycleState) (s : SlotId) : LifecycleState :=
  let slot := lc.slots s
  if slot.settled then lc
  else
    match slot.transfer with
    | none => finishSlot lc s .admitted
    | some r =>
        let lc := takeSlot lc r
        finishSlot { lc with transferred := lc.transferred ++ [r] } s .admitted

def dropSlot (lc : LifecycleState) (s : SlotId) (reason : OverloadReason) : LifecycleState :=
  if (lc.slots s).settled then lc else finishSlot lc s (.refused reason)

/-- `WaiterSlot.leave`: timeout or client disconnect. -/
def leaveSlot (lc : LifecycleState) (s : SlotId) : LifecycleState :=
  if (lc.slots s).settled then lc
  else finishSlot { lc with queue := lc.queue.erase s } s (.refused .queue)

def armSlot (overload : LifecycleOverload) (lc : LifecycleState) (s : SlotId) (r : RequestId) :
    LifecycleState :=
  let slot : WaiterSlot :=
    { settled := false, request := some r, resolve := some r, transfer := some r,
      signal := some r, timer := decide (0 < overload.queueTimeoutMs) }
  let lc := { lc with slots := Function.update lc.slots s slot }
  if lc.aborted r then finishSlot lc s (.refused .queue)
  else { lc with listeners := Function.update lc.listeners r (lc.listeners r ++ [s]) }

def popSlot (lc : LifecycleState) : LifecycleState × SlotId :=
  match lc.waiterPool.getLast? with
  | some s => ({ lc with waiterPool := lc.waiterPool.dropLast }, s)
  | none => ({ lc with constructed := lc.constructed + 1 }, lc.constructed)

def enqueueRequest (overload : LifecycleOverload) (lc : LifecycleState) (r : RequestId) :
    LifecycleState :=
  let (lc, s) := popSlot lc
  let lc := armSlot overload lc s r
  if (lc.slots s).settled then lc
  else { lc with queue := lc.queue ++ [s], enqueued := lc.enqueued ++ [r] }

/-! ### Releasing -/

def refillFromQueue (overload : Option LifecycleOverload) :
    List SlotId → LifecycleState → LifecycleState
  | [], lc => { lc with queue := [] }
  | s :: rest, lc =>
      if hasRoom overload lc.inFlight then
        refillFromQueue overload rest (admitSlot { lc with queue := rest } s)
      else { lc with queue := s :: rest }

def wakeCloseWaiters (lc : LifecycleState) : LifecycleState :=
  { lc with closeWaiters := [], woken := lc.woken ++ lc.closeWaiters }

def releaseInFlight (overload : Option LifecycleOverload) (lc : LifecycleState) :
    LifecycleState :=
  let lc := { lc with inFlight := lc.inFlight - 1 }
  let lc := if lc.queue ≠ [] ∧ overload.isSome then refillFromQueue overload lc.queue lc else lc
  if lc.inFlight = 0 ∧ lc.closeWaiters ≠ [] then wakeCloseWaiters lc else lc

/-- `subscribeSettled`; the flag says whether the counter is at zero already. -/
def subscribeSettled (lc : LifecycleState) (waiter : ℕ) : LifecycleState × Bool :=
  if lc.inFlight = 0 then (lc, true)
  else ({ lc with closeWaiters := lc.closeWaiters ++ [waiter] }, false)

/-! ### The gate -/

/-- `refuse`: a refusal gives a taken slot back. -/
def refuseRequest (overload : Option LifecycleOverload) (lc : LifecycleState) (r : RequestId) :
    LifecycleState :=
  let lc := if lc.taken r then
      releaseInFlight overload { lc with taken := Function.update lc.taken r false }
    else lc
  lc.setPhase r .refused

def admitRequest (overload : Option LifecycleOverload) (lc : LifecycleState) (r : RequestId) :
    LifecycleState :=
  if lc.draining then lc.setPhase r .refused
  else if hasRoom overload lc.inFlight then
    { lc with inFlight := lc.inFlight + 1 }.setPhase r .running
  else
    match overload with
    | none => lc
    | some config =>
        match config.strategy with
        | .failFast => refuseRequest overload lc r
        | .queue =>
            if config.maxQueue ≤ lc.queue.length then refuseRequest overload lc r
            else (enqueueRequest config lc r).setPhase r .waiting

def wakeRequest (overload : Option LifecycleOverload) (lc : LifecycleState) (r : RequestId)
    (value : Verdict) : LifecycleState :=
  match value with
  | .refused _ => refuseRequest overload lc r
  | .admitted =>
      if lc.taken r then lc.setPhase r .running
      else if lc.draining then refuseRequest overload lc r
      else if !hasRoom overload lc.inFlight then refuseRequest overload lc r
      else (takeSlot lc r).setPhase r .running

/-- The first part of `closeApp`: flip draining and reject the queue. -/
def startDraining (lc : LifecycleState) : LifecycleState :=
  let queued := lc.queue
  queued.foldl (fun lc s => dropSlot lc s .draining) { lc with draining := true, queue := [] }

/-- The client of a request goes away: the listeners of its signal run once. -/
def abortRequest (lc : LifecycleState) (r : RequestId) : LifecycleState :=
  let fired := lc.listeners r
  fired.foldl leaveSlot
    { lc with
      aborted := Function.update lc.aborted r true
      listeners := Function.update lc.listeners r [] }

inductive GateEvent
  /-- A request enters the gate. -/
  | arrive (r : RequestId)
  /-- The promise of a queued request reaches its reaction. -/
  | wake (r : RequestId)
  /-- An admitted request releases its slot. -/
  | release (r : RequestId)
  /-- The queue timer of a slot fires. -/
  | timeout (s : SlotId)
  | abort (r : RequestId)
  | close
  /-- A drain-completion callback is registered. -/
  | subscribe (waiter : ℕ)

def gateStep (overload : Option LifecycleOverload) (lc : LifecycleState) :
    GateEvent → Option LifecycleState
  | .arrive r => if lc.phase r = .unseen then some (admitRequest overload lc r) else none
  | .wake r =>
      if lc.phase r = .waiting then
        (lc.settlements r).head?.map fun value => wakeRequest overload lc r value
      else none
  | .release r =>
      if lc.phase r = .running then some (releaseInFlight overload (lc.setPhase r .released))
      else none
  | .timeout s => if (lc.slots s).timer then some (leaveSlot lc s) else none
  | .abort r => if lc.aborted r then none else some (abortRequest lc r)
  | .close => if lc.draining then none else some (startDraining lc)
  | .subscribe waiter => if lc.draining then some (subscribeSettled lc waiter).1 else none

def gate (overload : Option LifecycleOverload) : Lts LifecycleState GateEvent where
  start := createLifecycle
  step := gateStep overload

end Keala.Core
