import Keala.Http.Streams
import Keala.Core.Lifecycle

/-!
An application serving admitted requests: the settle callbacks of
`src/core/lifecycle.ts`, the race of `src/core/lifecycle-deadline.ts`, `#serve`
of `src/core/app.ts`, `settleNativeHandle` of `src/core/dispatch.ts` and the
retirement of contexts of `src/core/context/pool.ts`. Handlers are the
environment: a dispatched request settles with some response, at once or later.
-/

namespace Keala.Core

open Keala.Http

abbrev ContextId := ℕ

structure AppConfig where
  overload : Option LifecycleOverload
  /-- In milliseconds; zero is off. -/
  requestTimeout : ℕ
  pooling : Bool

structure Reply where
  body : BodyKind
  /-- It is the context's `directBodyResponseValue`. -/
  snapshot : Bool

inductive Stage
  /-- Not dispatched. -/
  | idle
  /-- The promise of its dispatch is open. -/
  | pending
  /-- The reaction to that promise is queued. -/
  | reacting
  /-- The reaction of the race is queued. -/
  | relaying
  | done
  deriving DecidableEq

inductive Answer
  | settled
  | deadline
  deriving DecidableEq

structure Serving where
  stage : Stage
  context : Option ContextId
  onceDone : Bool
  timer : Bool
  answer : Option Answer
  /-- The pump of `holdBody`. -/
  hold : Option Pump
  released : Bool
  /-- The pump of `retireWithBody`. -/
  retirement : Option Pump
  retired : Bool
  /-- The context waits for its branches before it goes into the pool. -/
  parting : Bool

def Serving.idle : Serving := ⟨.idle, none, false, false, none, none, false, none, false, false⟩

def Serving.timedOut (s : Serving) : Serving :=
  { s with timer := false, onceDone := true, answer := some .deadline }

inductive Microtask
  | react (r : RequestId) (value : Reply)
  | relay (r : RequestId)

def Microtask.request : Microtask → RequestId
  | .react r _ => r
  | .relay r => r

structure ServeState where
  lifecycle : LifecycleState
  pool : List ContextId
  /-- The `deadlineAnswered` slots. -/
  deadlineAnswered : ContextId → Bool
  constructed : ℕ
  serving : RequestId → Serving
  microtasks : List Microtask
  /-- The decrements of the counter on behalf of a request. -/
  decrements : RequestId → ℕ
  /-- The calls of `pool.release` on behalf of a request. -/
  returns : RequestId → ℕ
  /-- The drain-completion callbacks that were not answered at once. -/
  subscribed : List ℕ

def createApplication : ServeState where
  lifecycle := createLifecycle
  pool := []
  deadlineAnswered := fun _ => false
  constructed := 0
  serving := fun _ => .idle
  microtasks := []
  decrements := fun _ => 0
  returns := fun _ => 0
  subscribed := []

def POOL_MAX : ℕ := 128

namespace ServeState

def setServing (st : ServeState) (r : RequestId) (s : Serving) : ServeState :=
  { st with serving := Function.update st.serving r s }

def setStage (st : ServeState) (r : RequestId) (stage : Stage) : ServeState :=
  st.setServing r { st.serving r with stage }

/-- The request has left the counter, by a new value of the lifecycle. -/
def leave (st : ServeState) (r : RequestId) (lifecycle : LifecycleState) : ServeState :=
  { st with lifecycle, decrements := Function.update st.decrements r (st.decrements r + 1) }

def releaseInFlight (config : AppConfig) (st : ServeState) (r : RequestId) : ServeState :=
  st.leave r (Core.releaseInFlight config.overload (st.lifecycle.setPhase r .released))

/-! ### Settling -/

def releaseHold (config : AppConfig) (st : ServeState) (r : RequestId) : ServeState :=
  if (st.serving r).released then st
  else (st.setServing r { st.serving r with released := true }).releaseInFlight config r

def holdBody (config : AppConfig) (st : ServeState) (r : RequestId) (value : Reply) :
    ServeState × Reply :=
  match value.body with
  | .locked => (st.releaseHold config r, value)
  | _ => (st.setServing r { st.serving r with hold := some .fresh }, ⟨.readable, false⟩)

def settleRequest (config : AppConfig) (st : ServeState) (r : RequestId) (value : Reply) :
    ServeState × Reply :=
  if st.lifecycle.draining ∧ value.body ≠ .absent then st.holdBody config r value
  else (st.releaseInFlight config r, value)

def settleUncappedRequest (config : AppConfig) (st : ServeState) (r : RequestId) (value : Reply) :
    ServeState × Reply :=
  if st.lifecycle.draining then st.settleRequest config r value
  else
    let lc := st.lifecycle.setPhase r .released
    (st.leave r { lc with inFlight := lc.inFlight - 1 }, value)

def settle (config : AppConfig) (st : ServeState) (r : RequestId) (value : Reply) :
    ServeState × Reply :=
  match config.overload with
  | none => st.settleUncappedRequest config r value
  | some _ => st.settleRequest config r value

def answered (st : ServeState) (r : RequestId) : Bool :=
  match (st.serving r).context with
  | none => false
  | some c => st.deadlineAnswered c

def guardedSettle (config : AppConfig) (st : ServeState) (r : RequestId) (value : Reply) :
    ServeState × Reply :=
  if 0 < config.requestTimeout ∧ st.answered r then (st, value) else st.settle config r value

/-! ### Contexts -/

/-- `pool.acquire() ?? new Context`, on behalf of a request. -/
def acquire (config : AppConfig) (st : ServeState) (r : RequestId) : ServeState :=
  match (if config.pooling then st.pool.getLast? else none) with
  | some c =>
      -- `resetContext` clears the slots of a recycled context
      { st.setServing r { st.serving r with context := some c } with
        pool := st.pool.dropLast
        deadlineAnswered := Function.update st.deadlineAnswered c false }
  | none =>
      { st.setServing r { st.serving r with context := some st.constructed } with
        constructed := st.constructed + 1
        deadlineAnswered := Function.update st.deadlineAnswered st.constructed false }

def release (st : ServeState) (r : RequestId) : ServeState :=
  { st with
    pool := match (st.serving r).context with
      | none => st.pool
      | some c => if POOL_MAX ≤ st.pool.length then st.pool else st.pool ++ [c]
    returns := Function.update st.returns r (st.returns r + 1) }

/-- The `retire` closure; `branches` says whether floating branches are still
running. -/
def retire (st : ServeState) (r : RequestId) (branches : Bool) : ServeState :=
  if (st.serving r).retired then st
  else if branches then st.setServing r { st.serving r with retired := true, parting := true }
  else (st.setServing r { st.serving r with retired := true }).release r

def retireWithBody (st : ServeState) (r : RequestId) (value : Reply) (branches : Bool) :
    ServeState :=
  if value.snapshot then st.retire r branches
  else
    match value.body with
    | .absent => st.retire r branches
    | .locked => st.retire r branches
    | .readable => st.setServing r { st.serving r with retirement := some .fresh }

def settleNativeHandle (config : AppConfig) (st : ServeState) (r : RequestId) (value : Reply)
    (branches : Bool) : ServeState :=
  let (st, value) := st.guardedSettle config r value
  if config.pooling then st.retireWithBody r value branches else st

/-! ### Microtasks -/

/-- The reaction of `settleNativeHandle` to the promise of a dispatch. -/
def react (config : AppConfig) (st : ServeState) (r : RequestId) (value : Reply)
    (branches : Bool) : ServeState :=
  let st :=
    if config.pooling ∧ st.answered r then st
    else st.settleNativeHandle config r value branches
  if 0 < config.requestTimeout then
    { st.setStage r .relaying with microtasks := st.microtasks ++ [.relay r] }
  else st.setStage r .done

def relay (st : ServeState) (r : RequestId) : ServeState :=
  let s := st.serving r
  if s.onceDone then st.setStage r .done
  else
    st.setServing r
      { s with stage := .done, onceDone := true, timer := false, answer := some .settled }

def markDeadline (st : ServeState) (r : RequestId) : ServeState :=
  match (st.serving r).context with
  | none => st
  | some c => { st with deadlineAnswered := Function.update st.deadlineAnswered c true }

def deadline (config : AppConfig) (st : ServeState) (r : RequestId) : ServeState :=
  let s := st.serving r
  if s.onceDone then st.setServing r { s with timer := false }
  else
    ((st.markDeadline r).setServing r s.timedOut).releaseInFlight config r

end ServeState

/-! ### The application -/

inductive Served
  /-- `trustedHosts` refuses the request. -/
  | hostRefused (value : Reply)
  | sync (value : Reply) (branches : Bool)
  | async

inductive ServeEvent
  /-- What is not a release at the gate. -/
  | gate (e : GateEvent)
  | serve (r : RequestId) (served : Served)
  /-- The promise of a dispatch is fulfilled. -/
  | settles (r : RequestId) (value : Reply)
  /-- The next microtask runs. -/
  | microtask (branches : Bool)
  | deadline (r : RequestId)
  /-- A callback of the body that a draining application holds. -/
  | hold (r : RequestId) (e : PumpEvent)
  /-- A callback of the body that a retiring context waits for. -/
  | retirement (r : RequestId) (e : PumpEvent) (branches : Bool)
  | branchesSettled (r : RequestId)

/-- `[HANDLE_REQUEST_SOURCE]` up to the admission. -/
def handleRequestSource (overload : Option LifecycleOverload) (lc : LifecycleState)
    (r : RequestId) : LifecycleState :=
  if !lc.draining && overload.isNone then
    { lc with inFlight := lc.inFlight + 1 }.setPhase r .running
  else admitRequest overload lc r

def admissionStep (overload : Option LifecycleOverload) (lc : LifecycleState) :
    GateEvent → Option LifecycleState
  | .release _ => none
  | .arrive r => if lc.phase r = .unseen then some (handleRequestSource overload lc r) else none
  | e => gateStep overload lc e

/-- The callbacks that an event registers and does not answer at once. -/
def registered (lc : LifecycleState) : GateEvent → List ℕ
  | .subscribe waiter => if (subscribeSettled lc waiter).2 then [] else [waiter]
  | _ => []

def serveRequest (config : AppConfig) (st : ServeState) (r : RequestId) : Served → ServeState
  | .hostRefused value => (st.settle config r value).1.setStage r .done
  | .sync value branches =>
      ((st.acquire config r).settleNativeHandle config r value branches).setStage r .done
  | .async =>
      let st := st.acquire config r
      st.setServing r
        { st.serving r with stage := .pending, timer := decide (0 < config.requestTimeout) }

def serveStep (config : AppConfig) (st : ServeState) : ServeEvent → Option ServeState
  | .gate e => (admissionStep config.overload st.lifecycle e).map fun lc =>
      { st with
        lifecycle := lc
        subscribed := st.subscribed ++ registered st.lifecycle e }
  | .serve r served =>
      if st.lifecycle.phase r = .running ∧ (st.serving r).stage = .idle then
        some (serveRequest config st r served)
      else none
  | .settles r value =>
      if (st.serving r).stage = .pending then
        some { st.setStage r .reacting with microtasks := st.microtasks ++ [.react r value] }
      else none
  | .microtask branches =>
      match st.microtasks with
      | [] => none
      | .react r value :: rest =>
          some ({ st with microtasks := rest }.react config r value branches)
      | .relay r :: rest => some ({ st with microtasks := rest }.relay r)
  | .deadline r =>
      -- a timer fires only when no microtask is left
      if (st.serving r).timer ∧ st.microtasks.isEmpty then some (st.deadline config r) else none
  | .hold r e =>
      ((st.serving r).hold.bind fun p => p.step e).map fun (p, hook) =>
        let st := st.setServing r { st.serving r with hold := some p }
        if hook then st.releaseHold config r else st
  | .retirement r e branches =>
      ((st.serving r).retirement.bind fun p => p.step e).map fun (p, hook) =>
        let st := st.setServing r { st.serving r with retirement := some p }
        if hook then st.retire r branches else st
  | .branchesSettled r =>
      if (st.serving r).parting then
        some ((st.setServing r { st.serving r with parting := false }).release r)
      else none

def application (config : AppConfig) : Lts ServeState ServeEvent where
  start := createApplication
  step := serveStep config

end Keala.Core
