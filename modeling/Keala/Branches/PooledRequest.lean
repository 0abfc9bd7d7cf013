import Keala.Http.RepumpRuns
import Keala.Lib.Lts

/-!
One request of a pooling application, from the call of its chain to the return
of its context: the variables of the levels (`src/core/compose.ts`), the list of
floating branches (`src/core/branches.ts`), `settleNativeHandle` of
`src/core/dispatch.ts` and `retireWithBody` of `src/core/context/pool.ts`.
Handlers, the tail of the application, the deadline, the consumer of the body
and the source are the environment: their steps come in any order.
-/

namespace Keala.Branches

open Keala.Http

variable {Chunk Err : Type}

/-! ### Levels -/

inductive Phase
  | idle
  /-- The handler runs, and the call of the level has not returned. -/
  | calling
  /-- The call has returned a promise. -/
  | pending
  | settled
  deriving DecidableEq

def Phase.isRunning : Phase → Bool
  | .calling | .pending => true
  | .idle | .settled => false

structure LevelState where
  phase : Phase := .idle
  advanced : Bool := false
  /-- Its `next()` gave a promise. -/
  floated : Bool := false
  branchLive : Bool := false
  /-- The `next()` call that started it was made after the level of that `next` had settled. -/
  late : Bool := false

/-- What `chainOf` compiles a stack of handlers to. -/
inductive Chain
  | direct
  | composed (handlers : ℕ)

def Chain.handlers : Chain → ℕ
  | direct => 1
  | composed n => n

/-- A registered promise: that of a level, or one that `all` registers. -/
inductive Branch
  | level (i : ℕ)
  | other (k : ℕ)

/-! ### The request -/

inductive Drain
  | none
  /-- The branches before `offset` are awaited. -/
  | awaiting (offset : ℕ)
  /-- The loop has ended, and the reaction to its promise is queued. -/
  | ended

structure PooledRequest (Chunk Err : Type) where
  /-- The tail is the level behind the last handler's. -/
  levels : ℕ → LevelState
  branches : List Branch := []
  /-- The promises of `all` that have settled. -/
  others : ℕ → Bool := fun _ => false
  deadlineAnswered : Bool := false
  /-- The promise of the dispatch has been reacted to. -/
  answered : Bool := false
  /-- The body that was wrapped. -/
  body : Option (Repump Chunk Err) := none
  retired : Bool := false
  drain : Drain := .none
  /-- The calls of `pool.release`. -/
  releases : ℕ := 0

/-- What `retireWithBody` sees of the response. -/
inductive ResponseValue (Chunk Err : Type)
  /-- It is the `directBodyResponseValue`. -/
  | snapshot
  | nullBody
  | body (locked : Bool) (chunks : List Chunk) (ending : SourceEnding Err)

namespace PooledRequest

def setLevel (s : PooledRequest Chunk Err) (i : ℕ) (level : LevelState) :
    PooledRequest Chunk Err :=
  { s with levels := Function.update s.levels i level }

def setPhase (s : PooledRequest Chunk Err) (i : ℕ) (phase : Phase) : PooledRequest Chunk Err :=
  s.setLevel i { s.levels i with phase }

def start (chain : Chain) : PooledRequest Chunk Err :=
  setLevel { levels := fun _ => {} } 0
    { phase := if chain.handlers = 0 then .settled else .calling }

/-! ### The steps of a level -/

def registerBranch (s : PooledRequest Chunk Err) (branch : Branch) : PooledRequest Chunk Err :=
  { s with branches := s.branches ++ [branch] }

def float (s : PooledRequest Chunk Err) (i : ℕ) : PooledRequest Chunk Err :=
  s.setLevel i { s.levels i with floated := true, branchLive := true }

/-- The `next` of level `i`; a second call throws. -/
def next (chain : Chain) (s : PooledRequest Chunk Err) (i : ℕ) : PooledRequest Chunk Err :=
  if (s.levels i).advanced then s
  else
    let advanced := s.setLevel i { s.levels i with advanced := true }
    if i + 1 = chain.handlers then
      -- the promise of the tail is fulfilled
      (advanced.setLevel (i + 1) { phase := .settled }).float i
    else
      advanced.setLevel (i + 1)
        { phase := .calling, late := decide ((s.levels i).phase = .settled) }

/-- The registration in the settle tail of level `i`, which a direct chain has not. -/
def settleTail (chain : Chain) (s : PooledRequest Chunk Err) (i : ℕ) (live : Bool) :
    PooledRequest Chunk Err :=
  match chain with
  | .direct => s
  | .composed _ => if live then s.registerBranch (.level (i + 1)) else s

/-! ### Retirement -/

def release (s : PooledRequest Chunk Err) : PooledRequest Chunk Err :=
  { s with drain := .none, releases := s.releases + 1 }

def drainLoop (s : PooledRequest Chunk Err) (offset : ℕ) : PooledRequest Chunk Err :=
  if offset < s.branches.length then { s with drain := .awaiting s.branches.length }
  else { s with drain := .ended }

def retire (s : PooledRequest Chunk Err) : PooledRequest Chunk Err :=
  if s.retired then s
  else if s.branches = [] then { s with retired := true }.release
  else { s with retired := true }.drainLoop 0

def hook (s : PooledRequest Chunk Err) : HookCall Err → PooledRequest Chunk Err
  | .onLocked | .onFinish => s.retire
  | .onReadError _ => s

def retireWithBody (s : PooledRequest Chunk Err) :
    ResponseValue Chunk Err → PooledRequest Chunk Err
  | .snapshot | .nullBody => s.retire
  | .body locked chunks ending =>
      let wrapped := repumpStream locked chunks ending
      wrapped.1.foldl hook { s with body := wrapped.2 }

def settleNativeHandle (s : PooledRequest Chunk Err) (value : ResponseValue Chunk Err) :
    PooledRequest Chunk Err :=
  if s.deadlineAnswered then { s with answered := true }
  else { s with answered := true }.retireWithBody value

/-- The pump goes on from one state to the next; its `finish` calls the hook once. -/
def pumped (s : PooledRequest Chunk Err) (pump next : Repump Chunk Err) :
    PooledRequest Chunk Err :=
  let stepped := { s with body := some next }
  if next.finished ∧ ¬pump.finished then stepped.hook .onFinish else stepped

def hasSettled (s : PooledRequest Chunk Err) : Branch → Bool
  | .level i => decide ((s.levels i).phase = .settled)
  | .other k => s.others k

end PooledRequest

/-! ### Runs -/

inductive RequestEvent (Chunk Err : Type)
  | next (i : ℕ)
  /-- The handler of a level returns anything but a promise. -/
  | returns (i : ℕ)
  | throws (i : ℕ)
  | promises (i : ℕ)
  /-- The promise of a handler is fulfilled, and its level reacts. -/
  | fulfils (i : ℕ)
  | rejects (i : ℕ)
  /-- The reaction of `next` to the branch of a level. -/
  | reacts (i : ℕ)
  | registersOther (k : ℕ)
  | settlesOther (k : ℕ)
  | deadline
  /-- The dispatch has settled with a response. -/
  | answers (value : ResponseValue Chunk Err)
  | body (event : RepumpEvent)
  | drains
  | drained

namespace PooledRequest

/-- Code of level `i` may run: a call that it made has returned. -/
def mayAct (s : PooledRequest Chunk Err) (i : ℕ) : Bool :=
  decide ((s.levels (i + 1)).phase ≠ .calling)

/-- None where the event cannot happen. There are more orders here than one thread has. -/
def step (chain : Chain) (s : PooledRequest Chunk Err) :
    RequestEvent Chunk Err → Option (PooledRequest Chunk Err)
  | .next i =>
      if (s.levels i).phase ≠ .idle ∧ i < chain.handlers ∧ s.mayAct i then some (s.next chain i)
      else none
  | .returns i =>
      if (s.levels i).phase = .calling ∧ s.mayAct i then
        some ((s.settleTail chain i (s.levels i).floated).setPhase i .settled)
      else none
  | .throws i =>
      if (s.levels i).phase = .calling ∧ s.mayAct i then some (s.setPhase i .settled) else none
  | .promises i =>
      if (s.levels i).phase = .calling ∧ s.mayAct i then
        let returned := s.setPhase i .pending
        -- the caller is the chain's own for the first level, a `next` for any other
        some (if i = 0 then returned else returned.float (i - 1))
      else none
  | .fulfils i =>
      if (s.levels i).phase = .pending ∧ s.mayAct i then
        let live := (s.levels i).branchLive && (s.levels i).floated
        some ((s.settleTail chain i live).setPhase i .settled)
      else none
  | .rejects i =>
      if (s.levels i).phase = .pending ∧ s.mayAct i then some (s.setPhase i .settled) else none
  | .reacts i =>
      if (s.levels i).floated ∧ (s.levels (i + 1)).phase = .settled then
        some (s.setLevel i { s.levels i with branchLive := false })
      else none
  | .registersOther k => some (s.registerBranch (.other k))
  | .settlesOther k => some { s with others := Function.update s.others k true }
  | .deadline => if s.answered then none else some { s with deadlineAnswered := true }
  | .answers value =>
      if (s.levels 0).phase = .settled ∧ s.answered = false then some (s.settleNativeHandle value)
      else none
  | .body event => do
      let pump ← s.body
      let next ← pump.step event
      pure (s.pumped pump next)
  | .drains =>
      match s.drain with
      | .awaiting offset =>
          if (s.branches.take offset).all s.hasSettled then some (s.drainLoop offset) else none
      | _ => none
  | .drained =>
      match s.drain with
      | .ended => some s.release
      | _ => none

end PooledRequest

def pooledRequest (Chunk Err : Type) (chain : Chain) :
    Lts (PooledRequest Chunk Err) (RequestEvent Chunk Err) :=
  ⟨.start chain, PooledRequest.step chain⟩

end Keala.Branches
