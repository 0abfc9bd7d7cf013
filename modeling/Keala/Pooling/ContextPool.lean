import Keala.Pooling.Context

/-!
The guarded pool of contexts (`src/core/context/pool.ts`) as `Keala.handle` uses
it: contexts are served, worked on, retired under a prototype that refuses
writes, and served again.
-/

namespace Keala.Pooling

open Js Objects

variable {Ref : Type} [DecidableEq Ref] (env : Ref → JsString)
  (answer : JsString → List (Slot Ref) → Option (Slot Ref)) (app : ContextApp Ref)

/-! ### The retired surface -/

def getterOnChain (proto : ContextProto Ref) (key : PropertyKey) : Option (ContextProgram Ref) :=
  match OrderedMap.get? proto key, baseContextProto answer key with
  | some (.accessor getter _), _ => some getter
  | _, some (.accessor getter _) => some getter
  | _, _ => none

/-- The properties of the prototype of retired contexts; the rest is inherited. -/
def deadProtoFor (proto : ContextProto Ref) : ContextChain Ref := fun key =>
  if key ∈ [.of "status", .of "state", .of "cookies"] then
    some (.accessor ((getterOnChain answer proto key).getD (.done .undefined)) fun _ => .raise)
  else if key ∈ [.of "setHeader", .of "append", .of "remove", .of "redirect"] then
    some (.data .retired)
  else none

/-! ### The pool -/

inductive ContextParent (Ref : Type)
  | live
  | dead (guard : ContextChain Ref)
  | other (chain : ContextChain Ref)

structure PooledContext (Ref : Type) where
  own : ContextOwn Ref
  parent : ContextParent Ref

def inherited (proto : ContextProto Ref) : ContextParent Ref → ContextChain Ref
  | .live => liveProto answer proto
  | .dead guard => fun key => (guard key).or (liveProto answer proto key)
  | .other chain => chain

/-- The last context that was pushed comes first. -/
structure ContextPool (Ref : Type) where
  deadProto : ContextChain Ref
  contexts : List (PooledContext Ref)

def poolMax : ℕ := 128

def createPool (proto : ContextProto Ref) : ContextPool Ref := ⟨deadProtoFor answer proto, []⟩

def ContextPool.acquire (pool : ContextPool Ref) : Option (PooledContext Ref × ContextPool Ref) :=
  match pool.contexts with
  | [] => none
  | c :: contexts => some ({ c with parent := .live }, { pool with contexts := contexts })

def ContextPool.release (pool : ContextPool Ref) (c : PooledContext Ref) : ContextPool Ref :=
  if pool.contexts.length ≥ poolMax then pool
  else { pool with contexts := { c with parent := .dead pool.deadProto } :: pool.contexts }

/-! ### Serving -/

structure PooledApp (Ref : Type) where
  proto : ContextProto Ref
  active : List (PooledContext Ref)
  pool : Option (ContextPool Ref)

def PooledApp.start : PooledApp Ref := ⟨contextProto env app, [], none⟩

/-- A recycled context where the pool has one, else a new one. -/
def PooledApp.serve (state : PooledApp Ref) (raw runtime : Slot Ref) : Option (PooledApp Ref) :=
  match state.pool.bind ContextPool.acquire with
  | some (c, pool) => do
      let own ← resetContext env (inherited answer state.proto c.parent) c.own raw runtime
      pure { state with pool := some pool, active := state.active ++ [{ c with own := own }] }
  | none => do
      let own ← boundContext (liveProto answer state.proto) raw runtime
      pure { state with active := state.active ++ [⟨own, .live⟩] }

/-- A program works on a context, which keeps what was written before a throw. -/
def PooledContext.work (proto : ContextProto Ref) (fuel : ℕ) (program : ContextProgram Ref)
    (c : PooledContext Ref) : Option (PooledContext Ref) :=
  (run .undefined (inherited answer proto c.parent) fuel c.own program).map fun result =>
    { c with own := result.2 }

def workAt (contexts : List (PooledContext Ref)) (index : ℕ)
    (work : PooledContext Ref → Option (PooledContext Ref)) :
    Option (List (PooledContext Ref)) := do
  let c ← contexts[index]?
  let worked ← work c
  pure (contexts.set index worked)

inductive ContextEvent (Ref : Type)
  | decorate (key : PropertyKey) (value : Slot Ref)
  | decorateLazy (key : PropertyKey) (getter : ContextProgram Ref)
  | openPool
  | serve (raw runtime : Slot Ref)
  | work (index fuel : ℕ) (program : ContextProgram Ref)
  | reparent (index : ℕ) (chain : ContextChain Ref)
  | retire (index : ℕ)
  | workLate (index fuel : ℕ) (program : ContextProgram Ref)
  | reparentLate (index : ℕ) (chain : ContextChain Ref)

/-- None where the event cannot happen. The late ones go through a reference to a retired
context; a decoration that is refused changes nothing. -/
def PooledApp.step (state : PooledApp Ref) : ContextEvent Ref → Option (PooledApp Ref)
  | .decorate key value =>
      match decorate env answer app state.proto key value with
      | .ok proto => some { state with proto := proto }
      | .error _ => some state
  | .decorateLazy key getter =>
      match decorateLazy env answer app state.proto key getter with
      | .ok proto => some { state with proto := proto }
      | .error _ => some state
  | .openPool => some { state with pool := some (state.pool.getD (createPool answer state.proto)) }
  | .serve raw runtime => state.serve env answer raw runtime
  | .work index fuel program => do
      let active ← workAt state.active index (PooledContext.work answer state.proto fuel program)
      pure { state with active := active }
  | .reparent index chain => do
      let active ← workAt state.active index fun c => some { c with parent := .other chain }
      pure { state with active := active }
  | .retire index => do
      let c ← state.active[index]?
      pure { state with
        active := state.active.eraseIdx index
        pool := state.pool.map fun pool => pool.release c }
  | .workLate index fuel program => do
      let pool ← state.pool
      let contexts ← workAt pool.contexts index (PooledContext.work answer state.proto fuel program)
      pure { state with pool := some { pool with contexts := contexts } }
  | .reparentLate index chain => do
      let pool ← state.pool
      let contexts ← workAt pool.contexts index fun c => some { c with parent := .other chain }
      pure { state with pool := some { pool with contexts := contexts } }

def PooledApp.after (events : List (ContextEvent Ref)) : Option (PooledApp Ref) :=
  events.foldlM (PooledApp.step env answer app) (PooledApp.start env app)

end Keala.Pooling
