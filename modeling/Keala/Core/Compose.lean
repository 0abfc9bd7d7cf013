import Keala.Core.Respond

/-!
Middleware composition (`src/core/compose.ts`). A promise is known by how it
settles and has run to its end where it is returned; branches that outlive
their level are the subject of another module.
-/

namespace Keala.Core

open Keala.Js Keala.Http

variable {σ β τ : Type}

inductive HandlerResult (β τ : Type)
  | response (res : Response β)
  /-- `undefined` or `null`. -/
  | nothing
  | thenable
  /-- Another value, with its `typeof`. -/
  | other (typeOf : JsString)
  /-- A value whose `then` getter throws. -/
  | throwing (e : Thrown τ)

inductive LevelResult (τ : Type)
  | returned
  | threw (e : Thrown τ)
  | promise (settled : Except (Thrown τ) Unit)

abbrev Level (σ β τ : Type) := Context σ β → Context σ β × LevelResult τ

/-- A handler as the interaction it has with its level: it stages headers and
other state, calls `next()` and goes on with what that gave, and ends by a
return or a throw, or by settling its promise. What it may read or write of a
response that a level below has committed is left out. -/
inductive Handler (σ β τ : Type)
  | settle (async : Bool) (result : Except (Thrown τ) (HandlerResult β τ))
  | stage (write : Staged σ → Staged σ) (rest : Handler σ β τ)
  | next (rest : LevelResult τ → Handler σ β τ)

def nextTwice : Thrown τ := .error (js "next() called multiple times in the same middleware")

def promiseReturned : Thrown τ :=
  .typeError (js "handler returned a promise — await it inside the handler instead")

def invalidReturn (typeOf : JsString) : Thrown τ :=
  .typeError (js "handler returned " ++ typeOf ++ js "; only Response, undefined or null are valid")

structure Settled (β τ : Type) where
  async : Bool
  result : Except (Thrown τ) (HandlerResult β τ)

/-- Run a handler on a guarded `next`; `advanced` is the guard's flag. -/
def Handler.run (downstream : Level σ β τ) :
    Handler σ β τ → Bool → Context σ β → Context σ β × Settled β τ
  | .settle async result, _, c => (c, ⟨async, result⟩)
  | .stage write rest, advanced, c =>
      rest.run downstream advanced { c with staged := write c.staged }
  | .next rest, true, c => (rest (.threw nextTwice)).run downstream true c
  | .next rest, false, c =>
      let (c, result) := downstream c
      (rest result).run downstream true c

/-- Commit a settled handler result. The body of a response it replaces is
discarded, which no answer shows. -/
def commit (c : Context σ β) : HandlerResult β τ → Except (Thrown τ) (Context σ β)
  | .nothing => .ok c
  | .response res => .ok { c with res := some res }
  | .thenable => .error promiseReturned
  | .other typeOf => .error (invalidReturn typeOf)
  | .throwing e => .error e

def settleLevel (c : Context σ β) (settled : Settled β τ) : Context σ β × LevelResult τ :=
  match settled.result with
  | .error e => (c, if settled.async then .promise (.error e) else .threw e)
  | .ok value =>
      match commit c value with
      | .error e => (c, if settled.async then .promise (.error e) else .threw e)
      | .ok c => (c, if settled.async then .promise (.ok ()) else .returned)

def makeLevel (handler : Handler σ β τ) (downstream : Level σ β τ) : Level σ β τ := fun c =>
  let (c, settled) := handler.run downstream false c
  settleLevel c settled

def compose (handlers : List (Handler σ β τ)) (tail : Level σ β τ) : Level σ β τ :=
  handlers.foldr makeLevel tail

def NOOP_TAIL : Level σ β τ := fun c => (c, .promise (.ok ()))

/-- The handler that `direct` installs: the given one behind the same guard. -/
def guarded (handler : Handler σ β τ) (tail : Level σ β τ) (c : Context σ β) :
    Context σ β × Settled β τ :=
  handler.run tail false c

end Keala.Core
