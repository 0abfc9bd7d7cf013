import Keala.Core.Compose

/-!
Running a chain and finalizing (`src/core/dispatch.ts`). Answers are the awaited
ones; the development-only warnings are left out.
-/

namespace Keala.Core

open Keala.Js Keala.Http

variable {σ β τ : Type}

def dispatchChain (app : Application σ β τ) (c : Context σ β)
    (chain : Level σ β τ → Level σ β τ) : Response β :=
  match chain NOOP_TAIL c with
  | (c, .threw e) => app.errorResponse c e
  | (c, .promise (.error e)) => app.errorResponse c e
  | (c, .promise (.ok ())) => finalizeGuarded app c
  | (c, .returned) => finalizeGuarded app c

def finishDirect (app : Application σ β τ) (c : Context σ β) (result : HandlerResult β τ)
    (method : JsString) : Response β :=
  match result with
  | .nothing => finalizeGuarded app c
  | .response res =>
      if c.staged.headersRecord.isNone && decide (method ≠ js "HEAD") && !app.observesStreams &&
          !(isEmptyStatus res.status && res.body.isSome) then res
      else finalizeGuarded app { c with res := some res }
  -- The branches of `invalidDirectResult`.
  | .thenable => app.errorResponse c promiseReturned
  | .other typeOf => app.errorResponse c (invalidReturn typeOf)
  | .throwing e => app.errorResponse c e

def dispatchDirect (app : Application σ β τ) (c : Context σ β) (handler : Handler σ β τ)
    (method : JsString) : Response β :=
  match guarded handler NOOP_TAIL c with
  | (c, ⟨_, .ok value⟩) => finishDirect app c value method
  | (c, ⟨_, .error e⟩) => app.errorResponse c e

def dispatchMethod (app : Application σ β τ) (rawMethod : JsString) : JsString :=
  if rawMethod = js "GET" then js "GET" else app.host.toUpperCase rawMethod

end Keala.Core
