import Keala.Core.ErrorHeaders
import Keala.Core.Sugar
import Keala.Js.NumberText
import Keala.Js.Split

/-!
CORS (`src/middleware/cors.ts`): the answer to a preflight, the rejection of an
origin, and what is written once the handler has answered.
-/

namespace Keala.Middleware

open Keala.Js Keala.Http Keala.Core

variable {σ β τ : Type}

/-! ### Reading a response header -/

/-- `c.resHeader(field)`: what is staged, else what the committed response carries. -/
def responseHeaderValue (text : FieldText) (c : Context σ β) (field : JsString) : JsString :=
  match c.stagedAt (text.lower field) with
  | some (.one value) => value
  | some (.many values) => Headers.joinValues values
  | none => (c.res.bind fun res => res.headers.get (text.lower field)).getD []

/-- The parts of a comma-separated list, trimmed, that are not empty. -/
def listTokens (value : JsString) : List JsString :=
  ((split 44 value).map trim).filter fun token => !token.isEmpty

def addVary (text : FieldText) (c : Context σ β) (field : JsString) :
    Except (Thrown τ) (Context σ β) :=
  let tokens := listTokens (responseHeaderValue text c (js "Vary"))
  let tokens :=
    if text.lower field ∈ tokens.map text.lower then tokens else tokens ++ [field]
  setResponseHeader text c (js "Vary") (some (.one (Headers.joinValues tokens)))

/-! ### Options -/

inductive CorsOrigin
  | text (origin : JsString)
  | list (origins : List JsString)
  /-- Called with `none` when the request carries no `Origin`. -/
  | predicate (allows : Option JsString → Bool)

/-- `none` is an option left out. -/
structure CorsOptions (β : Type) where
  origin : Option CorsOrigin := none
  allowMethods : Option (List JsString) := none
  allowHeaders : Option (List JsString) := none
  exposeHeaders : Option (List JsString) := none
  allowCredentials : Bool := false
  maxAge : Option Number := none
  reflectHeaders : Bool := false
  reject : Option (JsString → Response β) := none

namespace CorsOptions

def wildcard (options : CorsOptions β) : Bool :=
  match options.origin with
  | none => true
  | some (.text origin) => origin = js "*"
  | some _ => false

def varyOrigin (options : CorsOptions β) : Bool := !options.wildcard

def isAllowed (options : CorsOptions β) (origin : JsString) : Bool :=
  match options.origin with
  | none => true
  | some (.text allowed) => allowed = js "*" || allowed = origin
  | some (.list allowed) => origin ∈ allowed
  | some (.predicate _) => false

/-- Whether the origin of a request is allowed; the empty text is no origin. -/
def allows (options : CorsOptions β) (origin : JsString) : Bool :=
  match options.origin with
  | some (.predicate allows) =>
      allows (if origin = [] then none else some origin) && origin ≠ [] && origin ≠ js "null"
  | _ => origin ≠ [] && origin ≠ js "null" && options.isAllowed origin

def methods (upper : JsString → JsString) (options : CorsOptions β) : JsString :=
  upper (Headers.joinValues (options.allowMethods.getD
    [js "GET", js "HEAD", js "PUT", js "POST", js "DELETE"]))

def allowHeadersText (text : FieldText) (options : CorsOptions β) : Option JsString :=
  options.allowHeaders.map fun headers => text.lower (Headers.joinValues headers)

end CorsOptions

/-! ### The middleware -/

section

variable (text : FieldText) (upper : JsString → JsString) (runtime : Runtime β) (native : Bool)
  (options : CorsOptions β) (header : JsString → JsString)

def setText (c : Context σ β) (field value : JsString) : Except (Thrown τ) (Context σ β) :=
  setResponseHeader text c field (some (.one value))

def setWhen (condition : Bool) (c : Context σ β) (field value : JsString) :
    Except (Thrown τ) (Context σ β) :=
  if condition then setText text c field value else .ok c

def preflightHeaders (c : Context σ β) : Except (Thrown τ) (Context σ β) :=
  match options.allowHeadersText text with
  | some headers => setText text c (js "Access-Control-Allow-Headers") headers
  | none =>
      let reflected :=
        Headers.joinValues (listTokens (header (js "access-control-request-headers")))
      if options.reflectHeaders ∧ reflected ≠ [] then do
        let c ← setText text c (js "Access-Control-Allow-Headers") reflected
        addVary text c (js "Access-Control-Request-Headers")
      else .ok c

def rejectOrigin (c : Context σ β) : Except (Thrown τ) (Context σ β × Option (Response β)) := do
  let c ← if options.varyOrigin then addVary text c (js "Origin") else pure c
  match options.reject with
  | some reject => pure (c, some (reject (header (js "origin"))))
  | none =>
      let (c, answer) := SugarCall.run τ runtime native text c
        ⟨.text, js (statusMessage 403), some 403, none⟩
      pure (c, some (← answer))

def answerPreflight (c : Context σ β) : Except (Thrown τ) (Context σ β × Option (Response β)) := do
  let c ← setText text c (js "Access-Control-Allow-Origin")
    (if options.wildcard then js "*" else header (js "origin"))
  let c ← setText text c (js "Access-Control-Allow-Methods") (options.methods upper)
  let c ← preflightHeaders text options header c
  let c ← setWhen text options.allowCredentials c (js "Access-Control-Allow-Credentials")
    (js "true")
  let c ← setWhen text options.maxAge.isSome c (js "Access-Control-Max-Age")
    (numberText (options.maxAge.getD .nan).trunc)
  let c ← if options.varyOrigin then addVary text c (js "Origin") else pure c
  let answer ← construct runtime none 204 [] Headers.empty
  pure (c, some answer)

/-- What is written once `next` has returned. -/
def afterNext (c : Context σ β) : Except (Thrown τ) (Context σ β) := do
  let origin := header (js "origin")
  let allowed := options.allows origin
  let c ← if options.varyOrigin then addVary text c (js "Origin") else pure c
  let c ← setWhen text allowed c (js "Access-Control-Allow-Origin")
    (if options.wildcard then js "*" else origin)
  let c ← setWhen text (allowed && options.exposeHeaders.isSome) c
    (js "Access-Control-Expose-Headers") (Headers.joinValues (options.exposeHeaders.getD []))
  setWhen text (allowed && options.allowCredentials) c (js "Access-Control-Allow-Credentials")
    (js "true")

def isPreflight (c : Context σ β) : Bool :=
  c.method = js "OPTIONS" && header (js "access-control-request-method") ≠ []

def corsHandler (c : Context σ β)
    (next : Context σ β → Except (Thrown τ) (Context σ β)) :
    Except (Thrown τ) (Context σ β × Option (Response β)) :=
  let origin := header (js "origin")
  let allowed := options.allows origin
  if isPreflight header c then
    if allowed then answerPreflight text upper runtime options header c
    else rejectOrigin text runtime native options header c
  else if origin ≠ [] ∧ allowed = false then rejectOrigin text runtime native options header c
  else do
    let c ← next c
    let c ← afterNext text options header c
    pure (c, none)

end

end Keala.Middleware
