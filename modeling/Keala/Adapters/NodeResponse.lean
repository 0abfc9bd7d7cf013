import Keala.Core.ErrorResponse
import Keala.Http.PlannedResponse
import Keala.Js.Digits

/-!
`src/adapters/node-response.ts`: what is handed to the sender for a response,
and the one write that goes past it.
-/

namespace Keala.Adapters

open Keala.Js Keala.Http

variable {τ : Type}

/-! ### What is prepared -/

/-- The `ServerResponse`, with the method of its request. -/
structure NodeOut where
  destroyed : Bool
  headersSent : Bool
  method : JsString

inductive NodeBody
  | null
  | text (value : JsString)
  | bytes (value : List UInt8)
  | stream (octets : List UInt8)
  deriving DecidableEq

namespace NodeBody

def octets : NodeBody → List UInt8
  | .null => []
  | .text value => utf8Bytes value
  | .bytes value => value
  | .stream octets => octets

def isStream : NodeBody → Bool
  | .stream _ => true
  | _ => false

end NodeBody

structure NodeResponse where
  status : ℕ
  statusText : JsString
  headers : Headers
  body : NodeBody
  deriving DecidableEq

inductive PrepareError (τ : Type)
  | invalidStatus
  | consumedBody
  | firstRead (error : Thrown τ)
  deriving DecidableEq

def PrepareError.message : PrepareError τ → Option JsString
  | .invalidStatus => some (js "cannot send an error or invalid-status response")
  | .consumedBody =>
      some (js "cannot send a consumed or locked response body — build a fresh Response per call")
  | .firstRead _ => none

def EARLY_MESSAGES : List (ℕ × String) :=
  [(100, "Continue"), (101, "Switching Protocols"), (102, "Processing"), (103, "Early Hints"),
    (200, "OK"), (201, "Created"), (202, "Accepted"), (203, "Non-Authoritative Information"),
    (204, "No Content"), (205, "Reset Content"), (206, "Partial Content"), (207, "Multi-Status"),
    (208, "Already Reported"), (226, "IM Used"), (300, "Multiple Choices"),
    (301, "Moved Permanently"), (302, "Found"), (303, "See Other"), (304, "Not Modified"),
    (305, "Use Proxy"), (307, "Temporary Redirect"), (308, "Permanent Redirect")]

def reasonPhrase (statusText : JsString) (status : ℕ) : JsString :=
  if statusText = [] then
    js ((OrderedMap.get? (EARLY_MESSAGES ++ Core.MESSAGES) status).getD "")
  else statusText

def contentType : JsString := js "content-type"

def contentLength : JsString := js "content-length"

def transferEncoding : JsString := js "transfer-encoding"

def bareHeaders (facts : PlannedResponse τ) (closeAfter : Bool) : List (JsString × JsString) :=
  facts.implicitContentType.toList.map (fun type => (contentType, type)) ++
    if closeAfter then [(js "connection", js "close")] else []

/-- The body of a plan as it is: as bytes, where the sender would give a text a content type. -/
def plannedBody (body : DirectBody) (headers : Headers) : NodeBody :=
  match body with
  | .bytes value => .bytes value
  | .text value =>
      if headers.has contentType then .text value else .bytes (utf8Bytes value)

/-- The copy of the headers that may be rewritten, without a length beside an encoding. -/
def framedHeaders (source : Headers) (closeAfter : Bool) : Headers :=
  let headers := source.copy
  let headers := if closeAfter then headers.put (js "connection") (js "close") else headers
  if headers.has transferEncoding then headers.drop contentLength else headers

/-- A plan with headers of its own, or one that was looked at. -/
def preparePlanned (facts : PlannedResponse τ) (source : Headers) (closeAfter : Bool) :
    NodeResponse :=
  let statusText := reasonPhrase facts.statusText facts.status
  if facts.native.isNone && facts.headerSnapshot.isSome && !closeAfter &&
      !source.has transferEncoding && !source.has contentLength then
    ⟨facts.status, statusText, source, plannedBody facts.directBody source⟩
  else
    let headers := framedHeaders source closeAfter
    if headers.has transferEncoding then
      ⟨facts.status, statusText, headers, .stream facts.directBody.octets⟩
    else
      let headers := headers.put contentLength (decimalText facts.directBody.octets.length)
      ⟨facts.status, statusText, headers, plannedBody facts.directBody headers⟩

def prepareForeign (native : NativeResponse τ) (out : NodeOut) (closeAfter : Bool) :
    Except (PrepareError τ) NodeResponse :=
  if native.isConsumed then .error .consumedBody
  else
    let statusText := reasonPhrase native.statusText native.status
    let headers := framedHeaders native.headers closeAfter
    match native.body with
    | none =>
        if out.method = js "HEAD" then .ok ⟨native.status, statusText, headers, .null⟩
        else
          let headers := headers.drop transferEncoding
          let headers :=
            if native.status ≠ 204 ∧ native.status ≠ 304 then headers.put contentLength (js "0")
            else headers
          .ok ⟨native.status, statusText, headers, .null⟩
    | some body =>
        match body.content with
        | .error error => .error (.firstRead error)
        | .ok octets => .ok ⟨native.status, statusText, headers.drop contentLength, .stream octets⟩

def prepareNodeResponse (response : Answer τ) (out : NodeOut) (closeAfter : Bool) :
    Except (PrepareError τ) NodeResponse :=
  if out.destroyed then .ok ⟨200, [], Headers.empty, .null⟩
  else if response.status < 200 ∨ 599 < response.status then .error .invalidStatus
  else
    match response with
    | .foreign native => prepareForeign native out closeAfter
    | .planned p =>
        match responseFactsOf (.planned p) with
        | none => .error .consumedBody
        | some facts =>
            match facts.headerSnapshot.or (facts.native.map fun native => native.headers) with
            | none =>
                .ok ⟨200, js "OK", ⟨bareHeaders facts closeAfter, false⟩,
                  match facts.directBody with
                  | .text value => .text value
                  | .bytes value => .bytes value⟩
            | some source => .ok (preparePlanned facts source closeAfter)

/-! ### What is written -/

/-- A response on the connection: the headers that are written, and all bytes of the body. -/
structure NodeWire where
  status : ℕ
  headers : Headers
  body : List UInt8

/-- The write of an unobserved default plan; `none` where it is not one. -/
def tryWriteBareNodeResponse (response : Answer τ) (out : NodeOut) (closeAfter : Bool) :
    Option NodeWire :=
  if out.destroyed || response.status ≠ 200 then none
  else
    (responseFactsOf response).bind fun facts =>
      if facts.native.isSome || facts.headerSnapshot.isSome then none
      else
        let body := facts.directBody.octets
        let headers := bareHeaders facts closeAfter ++ [(contentLength, decimalText body.length)]
        some ⟨200, ⟨if out.headersSent then [] else headers, false⟩, body⟩

/-- The sender writes what it is given, and may measure a finite body without framing headers. -/
inductive Sends (given : NodeResponse) : NodeWire → Prop
  | given : Sends given ⟨given.status, given.headers, given.body.octets⟩
  | measured (hfinite : given.body.isStream = false)
      (hlength : given.headers.has contentLength = false)
      (hencoding : given.headers.has transferEncoding = false) :
      Sends given ⟨given.status,
        given.headers.put contentLength (decimalText given.body.octets.length), given.body.octets⟩

end Keala.Adapters
