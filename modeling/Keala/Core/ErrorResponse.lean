import Keala.Core.LastWrite

/-!
The error funnel (`src/core/error-response.ts`, `toHttpError` of
`src/http/errors.ts`): a failure becomes a response through the error mapper or
the built-in page, and both carry the headers of what they discard.
-/

namespace Keala.Core

open Keala.Js Keala.Http

variable {σ β τ : Type}

/-! ### Errors -/

def isValidErrorStatus (code : ℕ) : Bool := 400 ≤ code && code ≤ 599

structure HttpError where
  status : ℕ
  expose : Bool
  message : JsString
  headers : Option HeaderMap
  valid : isValidErrorStatus status = true

structure ErrorObject where
  /-- It is an instance of this realm's `Error`. -/
  sameRealm : Bool
  /-- Its `status`, where that is an integer. -/
  status : Option ℕ
  expose : Bool
  message : JsString
  headers : Option HeaderMap
  /-- It refuses writes. -/
  frozen : Bool

inductive Throwable
  | error (object : ErrorObject)
  /-- Any other value, by its text. -/
  | other (text : JsString)

def toHttpError : Throwable → HttpError
  | .error object =>
      match object.status with
      | some status =>
          if h : isValidErrorStatus status = true ∧ object.sameRealm = true then
            ⟨status, object.expose, object.message, object.headers, h.1⟩
          else ⟨500, false, object.message, if object.frozen then none else object.headers, rfl⟩
      | none => ⟨500, false, object.message, if object.frozen then none else object.headers, rfl⟩
  | .other text => ⟨500, false, text, none, rfl⟩

def MESSAGES : List (ℕ × String) :=
  [(400, "Bad Request"), (401, "Unauthorized"), (402, "Payment Required"), (403, "Forbidden"),
    (404, "Not Found"), (405, "Method Not Allowed"), (406, "Not Acceptable"),
    (407, "Proxy Authentication Required"), (408, "Request Timeout"), (409, "Conflict"),
    (410, "Gone"), (411, "Length Required"), (412, "Precondition Failed"),
    (413, "Payload Too Large"), (414, "URI Too Long"), (415, "Unsupported Media Type"),
    (416, "Range Not Satisfiable"), (417, "Expectation Failed"), (418, "I'm a teapot"),
    (421, "Misdirected Request"), (422, "Unprocessable Content"), (423, "Locked"),
    (424, "Failed Dependency"), (425, "Too Early"), (426, "Upgrade Required"),
    (428, "Precondition Required"), (429, "Too Many Requests"),
    (431, "Request Header Fields Too Large"), (451, "Unavailable For Legal Reasons"),
    (500, "Internal Server Error"), (501, "Not Implemented"), (502, "Bad Gateway"),
    (503, "Service Unavailable"), (504, "Gateway Timeout"), (505, "HTTP Version Not Supported"),
    (506, "Variant Also Negotiates"), (507, "Insufficient Storage"), (508, "Loop Detected"),
    (510, "Not Extended"), (511, "Network Authentication Required")]

def statusMessage (code : ℕ) : String := (OrderedMap.get? MESSAGES code).getD ""

def HttpError.page (error : HttpError) : JsString :=
  if error.expose then error.message
  else if statusMessage error.status = "" then js "Internal Server Error"
  else js (statusMessage error.status)

/-- The absolute last resort; a HEAD has no body. -/
def staticServerError (runtime : Runtime β) (method : JsString) : Response β where
  status := 500
  statusText := []
  headers := ⟨[(js "content-type", js "text/plain; charset=utf-8")], false⟩
  body :=
    if method = js "HEAD" then none
    else some ⟨runtime.text (js "Internal Server Error"), false⟩

/-! ### The headers of what is discarded -/

/-- What the committed response carries that the record does not shadow, and
the cookies of both. -/
def harvested (committed : Headers) (record : HeaderMap) : HeaderMap :=
  let kept := (committed.combined.filter fun entry =>
    (OrderedMap.get? record entry.1).isNone).map fun entry => (entry.1, HeaderValue.one entry.2)
  let recordCookies := OrderedMap.get? record (js "set-cookie")
  if committed.getSetCookie ≠ [] ∨ recordCookies.isSome then
    OrderedMap.set kept (js "set-cookie")
      (.many (committed.getSetCookie ++ (recordCookies.map itemsOf).getD []))
  else kept

def setAll (out record : HeaderMap) : HeaderMap :=
  record.foldl (fun out entry => OrderedMap.set out entry.1 entry.2) out

/-- The staged record reconciled over what the committed response carries: the
record wins per name, and set-cookie joins. -/
def reconciledHeaderSources (c : Context σ β) : Option HeaderMap :=
  match c.res with
  | none => c.staged.headersRecord
  | some committed =>
      match harvested committed.headers c.record with
      | [] => c.staged.headersRecord
      | out => some (setAll out
          (c.record.filter fun entry => !decide (entry.1 = js "set-cookie")))

/-! ### The built-in page -/

def MERGE_FORBIDDEN_CONTENT : List JsString :=
  [js "content-type", js "content-length", js "transfer-encoding", js "content-encoding"]

def MERGE_FORBIDDEN_NAMES : List JsString := [js "__proto__", js "constructor", js "prototype"]

def isFieldUnit (c : CodeUnit) : Bool := !(c = 0 || c = 10 || c = 13) && c ≤ 255

/-- `Headers` takes the text as a value, which it checks as it would store it. -/
def fetchAccepts (value : JsString) : Bool := (normalized value).all isFieldUnit

def Carriable (record : HeaderMap) : Prop :=
  ∀ entry ∈ record, ∀ value ∈ writtenItems entry.2, fetchAccepts value = true

instance (record : HeaderMap) : Decidable (Carriable record) :=
  inferInstanceAs
    (Decidable (∀ entry ∈ record, ∀ value ∈ writtenItems entry.2, fetchAccepts value = true))

/-- The reconciled sources land in the live record, without the content
describing names. -/
def landSources (c : Context σ β) (sources : HeaderMap) : Context σ β :=
  c.withRecord (MERGE_FORBIDDEN_CONTENT.foldl OrderedMap.delete
    (setAll c.record sources))

/-- A header that `c.setHeader` refuses is dropped. -/
def stageErrorHeader (τ : Type) (text : FieldText) (c : Context σ β)
    (entry : JsString × HeaderValue) : Context σ β :=
  (HeaderCall.set entry.1 (some entry.2)).run τ text c

def builtinErrorResponse (app : Application σ β τ) (text : FieldText) (c : Context σ β)
    (error : HttpError) : Context σ β × Response β :=
  let sources := reconciledHeaderSources c
  let c := { c with res := none }
  let c := (sources.map (landSources c)).getD c
  let page : Response β :=
    { status := error.status
      statusText := []
      headers := ⟨[(js "content-type", js "text/plain; charset=utf-8")], false⟩
      body := some ⟨app.runtime.text error.page, false⟩ }
  -- Nothing staged, nothing to replay.
  if (sources.isNone ∨ c.record = []) ∧ error.headers.isNone ∧ c.method ≠ js "HEAD" ∧
      isEmptyStatus error.status = false then (c, page)
  else
    let c := (error.headers.getD []).foldl (stageErrorHeader τ text) c
    let c := { c with statusValue := error.status }
    let c := stageErrorHeader τ text c
      (js "Content-Type", .one (js "text/plain; charset=utf-8"))
    -- A staged header that no response can carry fails the conversion.
    if Carriable c.record then
      match finishCommitted app c page with
      | .ok res => (c, res)
      | .error _ => (c, staticServerError app.runtime c.method)
    else (c, staticServerError app.runtime c.method)

/-! ### The takeover of a mapper -/

def isMergeForbidden (text : FieldText) (name : JsString) : Bool :=
  decide (text.lower name ∈ MERGE_FORBIDDEN_CONTENT) || decide (name ∈ MERGE_FORBIDDEN_NAMES)

def flattenHeaders (record : HeaderMap) : List (JsString × JsString) :=
  record.flatMap fun entry => (writtenItems entry.2).map fun value => (entry.1, value)

/-- One write of the merge. An invalid value is dropped alone, `none` asks for a
rebuild where the guard refuses a valid one. -/
def mergeItem (write : Headers → JsString → JsString → Except (Thrown Unit) Headers)
    (name : JsString) (headers : Headers) (item : JsString) : Option Headers :=
  if fetchAccepts item then (write headers name item).toOption else some headers

/-- An entry of `error.headers` fills a slot that is empty. -/
def mergeErrorHeader (text : FieldText) (headers : Headers) (entry : JsString × HeaderValue) :
    Option Headers :=
  let name := text.lower entry.1
  if isMergeForbidden text entry.1 || !isToken entry.1 || headers.has name then some headers
  else
    match entry.2 with
    | .one value => mergeItem Headers.set name headers value
    | .many values => values.foldlM (mergeItem Headers.append name) headers

/-- A staged pair; `merged` are the names that were empty before. -/
def mergeStagedPair (text : FieldText) (st : Headers × List JsString)
    (pair : JsString × JsString) : Option (Headers × List JsString) :=
  let (headers, merged) := st
  if isMergeForbidden text pair.1 then some st
  else if pair.1 ≠ js "set-cookie" ∧ headers.has pair.1 = true ∧ pair.1 ∉ merged then some st
  else
    (mergeItem Headers.append pair.1 headers pair.2).map fun headers => (headers, pair.1 :: merged)

/-- The if-absent merge; `none` asks for a rebuild. -/
def applyAbsentHeaders (text : FieldText) (headers : Headers) (error : HttpError)
    (staged : Option HeaderMap) : Option Headers := do
  let headers ← (error.headers.getD []).foldlM (mergeErrorHeader text) headers
  let (headers, _) ← (flattenHeaders (staged.getD [])).foldlM (mergeStagedPair text) (headers, [])
  pure headers

def mutableHeaderCopy (source : Headers) : Headers := source.copy

def mergeAbsentHeaders (runtime : Runtime β) (text : FieldText) (res : Response β)
    (error : HttpError) (staged : Option HeaderMap) : Except (Thrown τ) (Response β) :=
  match applyAbsentHeaders text res.headers error staged with
  | some headers => .ok { res with headers }
  | none => do
      let rebuilt ← construct runtime res.body res.status res.statusText
        (mutableHeaderCopy res.headers).copy
      pure { rebuilt with
        headers := (applyAbsentHeaders text rebuilt.headers error staged).getD rebuilt.headers }

structure Takeover (β : Type) where
  res : Response β
  /-- `Response.error()`. -/
  errorType : Bool
  bodyUsed : Bool

def sanitized (runtime : Runtime β) (res : Response β) : Except (Thrown τ) (Response β) :=
  if isEmptyStatus res.status && res.body.isSome then sanitizeEmptyStatus runtime res else .ok res

def stripped (runtime : Runtime β) (method : JsString) (res : Response β) :
    Except (Thrown τ) (Response β) :=
  if method = js "HEAD" ∧ res.body.isSome then stripBody runtime res else .ok res

def finalizeTakeoverResponse (runtime : Runtime β) (text : FieldText) (c : Context σ β)
    (out : Takeover β) (error : HttpError) : Except (Thrown τ) (Response β) :=
  if out.errorType || out.bodyUsed || out.res.body.any Body.locked then
    .ok (staticServerError runtime c.method)
  else
    let sources := reconciledHeaderSources c
    if c.method ≠ js "HEAD" ∧ isEmptyStatus out.res.status = false ∧ error.headers.isNone ∧
        sources.isNone then .ok out.res
    else do
      let res ← sanitized runtime out.res
      let res ← stripped runtime c.method res
      mergeAbsentHeaders runtime text res error sources

/-! ### The funnel -/

inductive MapperResult (β : Type)
  | declines
  | takesOver (out : Takeover β)
  /-- It throws, rejects or answers something else. -/
  | fails

abbrev ErrorMapper (σ β : Type) := Context σ β → HttpError → Context σ β × MapperResult β

/-- The context that a mapper leaves, and its answer; without one it is declined. -/
def mapped (mapper : Option (ErrorMapper σ β)) (c : Context σ β) (error : HttpError) :
    Context σ β × MapperResult β :=
  match mapper with
  | none => (c, .declines)
  | some mapper => mapper c error

def buildErrorResponse (app : Application σ β τ) (text : FieldText)
    (mapper : Option (ErrorMapper σ β)) (c : Context σ β) (thrown : Throwable) :
    Context σ β × Response β :=
  let error := toHttpError thrown
  match mapped mapper c error with
  | (c, .declines) => builtinErrorResponse app text c error
  | (c, .takesOver out) =>
      match (finalizeTakeoverResponse app.runtime text c out error :
        Except (Thrown τ) (Response β)) with
      | .ok res => (c, res)
      | .error _ => (c, staticServerError app.runtime c.method)
  | (c, .fails) => (c, staticServerError app.runtime c.method)

end Keala.Core
