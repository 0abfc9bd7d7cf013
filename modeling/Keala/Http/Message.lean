import Keala.Lib.OrderedMap
import Keala.Js.Text

/-!
The Fetch `Headers` and `Response` objects as far as the finalizer uses them.
Operations that a guard or the constructor refuses return the error.
-/

namespace Keala.Http

open Keala.Js

inductive Thrown (τ : Type)
  /-- A value thrown by a handler. -/
  | user (value : τ)
  | error (message : JsString)
  | typeError (message : JsString)
  /-- A header write that an immutable guard refuses. -/
  | immutableHeaders
  /-- A response status outside 200..599. -/
  | statusRange
  /-- A body on a status that has none. -/
  | nullBodyStatus
  /-- `getReader` on a locked stream. -/
  | lockedBody
  deriving DecidableEq

variable {β τ : Type}

/-! ### Headers -/

/-- Names are lowercase. -/
structure Headers where
  entries : List (JsString × JsString)
  immutable : Bool
  deriving DecidableEq

def isHttpSpace (c : CodeUnit) : Bool := c = 9 || c = 10 || c = 13 || c = 32

/-- A value as a `Headers` stores it: without the white space around it. -/
def normalized (value : JsString) : JsString := trimBy isHttpSpace value

namespace Headers

def empty : Headers := ⟨[], false⟩

def unguarded (headers : Headers) : Headers := { headers with immutable := false }

def has (headers : Headers) (name : JsString) : Bool :=
  headers.entries.any fun entry => decide (entry.1 = name)

def values (headers : Headers) (name : JsString) : List JsString :=
  (headers.entries.filter fun entry => decide (entry.1 = name)).map Prod.snd

def append (headers : Headers) (name value : JsString) : Except (Thrown τ) Headers :=
  if headers.immutable then .error .immutableHeaders
  else .ok { headers with entries := headers.entries ++ [(name, normalized value)] }

def delete (headers : Headers) (name : JsString) : Except (Thrown τ) Headers :=
  if headers.immutable then .error .immutableHeaders
  else .ok { headers with entries := headers.entries.filter fun entry => !decide (entry.1 = name) }

def setEntries (name value : JsString) : List (JsString × JsString) → List (JsString × JsString)
  | [] => [(name, value)]
  | entry :: entries =>
      if entry.1 = name then
        (name, value) :: entries.filter fun entry => !decide (entry.1 = name)
      else entry :: setEntries name value entries

def set (headers : Headers) (name value : JsString) : Except (Thrown τ) Headers :=
  if headers.immutable then .error .immutableHeaders
  else .ok { headers with entries := setEntries name (normalized value) headers.entries }

def appendAll (headers : Headers) (name : JsString) (values : List JsString) :
    Except (Thrown τ) Headers :=
  values.foldlM (fun headers value => headers.append name value) headers

def joinValues : List JsString → JsString
  | [] => []
  | [value] => value
  | value :: values => value ++ js ", " ++ joinValues values

/-- The pairs of `entries()` but those of "set-cookie": sorted by name, the
values of one name joined. -/
def combined (headers : Headers) : List (JsString × JsString) :=
  let names := (headers.entries.map Prod.fst).eraseDups.filter fun name =>
    !decide (name = js "set-cookie")
  (names.mergeSort fun a b => decide (a ≤ b)).map fun name =>
    (name, joinValues (headers.values name))

def getSetCookie (headers : Headers) : List JsString := headers.values (js "set-cookie")

end Headers

def getOf : List JsString → Option JsString
  | [] => none
  | values => some (Headers.joinValues values)

namespace Headers

def get (headers : Headers) (name : JsString) : Option JsString := getOf (headers.values name)

/-- `new Headers(headers)`, filled from `entries()`: the values of a name come joined. -/
def copy (headers : Headers) : Headers :=
  ⟨(headers.combined ++ headers.getSetCookie.map fun cookie => (js "set-cookie", cookie)).map
    fun entry => (entry.1, normalized entry.2), false⟩

end Headers

inductive HeaderValue
  | one (value : JsString)
  | many (values : List JsString)
  deriving DecidableEq

abbrev HeaderMap := List (JsString × HeaderValue)

/-! ### Responses -/

structure Body (β : Type) where
  content : β
  locked : Bool
  deriving DecidableEq

structure Response (β : Type) where
  status : ℕ
  statusText : JsString
  headers : Headers
  body : Option (Body β)
  deriving DecidableEq

structure Wire (β : Type) where
  status : ℕ
  headers : List (JsString × JsString)
  body : Option β
  deriving DecidableEq

def Response.wire (res : Response β) : Wire β where
  status := res.status
  headers := res.headers.entries
  body := res.body.map Body.content

/-- What differs between runtimes: how text is a body, and whether the
constructor refuses a body on a status that has none (undici does). -/
structure Runtime (β : Type) where
  text : JsString → β
  refusesBodiedEmpty : Bool

def isNullBodyStatus (status : ℕ) : Bool :=
  status = 101 || status = 103 || status = 204 || status = 205 || status = 304

/-- `new Response(body, { status, statusText, headers })`; the headers are given
as the constructor fills them, a `Headers` object as its copy. -/
def construct (runtime : Runtime β) (body : Option (Body β)) (status : ℕ) (statusText : JsString)
    (headers : Headers) : Except (Thrown τ) (Response β) :=
  if status < 200 ∨ 599 < status then .error .statusRange
  else if runtime.refusesBodiedEmpty ∧ isNullBodyStatus status ∧ body.isSome then
    .error .nullBodyStatus
  else .ok { status, statusText, headers := headers.unguarded, body }

/-- `new Response(text, { status })`, which brings its content type. -/
def constructText (runtime : Runtime β) (text : JsString) (status : ℕ) :
    Except (Thrown τ) (Response β) :=
  construct runtime (some ⟨runtime.text text, false⟩) status []
    ⟨[(js "content-type", js "text/plain;charset=UTF-8")], false⟩

def isEmptyStatus (code : ℕ) : Bool := code = 204 || code = 205 || code = 304

end Keala.Http
