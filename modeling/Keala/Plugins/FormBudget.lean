import Keala.Js.NumberText
import Keala.Js.WellFormed
import Keala.Negotiation.Accepts

/-!
The part budget of a form body: the delimiters of a multipart body, or the
separators of an urlencoded one, are counted before the runtime parses it.
-/

namespace Keala.Plugins

open Js Negotiation

/-- What a body reader refuses a body with, other than an error of the runtime. -/
inductive BodyError
  | tooLarge (limit : Number) (declared : Option Number)
  | tooManyParts (parts : ℤ)
  | invalidJson
  | undecodableForm
  deriving DecidableEq

namespace BodyError

def status : BodyError → ℕ
  | tooLarge _ _ => 413
  | tooManyParts _ => 413
  | invalidJson => 400
  | undecodableForm => 400

def code : BodyError → Option JsString
  | tooLarge _ _ => some (js "payload_too_large")
  | tooManyParts _ => none
  | invalidJson => some (js "invalid_json")
  | undecodableForm => none

def message : BodyError → JsString
  | tooLarge limit none =>
      js "request body exceeds the " ++ numberText limit ++ js " byte limit"
  | tooLarge limit (some declared) =>
      js "request body of " ++ numberText declared ++ js " bytes exceeds the " ++
        numberText limit ++ js " byte limit"
  | tooManyParts parts =>
      js "form data exceeds the part budget (" ++ numberText (.finite parts) ++ js " parts)"
  | invalidJson => js "request body is not valid JSON"
  | undecodableForm => js "request body is not decodable form data"

end BodyError

/-! ### Occurrences in bytes -/

def indexOfBytes (needle : List UInt8) : List UInt8 → Option ℕ
  | [] => if needle = [] then some 0 else none
  | b :: bytes =>
      if needle.isPrefixOf (b :: bytes) then some 0 else (indexOfBytes needle bytes).map (· + 1)

/-- The loop of `countOccurrences` on what is left of the buffer: each match is left `step` bytes
behind its start. -/
def countFrom (needle : List UInt8) (step : ℕ) : ℕ → List UInt8 → ℕ
  | 0, _ => 0
  | fuel + 1, bytes =>
      match indexOfBytes needle bytes with
      | none => 0
      | some at' => 1 + countFrom needle step fuel (bytes.drop (at' + step))

/-- The needle is sought in UTF-8, and left by its length in code units. -/
def countOccurrences (bytes : List UInt8) (needle : JsString) : ℕ :=
  countFrom (utf8Bytes needle) needle.length (bytes.length + 1) bytes

/-! ### The budget -/

section

variable (lower : JsString → JsString)

def boundaryOf (contentType : JsString) : Option JsString :=
  match (contentTypeParameters lower contentType).find? fun p => p.1 = js "boundary" with
  | none => none
  | some (_, value) => if value = [] ∨ 1024 < value.length then none else some value

def assertFormPartBudget (bytes : List UInt8) (contentType : JsString) (limit : Number) :
    Except BodyError Unit :=
  let type := lower contentType
  if startsWith type (js "multipart/") then
    match boundaryOf lower contentType with
    | none => .ok ()
    | some boundary =>
        let parts : ℤ := countOccurrences bytes (js "--" ++ boundary) - 1
        if limit.lt (.finite parts) then .error (.tooManyParts parts) else .ok ()
  else if startsWith type (js "application/x-www-form-urlencoded") then
    let parts : ℤ := if bytes = [] then 0 else countOccurrences bytes (js "&") + 1
    if limit.lt (.finite parts) then .error (.tooManyParts parts) else .ok ()
  else .ok ()

end

end Keala.Plugins
