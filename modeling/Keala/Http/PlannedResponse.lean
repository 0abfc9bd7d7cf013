import Keala.Http.HeaderReads
import Keala.Js.WellFormed

/-!
`src/core/response-plan.ts`: a response that keeps the text or the bytes it was
built from, and becomes a `Response` of the runtime only when it is looked at.
-/

namespace Keala.Http

open Keala.Js

variable {τ : Type}

namespace Headers

def put (headers : Headers) (name value : JsString) : Headers :=
  { headers with entries := setEntries name (normalized value) headers.entries }

def drop (headers : Headers) (name : JsString) : Headers :=
  { headers with entries := headers.entries.filter fun entry => !decide (entry.1 = name) }

theorem values_put (headers : Headers) (name value n : JsString) :
    (headers.put name value).values n = if name = n then [normalized value] else headers.values n :=
  values_set headers name (normalized value) n

theorem values_drop (headers : Headers) (name n : JsString) :
    (headers.drop name).values n = if name = n then [] else headers.values n :=
  values_deleted headers name n

theorem has_iff (headers : Headers) (name : JsString) :
    headers.has name = true ↔ headers.values name ≠ [] := by
  rw [has, List.any_eq_true, values, ne_eq, List.map_eq_nil_iff, List.filter_eq_nil_iff]
  simp

theorem has_eq_false_iff (headers : Headers) (name : JsString) :
    headers.has name = false ↔ headers.values name = [] := by
  rw [← Bool.not_eq_true, has_iff, not_not]

end Headers

/-! ### Bodies -/

inductive DirectBody
  | text (value : JsString)
  | bytes (value : List UInt8)
  deriving DecidableEq

namespace DirectBody

def octets : DirectBody → List UInt8
  | .text value => utf8Bytes value
  | .bytes value => value

def isText : DirectBody → Bool
  | .text _ => true
  | .bytes _ => false

end DirectBody

/-- What the reader of a body gives up to its end, or the error of its first read. -/
abbrev BodyContent (τ : Type) := Except (Thrown τ) (List UInt8)

structure NativeResponse (τ : Type) extends Response (BodyContent τ) where
  bodyUsed : Bool

/-! ### Planned responses -/

structure ResponseInit where
  status : Option ℕ := none
  statusText : Option JsString := none
  headers : Option Headers := none

structure PlannedResponse (τ : Type) where
  directBody : DirectBody
  implicitContentType : Option JsString
  native : Option (NativeResponse τ)
  headerSnapshot : Option Headers

namespace PlannedResponse

def status (p : PlannedResponse τ) : ℕ := (p.native.map fun native => native.status).getD 200

def statusText (p : PlannedResponse τ) : JsString :=
  (p.native.map fun native => native.statusText).getD []

def plannedHeaders (p : PlannedResponse τ) (input : Option Headers) : Headers :=
  let headers := (input.getD Headers.empty).copy
  match p.implicitContentType with
  | none => headers
  | some type =>
      if headers.has (js "content-type") then headers else headers.put (js "content-type") type

section

variable (runtime : Runtime (BodyContent τ)) (stringContentType : Option JsString)

/-- The content type that the constructor of `Response` gives a text without one. -/
def withStringType (body : DirectBody) (headers : Headers) : Headers :=
  match stringContentType with
  | none => headers
  | some type =>
      if body.isText && !headers.has (js "content-type") then headers.put (js "content-type") type
      else headers

def materialize (p : PlannedResponse τ) (init : ResponseInit) :
    Except (Thrown τ) (PlannedResponse τ) :=
  match p.native with
  | some _ => .ok p
  | none =>
      let headers := p.headerSnapshot.getD (p.plannedHeaders init.headers)
      (construct runtime (some ⟨.ok p.directBody.octets, false⟩) (init.status.getD 200)
        (init.statusText.getD []) (withStringType stringContentType p.directBody headers.copy)).map
          fun native => { p with native := some ⟨native, false⟩, headerSnapshot := none }

end

end PlannedResponse

section

variable (runtime : Runtime (BodyContent τ)) (stringContentType : Option JsString)

/-- `stringContentType` is what this runtime shows for a text without a content type. -/
def createPlannedResponse (body : DirectBody) (init : Option ResponseInit)
    (implicitContentType : Option JsString) : Except (Thrown τ) (PlannedResponse τ) :=
  let p : PlannedResponse τ := {
    directBody := body
    implicitContentType :=
      implicitContentType.or (if body.isText then stringContentType else none)
    native := none
    headerSnapshot := none }
  match init with
  | none => .ok p
  | some init =>
      if init.status.any (· ≠ 200) || init.statusText.any (· ≠ []) then
        p.materialize runtime stringContentType init
      else
        match init.headers with
        | none => .ok p
        | some headers => .ok { p with headerSnapshot := some (p.plannedHeaders (some headers)) }

end

/-! ### Any response -/

inductive Answer (τ : Type)
  | planned (p : PlannedResponse τ)
  | foreign (native : NativeResponse τ)

namespace Answer

def status : Answer τ → ℕ
  | planned p => p.status
  | foreign native => native.status

end Answer

def NativeResponse.isConsumed (native : NativeResponse τ) : Bool :=
  native.bodyUsed || native.body.any Body.locked

def responseFactsOf : Answer τ → Option (PlannedResponse τ)
  | .planned p => if p.native.any NativeResponse.isConsumed then none else some p
  | .foreign _ => none

end Keala.Http
