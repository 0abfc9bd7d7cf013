import Keala.Http.Query
import Keala.Js.Uri
import Keala.Lib.Memo

/-!
Targeted query lookup (`src/utils/query.ts`): a scan for one key in each of its
wire forms, with the boundaries tested at every hit. `none` for an answer is
the `URIError` of a name that cannot be encoded.
-/

namespace Keala.Http

open Keala.Js

/-- `indexOf` from a position on, for a text that is not empty. -/
def indexOfFrom (input text : JsString) (position : ℕ) : Option ℕ :=
  (indexOfText text (input.drop position)).map (· + position)

/-- A key found between its boundaries: where the raw value starts and ends. -/
structure QueryEntry where
  start : ℕ
  stop : ℕ
  deriving DecidableEq

def entryAt (input name : JsString) (hit : ℕ) : QueryEntry :=
  let after := hit + name.length
  { start := if input[after]? = some 61 then after + 1 else after
    stop := (indexOfFrom input [38] after).getD input.length }

/-- What the scan tests at a hit: the text before it and the text behind it. -/
def standsAlone (input name : JsString) (hit : ℕ) : Bool :=
  let next := input[hit + name.length]?
  (hit = 0 || input[hit - 1]? = some 38) && (next = some 61 || next = some 38 || next = none) &&
    0 < name.length

def findQueryEntryWithin (input name : JsString) : ℕ → ℕ → Option QueryEntry
  | 0, _ => none
  | fuel + 1, position =>
      match indexOfFrom input name position with
      | none => none
      | some hit =>
          if standsAlone input name hit then some (entryAt input name hit)
          else findQueryEntryWithin input name fuel (hit + 1)

/-- Every round starts behind the last hit, so the length bounds the rounds. -/
def findQueryEntry (input name : JsString) (position : ℕ) : Option QueryEntry :=
  findQueryEntryWithin input name (input.length + 1) position

/-! ### The wire forms of a key -/

def computeWireForms (name : JsString) : Option (List JsString) :=
  (encodeURIComponent name).map fun encoded =>
    let plus := if 32 ∈ name then some (replaceUnit 32 43 name) else none
    if encoded = name then name :: plus.toList else name :: encoded :: plus.toList

abbrev WireFormsCache := List (JsString × List JsString)

def WIRE_FORMS_MAX : ℕ := 256

/-- The forms and the table after the call; a name that throws is not kept. -/
def wireForms (wireFormsCache : WireFormsCache) (name : JsString) :
    Option (List JsString) × WireFormsCache :=
  match OrderedMap.get? wireFormsCache name with
  | some memo => (some memo, wireFormsCache)
  | none =>
      match computeWireForms name with
      | none => (none, wireFormsCache)
      | some forms => (some forms, Memo.remember WIRE_FORMS_MAX wireFormsCache name forms)

/-! ### The two readers -/

def entryValue (input : JsString) (entry : QueryEntry) : JsString :=
  decode ((input.take entry.stop).drop entry.start)

def firstValue (input : JsString) : List JsString → Option JsString
  | [] => none
  | form :: forms =>
      match findQueryEntry input form 0 with
      | some entry => some (entryValue input entry)
      | none => firstValue input forms

/-- The inner loop of `findAllQueryValues`: the entries of one form. -/
def entriesWithin (input form : JsString) : ℕ → ℕ → List QueryEntry
  | 0, _ => []
  | fuel + 1, position =>
      match findQueryEntry input form position with
      | none => []
      | some entry => entry :: entriesWithin input form fuel entry.stop

/-- Every entry ends behind the last one, so the length bounds the rounds. -/
def entriesOf (input form : JsString) : List QueryEntry :=
  entriesWithin input form (input.length + 1) 0

def allValues (input : JsString) (forms : List JsString) : List JsString :=
  forms.flatMap fun form => (entriesOf input form).map (entryValue input)

def findQueryValue (wireFormsCache : WireFormsCache) (input name : JsString) :
    Option (Option JsString) × WireFormsCache :=
  if input.length = 0 ∨ name.length = 0 then (some none, wireFormsCache)
  else
    let (forms, wireFormsCache) := wireForms wireFormsCache name
    (forms.map (firstValue input), wireFormsCache)

def findAllQueryValues (wireFormsCache : WireFormsCache) (input name : JsString) :
    Option (List JsString) × WireFormsCache :=
  if input.length = 0 ∨ name.length = 0 then (some [], wireFormsCache)
  else
    let (forms, wireFormsCache) := wireForms wireFormsCache name
    (forms.map (allValues input), wireFormsCache)

example :
    (findAllQueryValues [] (js "user+name=1&x=user name&user%20name=%41") (js "user name")).1 =
      some [js "A", js "1"] := by decide +kernel

/-- The table after a history of lookups, each an input and a name. -/
def cacheAfter (history : List (JsString × JsString)) : WireFormsCache :=
  history.foldl (fun cache call => (findAllQueryValues cache call.1 call.2).2) []

/-! ### The pairs of a query string -/

def pairKey (pair : JsString) : JsString := pair.takeWhile (· ≠ 61)

def pairValue (pair : JsString) : JsString := (pair.dropWhile (· ≠ 61)).tail

/-- A key is the name as it is, encoded, or with its spaces as `+`. -/
def Spells (name key : JsString) : Prop :=
  key = name ∨ encodeURIComponent name = some key ∨ key = replaceUnit 32 43 name

instance (name key : JsString) : Decidable (Spells name key) := by
  unfold Spells
  infer_instance

/-- The pairs of the query string whose key is the name; the empty name, which
both readers refuse, names none. -/
def pairsNamed (input name : JsString) : List JsString :=
  (split 38 input).filter fun pair => name ≠ [] ∧ Spells name (pairKey pair)

def valueOf (pair : JsString) : JsString := decode (pairValue pair)

end Keala.Http
