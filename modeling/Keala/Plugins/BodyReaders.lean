import Keala.Js.Rounding
import Keala.Plugins.FormBudget

/-!
The body readers of a context. The body is read once, under the limit of the
first reader, and every reader keeps the promise it made.

A promise is modelled by what it settles to: a memo is filled when the reader
is called, and nothing that happens until the bytes arrive changes it.
-/

namespace Keala.Plugins

open Js

/-! ### The request -/

/-- `Number.parseInt(text, 10)`. -/
def parseInt (text : JsString) : Number :=
  let (sign, rest) := takeSign (text.dropWhile isSpace)
  let digits := rest.takeWhile isDigit
  if digits = [] then .nan else roundDouble (sign * decimalValue digits)

def declaredLength : Option JsString → Option Number
  | none => none
  | some value =>
      if value = [] then none
      else if parseInt value = .nan then none
      else some (parseInt value)

/-- A request whose body arrives in chunks. -/
structure RequestSource where
  /-- A source of the Node adapter; else a `Request`. -/
  native : Bool
  chunks : List (List UInt8)
  contentLength : Option JsString
  /-- The ceiling of the Node adapter, whatever the readers ask for. -/
  bodyCap : Number

/-- The loop of `readAllLimited`; `#readIncoming` counts the same way. -/
def readChunks (limit : Number) : List (List UInt8) → List UInt8 → Except BodyError (List UInt8)
  | [], out => .ok out
  | chunk :: chunks, out =>
      if limit.lt (.ofNat (out ++ chunk).length) then .error (.tooLarge limit none)
      else readChunks limit chunks (out ++ chunk)

def RequestSource.read (source : RequestSource) (limit : Number) :
    Except BodyError (List UInt8) :=
  let declared := declaredLength source.contentLength
  if declared.any limit.lt then .error (.tooLarge limit declared)
  else if source.native then readChunks (limit.min source.bodyCap) source.chunks []
  else if declared.isSome then .ok source.chunks.flatten
  else readChunks limit source.chunks []

/-! ### The plugin -/

/-- The options of the plugin; `none` is an option left out. -/
structure BodyParserOptions where
  jsonLimit : Option Number := none
  textLimit : Option Number := none
  formLimit : Option Number := none
  formPartLimit : Option Number := none

def isLimit : Number → Bool
  | .finite value => 0 ≤ value
  | _ => false

/-- `assertLimit`: whether it lets the option through. -/
def assertLimit (value : Option Number) : Bool := value.all isLimit

structure BodyReaderConfig where
  jsonLimit : Number
  textLimit : Number
  formLimit : Number
  formPartLimit : Number
  json_limit : isLimit jsonLimit = true
  text_limit : isLimit textLimit = true
  form_limit : isLimit formLimit = true
  part_limit : isLimit formPartLimit = true

theorem isLimit_getD {value : Option Number} (h : assertLimit value = true) {other : Number}
    (hother : isLimit other = true) : isLimit (value.getD other) = true := by
  cases value with
  | none => exact hother
  | some n => exact h

def createBodyParser (options : BodyParserOptions) : Option BodyReaderConfig :=
  if hjson : assertLimit options.jsonLimit = true then
    if htext : assertLimit options.textLimit = true then
      if hform : assertLimit options.formLimit = true then
        if hpart : assertLimit options.formPartLimit = true then
          some
            { jsonLimit := options.jsonLimit.getD (.finite 1048576)
              textLimit := options.textLimit.getD (options.jsonLimit.getD (.finite 1048576))
              formLimit := options.formLimit.getD (.finite 10485760)
              formPartLimit := options.formPartLimit.getD (.finite 1000)
              json_limit := isLimit_getD hjson (by decide)
              text_limit := isLimit_getD htext (isLimit_getD hjson (by decide))
              form_limit := isLimit_getD hform (by decide)
              part_limit := isLimit_getD hpart (by decide) }
        else none
      else none
    else none
  else none

def defaultLimits : BodyReaderConfig := (createBodyParser {}).get (by decide)

/-! ### The readers -/

structure BodyDecoders (J F : Type) where
  null : J
  /-- `JSON.parse(decoder.decode(bytes))`. -/
  parseJson : List UInt8 → Option J
  decode : List UInt8 → JsString
  /-- `new Response(bytes, headers).formData()`, for a content type. -/
  formData : JsString → List UInt8 → Option F

structure BodyReaderState (J F : Type) where
  rawBytes : Option (Except BodyError (List UInt8)) := none
  bytes : Option (Except BodyError (List UInt8)) := none
  bytesLimit : Option Number := none
  jsonValue : Option (Except BodyError J) := none
  text : Option (Except BodyError JsString) := none
  arrayBuffer : Option (Except BodyError (List UInt8)) := none
  formData : Option (Except BodyError F) := none
  blob : Option (Except BodyError (List UInt8)) := none

/-- `effective` of two limits; a first limit not there is compared as `undefined` is. -/
def effectiveLimit (limit : Number) (first : Option Number) : Number :=
  match first with
  | none => .nan
  | some first => if limit.lt first then limit else first

namespace BodyReaderState

variable {J F : Type}

def checked (state : BodyReaderState J F) (limit : Number) (bytes : List UInt8) :
    Except BodyError (List UInt8) :=
  let effective := effectiveLimit limit state.bytesLimit
  if effective.lt (.ofNat bytes.length) then .error (.tooLarge effective none) else .ok bytes

def raw (source : RequestSource) (limit : Number) (state : BodyReaderState J F) :
    Except BodyError (List UInt8) × BodyReaderState J F :=
  match state.rawBytes with
  | some bytes => (bytes, state)
  | none =>
      let bytes := source.read limit
      (bytes, { state with rawBytes := some bytes, bytesLimit := some limit })

def read (source : RequestSource) (limit : Number) (state : BodyReaderState J F) :
    Except BodyError (List UInt8) × BodyReaderState J F :=
  match state.bytes with
  | some bytes =>
      if state.bytesLimit.any (Number.le · limit) then (bytes, state)
      else (bytes >>= state.checked limit, state)
  | none =>
      let (raw, state) := raw source limit state
      let bytes := raw >>= state.checked limit
      (bytes, { state with bytes := some bytes })

end BodyReaderState

/-- A limit that a caller sets: not `NaN`, which every body would be within. -/
structure ByteLimit where
  value : Number
  number : value ≠ .nan
  deriving DecidableEq

inductive BodyReader
  | json
  | text
  | arrayBuffer
  | blob
  | formData
  | readBodyLimited (limit : ByteLimit)
  deriving DecidableEq

inductive BodyResult (J F : Type)
  | failed (error : BodyError)
  | json (value : J)
  | text (value : JsString)
  | bytes (value : List UInt8)
  | blob (value : List UInt8)
  | form (value : F)
  deriving DecidableEq

namespace BodyReaderState

variable {J F : Type} (decoders : BodyDecoders J F) (lower : JsString → JsString)
  (contentType : JsString) (config : BodyReaderConfig) (source : RequestSource)

def parseBody (bytes : List UInt8) : Except BodyError J :=
  if bytes = [] then .ok decoders.null
  else (decoders.parseJson bytes).elim (.error .invalidJson) .ok

def json (state : BodyReaderState J F) : Except BodyError J × BodyReaderState J F :=
  match state.jsonValue with
  | some value => (value, state)
  | none =>
      let (raw, state) := raw source config.jsonLimit state
      let value := raw >>= state.checked config.jsonLimit >>= parseBody decoders
      (value, { state with jsonValue := some value })

def readText (state : BodyReaderState J F) : Except BodyError JsString × BodyReaderState J F :=
  match state.text with
  | some text => (text, state)
  | none =>
      let (raw, state) := raw source config.textLimit state
      let text := decoders.decode <$> (raw >>= state.checked config.textLimit)
      (text, { state with text := some text })

def readArrayBuffer (state : BodyReaderState J F) :
    Except BodyError (List UInt8) × BodyReaderState J F :=
  match state.arrayBuffer with
  | some bytes => (bytes, state)
  | none =>
      let (bytes, state) := read source config.formLimit state
      (bytes, { state with arrayBuffer := some bytes })

def readBlob (state : BodyReaderState J F) :
    Except BodyError (List UInt8) × BodyReaderState J F :=
  match state.blob with
  | some bytes => (bytes, state)
  | none =>
      let (raw, state) := raw source config.formLimit state
      let bytes := raw >>= state.checked config.formLimit
      (bytes, { state with blob := some bytes })

def parseForm (bytes : List UInt8) : Except BodyError F :=
  let contentType := if contentType = [] then js "application/octet-stream" else contentType
  assertFormPartBudget lower bytes contentType config.formPartLimit >>= fun _ =>
    (decoders.formData contentType bytes).elim (.error .undecodableForm) .ok

def readFormData (state : BodyReaderState J F) : Except BodyError F × BodyReaderState J F :=
  match state.formData with
  | some form => (form, state)
  | none =>
      let (raw, state) := raw source config.formLimit state
      let form := raw >>= state.checked config.formLimit >>=
        parseForm decoders lower contentType config
      (form, { state with formData := some form })

/-- What a reader's promise is to a caller. -/
def settle {α : Type} (value : α → BodyResult J F) : Except BodyError α → BodyResult J F
  | .error error => .failed error
  | .ok result => value result

def call (state : BodyReaderState J F) : BodyReader → BodyResult J F × BodyReaderState J F
  | .json => (json decoders config source state).map (settle .json) id
  | .text => (readText decoders config source state).map (settle .text) id
  | .arrayBuffer => (readArrayBuffer config source state).map (settle .bytes) id
  | .blob => (readBlob config source state).map (settle .blob) id
  | .formData =>
      (readFormData decoders lower contentType config source state).map (settle .form) id
  | .readBodyLimited limit => (read source limit.value state).map (settle .bytes) id

def calls (state : BodyReaderState J F) : List BodyReader → List (BodyResult J F)
  | [] => []
  | reader :: readers =>
      let (result, state) := call decoders lower contentType config source state reader
      result :: calls state readers

end BodyReaderState

end Keala.Plugins
