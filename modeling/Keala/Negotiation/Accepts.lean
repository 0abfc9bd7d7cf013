import Keala.Js.ParseFloat
import Keala.Lib.OrderedMap

/-!
Content negotiation (`src/negotiation/accepts.ts`): the entries of a preference
header, the two scores, and the choice among the provided values. `lower` is
`toLowerCase`.
-/

namespace Keala.Negotiation

open Keala.Js

structure Preference where
  value : JsString
  q : ℚ
  order : ℕ
  params : Option (List JsString)
  deriving DecidableEq

/-! ### Parsing -/

def splitQuoted : JsString → JsString → Bool → List JsString
  | [], current, _ => [current]
  | ch :: header, current, quoted =>
      let quoted := if ch = 34 then !quoted else quoted
      if ch = 44 && !quoted then current :: splitQuoted header [] quoted
      else splitQuoted header (current ++ [ch]) quoted

def splitHeader (header : JsString) : List JsString :=
  if 44 ∈ header then splitQuoted header [] false else [header]

/-- A weight clamped to 0..1; `none` for `NaN`. -/
def clampQuality : Number → Option ℚ
  | .nan => none
  | .negInfinity => some 0
  | .infinity => some 1
  | .finite parsed => some (min (max parsed 0) 1)

structure EntryParams where
  q : ℚ
  weighted : Bool
  params : Option (List JsString)

variable (lower : JsString → JsString)

/-- The loop over the parameters of an entry; `none` for a malformed weight. -/
def readParams : List JsString → EntryParams → Option EntryParams
  | [], state => some state
  | segment :: segments, state =>
      let param := trim segment
      match indexOf param 61 with
      | none => readParams segments state
      | some eq =>
          let name := lower (trim (param.take eq))
          if !state.weighted && name = js "q" then
            match clampQuality (parseFloat (param.drop (eq + 1))) with
            | none => none
            | some q => readParams segments { state with q := q, weighted := true }
          else if state.weighted then readParams segments state
          else if name = [] then readParams segments state
          else
            let param := name ++ 61 :: trim (param.drop (eq + 1))
            readParams segments { state with params := some (state.params.getD [] ++ [param]) }

def parseEntry (part : JsString) (order : ℕ) : Option Preference :=
  let segments := split 59 part
  let value := lower (trim (segments.headD []))
  if value = [] then none
  else
    (readParams lower segments.tail ⟨1, false, none⟩).map fun state =>
      ⟨value, state.q, order, state.params⟩

def parseParts : List JsString → List Preference → List Preference
  | [], out => out
  | part :: parts, out =>
      match parseEntry lower part out.length with
      | none => parseParts parts out
      | some entry => parseParts parts (out ++ [entry])

def parsePreferenceEntries (header : Option JsString) : List Preference :=
  match header with
  | none => []
  | some header => if header = [] then [] else parseParts lower (splitHeader header) []

/-! ### Scores -/

/-- The scan of `contentTypeParameters`; an escaped unit is kept as it is. -/
def splitParameters : JsString → JsString → Bool → Bool → List JsString
  | [], current, _, _ => [current]
  | ch :: text, current, inQuotes, escaped =>
      if escaped then splitParameters text (current ++ [ch]) inQuotes false
      else if ch = 92 then splitParameters text (current ++ [ch]) inQuotes true
      else
        let inQuotes := if ch = 34 then !inQuotes else inQuotes
        if ch = 59 && !inQuotes then current :: splitParameters text [] inQuotes false
        else splitParameters text (current ++ [ch]) inQuotes false

def unquote (value : JsString) : JsString :=
  if 2 ≤ value.length ∧ (value.head? = some 34 ∧ value.getLast? = some 34 ∨
      value.head? = some 39 ∧ value.getLast? = some 39)
  then value.tail.dropLast else value

def contentTypeParameters (contentType : JsString) : List (JsString × JsString) :=
  (splitParameters contentType [] false false).tail.filterMap fun part =>
    (indexOf part 61).bind fun eq =>
      let name := lower (trim (part.take eq))
      if name = [] then none else some (name, unquote (trim (part.drop (eq + 1))))

def serverMediaOf (server : JsString) : JsString × List (JsString × JsString) :=
  match indexOf server 59 with
  | none => (lower (trim server), [])
  | some semi =>
      (lower (trim (server.take semi)),
        (contentTypeParameters lower server).foldl
          (fun params param => OrderedMap.set params param.1 (lower param.2)) [])

def paramsMatch (serverParams : List (JsString × JsString)) (params : List JsString) : Bool :=
  params.all fun entry =>
    match indexOf entry 61 with
    | none => false
    | some eq =>
        OrderedMap.get? serverParams (entry.take eq) = some (lower (entry.drop (eq + 1)))

def mediaScore (pref : Preference) (server : JsString) : ℕ :=
  let (type, serverParams) := serverMediaOf lower server
  let client := pref.value
  let score :=
    if client = js "*" ∨ client = js "*/*" then 1
    else if endsWith client (js "/*") then
      if some (client.take (client.length - 2)) = (split 47 type)[0]? then 2 else 0
    else if startsWith client (js "*/") then
      if some (client.drop 2) = (split 47 type)[1]? then 2 else 0
    else if client = type then 3 else 0
  if score = 0 then 0
  else
    match pref.params with
    | none => score
    | some params =>
        if paramsMatch lower serverParams params then if score = 3 then score + 1 else score
        else 0

/-! ### The choice -/

def matchStep (score : Preference → JsString → ℕ) (target : JsString)
    (found : Option Preference × ℕ) (pref : Preference) : Option Preference × ℕ :=
  let s := score pref target
  if found.2 < s || (s = found.2 && 0 < s && (found.1.map Preference.q).getD (-1) < pref.q)
  then (some pref, s) else found

/-- The entry that defines a value's quality, with its score. -/
def definingMatch (score : Preference → JsString → ℕ) (prefs : List Preference)
    (target : JsString) : Option Preference × ℕ :=
  prefs.foldl (matchStep score target) (none, 0)

/-- The best value so far: `none` is the index -1, `⊤` the order `Infinity`. -/
structure Best where
  index : Option ℕ
  q : ℚ
  score : ℕ
  order : WithTop ℕ

def beats (pref : Preference) (score : ℕ) (best : Best) : Bool :=
  best.q < pref.q || (pref.q = best.q && best.score < score) ||
    (pref.q = best.q && score = best.score && (pref.order : WithTop ℕ) < best.order)

def pickStep (normalize : JsString → JsString) (score : Preference → JsString → ℕ)
    (prefs : List Preference) (best : Best) (value : JsString × ℕ) : Best :=
  let target := normalize value.1
  if target = [] then best
  else
    match definingMatch score prefs target with
    | (none, _) => best
    | (some pref, s) =>
        if pref.q ≤ 0 then best
        else if beats pref s best then ⟨some value.2, pref.q, s, pref.order⟩
        else best

/-- `none` is `false`. -/
def pickPreference (header : Option JsString) (provided : List JsString)
    (normalize : JsString → JsString) (score : Preference → JsString → ℕ) : Option JsString :=
  if header.getD [] = [] then provided.head?
  else
    let prefs := parsePreferenceEntries lower header
    let best := provided.zipIdx.foldl (pickStep normalize score prefs) ⟨none, 0, 0, ⊤⟩
    best.index.bind fun index => provided[index]?

/-! ### Media types -/

def TYPE_SHORTHANDS : List (JsString × JsString) :=
  [(js "html", js "text/html"), (js "htm", js "text/html"), (js "xml", js "application/xml"),
    (js "json", js "application/json"), (js "text", js "text/plain"), (js "txt", js "text/plain"),
    (js "csv", js "text/csv"), (js "css", js "text/css"), (js "js", js "text/javascript"),
    (js "png", js "image/png"), (js "jpg", js "image/jpeg"), (js "jpeg", js "image/jpeg"),
    (js "gif", js "image/gif"), (js "svg", js "image/svg+xml"), (js "webp", js "image/webp"),
    (js "ico", js "image/x-icon"), (js "pdf", js "application/pdf"),
    (js "zip", js "application/zip"), (js "wasm", js "application/wasm"),
    (js "urlencoded", js "application/x-www-form-urlencoded"),
    (js "multipart", js "multipart/*"), (js "image", js "image/*"), (js "audio", js "audio/*"),
    (js "video", js "video/*")]

def EXPAND_CACHE : List (JsString × JsString) :=
  [(js "html", js "text/html"), (js "json", js "application/json"),
    (js "xml", js "application/xml"), (js "text", js "text/plain")]

def expandShorthand (type : JsString) : JsString := (OrderedMap.get? TYPE_SHORTHANDS type).getD type

def expand (value : JsString) : JsString :=
  (OrderedMap.get? EXPAND_CACHE (lower value)).getD (expandShorthand (lower value))

def acceptsType (header : Option JsString) (provided : List JsString) : Option JsString :=
  pickPreference lower header provided (expand lower) (mediaScore lower)

example : acceptsType id (some (js "text/*;q=0.5, application/json")) [js "html", js "json"] =
    some (js "json") := by decide +kernel

end Keala.Negotiation
