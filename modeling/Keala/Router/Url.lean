import Keala.Js.WellFormed
import Keala.Router.Match

/-!
URL building for named routes, and the redirect destinations that share the
pattern compiler (`src/router/url.ts`, the checks of `redirect` in
`src/core/registration.ts` and `src/router/group.ts`).
-/

namespace Keala.Router

open Keala.Js

inductive UrlError
  | missingParam (name : JsString)
  /-- The `URIError` of `encodeURIComponent`. -/
  | uriMalformed
  deriving DecidableEq, Repr

/-- The text of the error; that of a `URIError` is the engine's own. -/
def UrlError.message : UrlError → Option JsString
  | missingParam name =>
      some (js "Missing required parameter \"" ++ name ++ js "\" for url()")
  | uriMalformed => none

def encodeComponent (value : JsString) : Except UrlError JsString :=
  match encodeURIComponent value with
  | none => .error .uriMalformed
  | some encoded => .ok encoded

/-- Percent-encode a path value, where a slash stays a real separator. -/
def encodePathValue (value : JsString) : Except UrlError JsString := do
  let parts ← (split slash value).mapM encodeComponent
  pure (join slash parts)

/-- The part a segment is written as; `none` when an optional one is left out.
`params` is the object form too: an own property or `undefined`. -/
def urlPart (params : JsString → Option JsString) :
    CompiledSegment → Except UrlError (Option JsString)
  -- Compiled static segments are decoded, and a slash in one is data.
  | .static value => (encodeComponent value).map some
  | .param name _ optional =>
      -- "" can never address the route, so it counts as missing.
      match (params name).filter fun value => value ≠ [] with
      | none => if optional then .ok none else .error (.missingParam name)
      | some value => (encodeComponent value).map some
  | .wildcard =>
      match params wildcardName with
      | none => .error (.missingParam wildcardName)
      | some value => (encodePathValue value).map some

def urlParts (params : JsString → Option JsString) :
    List CompiledSegment → Except UrlError (List JsString)
  | [] => .ok []
  | segment :: segments => do
      let part ← urlPart params segment
      let parts ← urlParts params segments
      pure (part.toList ++ parts)

def buildURL (segments : List CompiledSegment) (params : JsString → Option JsString) :
    Except UrlError JsString := do
  let parts ← urlParts params segments
  if parts.length = 0 then pure [slash]
  else
    let joined := join slash parts
    pure (if joined.head? = some slash then joined else slash :: joined)

/-! ### Redirect destinations -/

/-- The compiled path of a destination with params, and the query or fragment
that travels verbatim. -/
structure RedirectTarget where
  segments : List CompiledSegment
  suffix : JsString
  deriving DecidableEq, Repr

/-- Whether the segment that holds index `i` is a param marker. -/
def inParamSegment (destination : JsString) (i : ℕ) : Bool :=
  let segmentStart := match lastIndexOf (destination.take (i + 1)) slash with
    | none => 0
    | some separator => separator + 1
  destination[segmentStart]? = some 58

/-- Where the query or the fragment starts, from index `i` on; `rest` is what
stands there. -/
def cutFrom (destination : JsString) : JsString → ℕ → ℕ → Option ℕ
  | [], _, _ => none
  | ch :: rest, i, depth =>
      let depth :=
        if inParamSegment destination i then
          if ch = 40 then depth + 1 else if ch = 41 then depth - 1 else depth
        else depth
      if depth ≠ 0 then cutFrom destination rest (i + 1) depth
      else if ch = 35 then some i
      else if ch ≠ 63 then cutFrom destination rest (i + 1) depth
      -- Only a segment-final ? is an optional-param marker.
      else if inParamSegment destination i ∧
          rest.head? ∈ [none, some slash, some 63, some 35] then
        cutFrom destination rest (i + 1) depth
      else some i

/-- The pattern of a destination, or `none` when it is verbatim. -/
def redirectTargetSegments (host : Host) (destination : JsString) :
    Except RouteError (Option RedirectTarget) :=
  if destination.head? ≠ some slash ∨ startsWith destination (js "//") then .ok none
  else
    let cut := cutFrom destination destination 0 0
    let pathPart := match cut with
      | none => destination
      | some i => destination.take i
    if !(split slash pathPart).any (fun segment => segment.head? = some 58) then .ok none
    else do
      let ir ← compilePattern host pathPart
      pure (some {
        segments := ir.segments
        suffix := match cut with
          | none => []
          | some i => destination.drop i })

inductive RedirectError
  | code
  | route (e : RouteError)
  | uncaptured (name source : JsString)
  deriving DecidableEq

/-- The text of the error; `quote` is `JSON.stringify` on strings, `shown` the
code as a template literal prints it. -/
def RedirectError.message (quote : JsString → JsString) (shown : JsString) :
    RedirectError → Option JsString
  | code => some (js "redirect() code must be a 3xx integer, got " ++ shown)
  | route e => e.message quote
  | uncaptured name source =>
      some (js "redirect destination references \":" ++ name ++ js "\", which " ++ quote source ++
        js " never captures (optionals may be absent at runtime)")

def CompiledSegment.isRequired (segment : CompiledSegment) : Bool :=
  !segment.isStatic && !segment.optional

def assertRedirectCaptures (host : Host) (source : JsString) (dest : List CompiledSegment) :
    Except RedirectError Unit :=
  match compilePattern host source with
  | .error e => .error (.route e)
  | .ok ir =>
      let available := (ir.segments.filter CompiledSegment.isRequired).map CompiledSegment.value
      match dest.find? fun segment => segment.isRequired && !available.contains segment.value with
      | some segment => .error (.uncaptured segment.value source)
      | none => .ok ()

/-- The checks a redirect passes before its route is registered; `code` is
`none` when it is no integer. -/
def checkRedirect (host : Host) (source destination : JsString) (code : Option ℤ) :
    Except RedirectError (Option RedirectTarget) :=
  match code with
  | none => .error .code
  | some code =>
      if code < 300 ∨ 399 < code then .error .code
      else
        match redirectTargetSegments host destination with
        | .error e => .error (.route e)
        | .ok none => .ok none
        | .ok (some dest) =>
            (assertRedirectCaptures host source dest.segments).map fun _ => some dest

def redirectLocation (destination : JsString) (dest : Option RedirectTarget)
    (params : JsString → Option JsString) : Except UrlError JsString :=
  match dest with
  | none => .ok destination
  | some dest => (buildURL dest.segments params).map (· ++ dest.suffix)

/-! ### What is written -/

theorem encodeComponent_eq_ok {value encoded : JsString} :
    encodeComponent value = .ok encoded ↔ encodeURIComponent value = some encoded := by
  rw [encodeComponent]
  cases encodeURIComponent value with
  | none => simp
  | some found => simp

theorem exists_encodeComponent_iff (value : JsString) :
    (∃ encoded, encodeComponent value = .ok encoded) ↔ isWellFormed value = true := by
  simp only [encodeComponent_eq_ok]
  exact exists_encodeURIComponent_iff value

theorem slash_not_mem_encoded {value encoded : JsString}
    (h : encodeComponent value = .ok encoded) : slash ∉ encoded := by
  intro hmem
  have hkept := isEncoded_of_mem (encodeComponent_eq_ok.mp h) hmem
  exact absurd hkept (by decide)

theorem decodeWithin_of_not_mem {text : JsString} (h : percent ∉ text) :
    decodeWithin text.length text = some text := by
  induction text with
  | nil => rfl
  | cons c text ih =>
      rw [List.mem_cons, not_or] at h
      rw [List.length_cons, decodeWithin_plain (Ne.symm h.1), ih h.2]
      rfl

/-- What is written for a value, the router reads back. -/
theorem decodeSegment_encoded {value encoded : JsString}
    (h : encodeComponent value = .ok encoded) : decodeSegment encoded = value := by
  have hread := decode_encodeURIComponent (encodeComponent_eq_ok.mp h)
  rw [decodeSegment]
  split
  · rw [hread]
    rfl
  · next hpercent =>
      have hself := decodeWithin_of_not_mem hpercent
      exact Option.some.inj (hself.symm.trans hread)

theorem encoded_ne_nil {value encoded : JsString} (h : encodeComponent value = .ok encoded)
    (hne : value ≠ []) : encoded ≠ [] := by
  rintro rfl
  exact hne (decodeSegment_encoded h).symm

end Keala.Router
