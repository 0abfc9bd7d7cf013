import Keala.Js.LastIndex
import Keala.Js.Rounding
import Keala.Js.WellFormed
import Keala.Middleware.JwtKeys

/-!
`verifyJWT`, over the memory that the `RegExp` objects of its options keep.

The checks of the issuer and of the audience call `test` on an expression that
the caller supplies. One with the flag `g` or `y` starts at the index its last
match left, so a token may be accepted once and refused when it comes again.
-/

namespace Keala.Middleware

open Js

/-! ### Crypto -/

structure AlgorithmParams where
  name : JsString
  hash : JsString
  namedCurve : Option JsString
  deriving DecidableEq

inductive JwtError
  | setup (error : JwtSetupError)
  | badAlgorithm (alg : JsString)
  /-- A `verificationError` with the code `invalid_token`. -/
  | invalidToken (detail : JsString)
  /-- The one with the code `algorithm_confusion`. -/
  | algorithmConfusion (detail : JsString)
  | symmetricKey (alg : JsString)
  /-- A rejection of Web Crypto. -/
  | crypto (message : JsString)

structure JwtPlatform where
  /-- `Buffer.from(text, "base64url")`. -/
  fromBase64Url : JsString → List UInt8
  /-- `JSON.parse(new TextDecoder().decode(bytes))`. -/
  parseJson : List UInt8 → Option Json
  /-- `crypto.subtle` for the use `verify`; an import or a check may be rejected. -/
  importRaw : List UInt8 → AlgorithmParams → Except JwtError CryptoKey
  importJwk : Jwk → AlgorithmParams → Except JwtError CryptoKey
  exportJwk : CryptoKey → Except JwtError Jwk
  verify : AlgorithmParams → CryptoKey → List UInt8 → List UInt8 → Except JwtError Bool

def curves : List (JsString × JsString) :=
  [(js "ES256", js "P-256"), (js "ES384", js "P-384"), (js "ES512", js "P-521")]

def algorithmParams (alg : JsString) : Except JwtError AlgorithmParams :=
  let bits := alg.drop (alg.length - 3)
  if bits ∉ bitLengths then .error (.badAlgorithm alg)
  else
    let hash := js "SHA-" ++ bits
    if isHmac alg then .ok ⟨js "HMAC", hash, none⟩
    else if startsWith alg (js "RS") then .ok ⟨js "RSASSA-PKCS1-v1_5", hash, none⟩
    else .ok ⟨js "ECDSA", hash, curves.lookup alg⟩

def publicMembers : List JsString :=
  [js "kty", js "alg", js "e", js "n", js "crv", js "x", js "y"]

def publicJwkOf (key : Jwk) : Jwk := ⟨key.members.filter fun member => member.1 ∈ publicMembers⟩

section

variable (platform : JwtPlatform)

def verifyingKey (key : JwtKey) (alg : JsString) : Except JwtError CryptoKey := do
  let params ← algorithmParams alg
  match key with
  | .cryptoKey key =>
      match key.type with
      | .public => pure key
      | .private => platform.importJwk (publicJwkOf (← platform.exportJwk key)) params
      | .secret => throw (.symmetricKey alg)
  | .jwk key =>
      if (key.members.lookup (js "d")).isSome then platform.importJwk (publicJwkOf key) params
      else platform.importJwk key params
  | .secret _ =>
      throw (.algorithmConfusion (js "a shared secret cannot verify " ++ alg ++ js " tokens"))

def signatureMatches (secret : JwtKey) (alg : JsString) (data signature : List UInt8) :
    Except JwtError Bool := do
  let params ← algorithmParams alg
  if isHmac alg then
    let key ← match secret with
      | .secret text => platform.importRaw (utf8Bytes text) params
      | .cryptoKey key => pure key
      | .jwk key => platform.importJwk key params
    platform.verify params key signature data
  else
    let key ← verifyingKey platform secret alg
    platform.verify params key signature data

/-! ### The token -/

def isSegmentChar (c : CodeUnit) : Bool :=
  (65 ≤ c && c ≤ 90) || (97 ≤ c && c ≤ 122) || (48 ≤ c && c ≤ 57) || c = 95 || c = 45

def decodeSegment (segment : JsString) : Except JwtError (List UInt8) :=
  if segment = [] ∨ segment.any (fun c => !isSegmentChar c) then
    .error (.invalidToken (js "token segment is not base64url"))
  else .ok (platform.fromBase64Url segment)

def jsonOfSegment (segment : JsString) : Except JwtError (List (JsString × Json)) :=
  match (decodeSegment platform segment).toOption.bind platform.parseJson with
  | none => .error (.invalidToken (js "token segment is not JSON"))
  | some (.object members) => .ok members
  | some _ => .error (.invalidToken (js "token segment is not a JSON object"))

def tokenSegments (token : JsString) : Except JwtError (List JsString) :=
  let parts := split 46 token
  if token = [] ∨ 8192 < token.length ∨ parts.length ≠ 3 ∨ [] ∈ parts then
    .error (.invalidToken (js "token is not three non-empty base64url segments"))
  else .ok parts

/-! ### The claims -/

/-- What the issuer is compared with; an expression is one of the objects in memory. -/
inductive IssuerMatcher
  | text (expected : JsString)
  | regExp (ref : ℕ)
  deriving DecidableEq

inductive AudienceMatcher
  | text (expected : JsString)
  | list (expected : List JsString)
  | regExp (ref : ℕ)
  deriving DecidableEq

structure VerifyOptions where
  algorithms : Option (List JsString) := none
  iss : Option IssuerMatcher := none
  aud : Option AudienceMatcher := none
  clockTolerance : Option Number := none

/-- The `lastIndex` of every expression object. -/
abbrev Memory := ℕ → ℕ

variable (regExps : ℕ → RegExpObject)

def testIn (ref : ℕ) (text : JsString) (memory : Memory) : Bool × Memory :=
  let (answer, lastIndex) := (regExps ref).test text (memory ref)
  (answer, Function.update memory ref lastIndex)

def issuerMatches (iss : IssuerMatcher) (claim : JsString) (memory : Memory) : Bool × Memory :=
  match iss with
  | .text expected => (expected = claim, memory)
  | .regExp ref => testIn regExps ref claim memory

def audienceMatches (aud : AudienceMatcher) (claim : JsString) (memory : Memory) :
    Bool × Memory :=
  match aud with
  | .text expected => (claim = expected, memory)
  | .list expected => (claim ∈ expected, memory)
  | .regExp ref => testIn regExps ref claim memory

def someAudience (aud : AudienceMatcher) : List (Option Json) → Memory → Bool × Memory
  | [], memory => (false, memory)
  | claim :: claims, memory =>
      match claim.bind Json.text? with
      | none => someAudience aud claims memory
      | some text =>
          let (found, memory) := audienceMatches regExps aud text memory
          if found then (true, memory) else someAudience aud claims memory

def audienceClaims (payload : List (JsString × Json)) : List (Option Json) :=
  match payload.lookup (js "aud") with
  | some (.array items) => items.map some
  | claim => [claim]

def numeric : Json → Option Number
  | .number (.finite value) => some (.finite value)
  | _ => none

def checkTimes (payload : List (JsString × Json)) (options : VerifyOptions) (now : Number) :
    Except JwtError Unit :=
  let tolerance := options.clockTolerance.getD (.ofNat 30)
  if (payload.lookup (js "nbf")).any fun nbf => (numeric nbf).all (now.plus tolerance).lt then
    .error (.invalidToken (js "token is not yet valid"))
  else if (payload.lookup (js "exp")).any fun exp =>
      (numeric exp).all fun exp => exp.le (now.minus tolerance) then
    .error (.invalidToken (js "token is expired"))
  else .ok ()

def checkIssuer (payload : List (JsString × Json)) (options : VerifyOptions) (memory : Memory) :
    Except JwtError Unit × Memory :=
  match options.iss with
  | none => (.ok (), memory)
  | some iss =>
      let (found, memory) :=
        match memberText payload (js "iss") with
        | none => (false, memory)
        | some claim => issuerMatches regExps iss claim memory
      (if found then .ok () else .error (.invalidToken (js "token issuer mismatch")), memory)

def checkAudience (payload : List (JsString × Json)) (options : VerifyOptions) (memory : Memory) :
    Except JwtError Unit × Memory :=
  match options.aud with
  | none => (.ok (), memory)
  | some aud =>
      let (found, memory) := someAudience regExps aud (audienceClaims payload) memory
      (if found then .ok () else .error (.invalidToken (js "token audience mismatch")), memory)

def validateClaims (payload : List (JsString × Json)) (options : VerifyOptions)
    (milliseconds : ℤ) (memory : Memory) : Except JwtError Unit × Memory :=
  match checkTimes payload options (.finite (milliseconds / 1000 : ℤ)) with
  | .error error => (.error error, memory)
  | .ok () =>
      match checkIssuer regExps payload options memory with
      | (.error error, memory) => (.error error, memory)
      | (.ok (), memory) => checkAudience regExps payload options memory

/-- All that is checked before the claims: the payload of a token whose signature matches. -/
def authenticate (token : JsString) (secret : JwtKey) (options : VerifyOptions) :
    Except JwtError (List (JsString × Json)) := do
  let allowed ← (resolveAlgorithms secret options.algorithms).mapError .setup
  let parts ← tokenSegments token
  let header ← jsonOfSegment platform (parts.getD 0 [])
  match memberText header (js "alg") with
  | none => throw (.invalidToken (js "token algorithm is missing or not allowed"))
  | some alg =>
      if alg ∉ allowed then
        throw (.invalidToken (js "token algorithm is missing or not allowed"))
      if (header.lookup (js "typ")).isSome ∧ memberText header (js "typ") ≠ some (js "JWT") then
        throw (.invalidToken (js "token typ is not JWT"))
      let payload ← jsonOfSegment platform (parts.getD 1 [])
      let data := utf8Bytes (parts.getD 0 [] ++ 46 :: parts.getD 1 [])
      let signature ← decodeSegment platform (parts.getD 2 [])
      if ← signatureMatches platform secret alg data signature then pure payload
      else throw (.invalidToken (js "signature mismatch"))

def verifyJWT (token : JsString) (secret : JwtKey) (options : VerifyOptions) (milliseconds : ℤ)
    (memory : Memory) : Except JwtError (List (JsString × Json)) × Memory :=
  match authenticate platform token secret options with
  | .error error => (.error error, memory)
  | .ok payload =>
      match validateClaims regExps payload options milliseconds memory with
      | (.error error, memory) => (.error error, memory)
      | (.ok (), memory) => (.ok payload, memory)

end

end Keala.Middleware
