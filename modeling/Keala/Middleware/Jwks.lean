import Keala.Lib.Lts
import Keala.Lib.OrderedMap
import Keala.Middleware.JwtVerify

/-!
The remote key set of `src/middleware/jwks.ts`: its cache, its one flight to the
endpoint, and the calls that wait for it. An event is what runs between two
awaits, so calls, answers and the clock come in any order.
-/

namespace Keala.Middleware

open Js OrderedMap

/-! ### Import -/

structure JwksPlatform extends JwtPlatform where
  /-- `JSON.parse(Buffer.from(text, "base64url").toString())`. -/
  parseHeader : JsString → Option Json

def rsaHashOfAlg : List (JsString × JsString) :=
  [(js "RS256", js "SHA-256"), (js "RS384", js "SHA-384"), (js "RS512", js "SHA-512")]

def ecHashOfCurve : List (JsString × JsString) :=
  [(js "P-256", js "SHA-256"), (js "P-384", js "SHA-384"), (js "P-521", js "SHA-512")]

/-- The value as the name of an entry of a table; what else a value can be
names no entry. -/
def entryName : Json → Option JsString
  | .string text => some text
  | .array [item] => entryName item
  | _ => none

/-- What names no entry of a table may still name a property that every object
has; that is no algorithm, and its import is rejected. -/
def importParams (jwk : Jwk) : Option AlgorithmParams :=
  if jwk.kty = some (js "RSA") then
    let hash := match jwk.members.lookup (js "alg") with
      | none => some (js "SHA-256")
      | some alg => (entryName alg).bind (rsaHashOfAlg.lookup ·)
    hash.map (⟨js "RSASSA-PKCS1-v1_5", ·, none⟩)
  else if jwk.kty = some (js "EC") then
    jwk.crv.bind fun crv => (ecHashOfCurve.lookup crv).map (⟨js "ECDSA", ·, some crv⟩)
  else none

/-- A key of the cache: `jwk.kid ?? ""`, an object by its place in the document. -/
inductive Slot
  | text (kid : JsString)
  | number (kid : Number)
  | bool (kid : Bool)
  | object (place : ℕ)
  deriving DecidableEq

def slotOf (place : ℕ) : Option Json → Slot
  | none => .text []
  | some .null => .text []
  | some (.string kid) => .text kid
  | some (.number kid) => .number kid
  | some (.bool kid) => .bool kid
  | some (.array _) => .object place
  | some (.object _) => .object place

structure CachedKey where
  key : CryptoKey
  jwk : Jwk

/-- `next` and `kidlessTaken`. -/
structure KeySet where
  next : List (Slot × CachedKey)
  kidlessTaken : Bool

section

variable (platform : JwksPlatform)

/-- One entry of a document; an entry that cannot be imported is skipped. -/
def importEntry (taken : KeySet) : Json × ℕ → KeySet
  | (.object members, place) =>
      match importParams ⟨members⟩ with
      | none => taken
      | some params =>
          let kid := members.lookup (js "kid")
          if kid.isNone && taken.kidlessTaken then taken
          else
            match platform.importJwk ⟨members⟩ params with
            | .error _ => taken
            | .ok key =>
                { next := set taken.next (slotOf place kid) ⟨key, ⟨members⟩⟩
                  kidlessTaken := taken.kidlessTaken || kid.isNone }
  -- An array has no `kty`.
  | _ => taken

def importKeys (keys : List Json) : List (Slot × CachedKey) :=
  (keys.zipIdx.foldl (importEntry platform) ⟨[], false⟩).next

/-- A key by its `kid`; a token without one matches a sole key. -/
def lookupKey (cached : List (Slot × CachedKey)) : Option JsString → Option CachedKey
  | some kid => get? cached (.text kid)
  | none =>
      match cached with
      | [(_, entry)] => some entry
      | _ => none

def kidOf (token : JsString) : Option JsString :=
  let dot := token.idxOf 46
  if dot = 0 ∨ token.length ≤ dot then none
  else
    match platform.parseHeader (token.take dot) with
    | some (.object members) => memberText members (js "kid")
    | _ => none

end

/-! ### The key source -/

inductive FetchAnswer
  | rejected
  | response (ok : Bool) (body : Option Json)

def FetchAnswer.keys : FetchAnswer → Option (List Json)
  | .response true (some (.object members)) =>
      match members.lookup (js "keys") with
      | some (.array keys) => some keys
      | _ => none
  | _ => none

inductive JwksCaller
  | verify (token : JsString) (options : VerifyOptions)
  | keys
  | refresh
  | warmup

inductive JwksAnswer
  | verdict (accepted : Bool)
  | keys (list : List Jwk)
  /-- The call is over, or `next` is called. -/
  | fulfilled
  | rejected

inductive JwksPhase
  /-- In `ensureFresh`, the flight. -/
  | ensuring (flight : ℕ)
  /-- `ensureFresh`, which has ended. -/
  | ensured (fresh : Bool)
  /-- The flight of an unknown kid. -/
  | rechecking (flight : ℕ)
  | verifying (entry : CachedKey)
  /-- The flight of a `refresh()`. -/
  | joined (flight : ℕ)
  | answered (answer : JwksAnswer)

structure JwksCall where
  caller : JwksCaller
  phase : JwksPhase

inductive FetchCause
  | stale
  | unknownKid
  | refresh
  deriving DecidableEq

/-- What has happened, with the readings of the clock. -/
inductive JwksRecord
  /-- An unknown kid is looked for again. -/
  | recheck (reading : ℤ)
  | started (cause : FetchCause) (reading : ℤ)
  /-- The flight has ended; `keys` are those of its document, `warm` says that
  there were keys before. -/
  | landed (keys : Option (List Json)) (warm : Bool) (reading : ℤ)

abbrev JwksHistory := List JwksRecord

structure JwksState where
  cached : List (Slot × CachedKey)
  fetchedAt : ℤ
  missCheckedAt : ℤ
  /-- The flight in the air, by its number. -/
  flight : Option ℕ
  flights : ℕ
  /-- The flights that have ended, and whether well. -/
  ended : ℕ → Option Bool
  warmed : Bool
  now : ℤ
  calls : ℕ → Option JwksCall
  memory : Memory
  history : JwksHistory

def createJwks (now : ℤ) (memory : Memory) : JwksState :=
  ⟨[], 0, 0, none, 0, fun _ => none, false, now, fun _ => none, memory, []⟩

namespace JwksState

variable (ttl : ℚ) (st : JwksState)

def fresh : Bool := decide (((st.now - st.fetchedAt : ℤ) : ℚ) < ttl)

/-- `refresh`: the flight in the air, or a new one. -/
def refresh (cause : FetchCause) : JwksState × ℕ :=
  match st.flight with
  | some flight => (st, flight)
  | none =>
      ({ st with
        flight := some st.flights
        flights := st.flights + 1
        history := st.history ++ [JwksRecord.started cause st.now] }, st.flights)

def setCall (id : ℕ) (caller : JwksCaller) (phase : JwksPhase) : JwksState :=
  { st with calls := Function.update st.calls id (some ⟨caller, phase⟩) }

/-- `ensureFresh`, up to its first await. -/
def ensureFresh (id : ℕ) (caller : JwksCaller) : JwksState :=
  if st.fresh ttl then st.setCall id caller (.ensured true)
  else
    let (st, flight) := st.refresh .stale
    st.setCall id caller (.ensuring flight)

def land (platform : JwksPlatform) (flight : ℕ) (answer : FetchAnswer) : JwksState :=
  let st := { st with
    flight := none
    history := st.history ++ [JwksRecord.landed answer.keys (!st.cached.isEmpty) st.now] }
  match answer.keys with
  | some keys =>
      { st with
        cached := importKeys platform keys
        fetchedAt := st.now
        ended := Function.update st.ended flight (some true) }
  | none =>
      { st with
        fetchedAt := if st.cached.isEmpty then st.fetchedAt else st.now
        ended := Function.update st.ended flight (some false) }

def call (id : ℕ) (caller : JwksCaller) : JwksState :=
  match caller with
  | .verify _ _ => st.ensureFresh ttl id caller
  | .keys => st.ensureFresh ttl id caller
  | .refresh =>
      let (st, flight) := st.refresh .refresh
      st.setCall id caller (.joined flight)
  | .warmup =>
      if st.warmed then st.setCall id caller (.answered .fulfilled)
      else { st with warmed := true }.ensureFresh ttl id caller

variable (platform : JwksPlatform) (regExps : ℕ → RegExpObject)

def seek (id : ℕ) (token : JsString) (options : VerifyOptions) : JwksState :=
  match lookupKey st.cached (kidOf platform token) with
  | some entry => st.setCall id (.verify token options) (.verifying entry)
  | none =>
      if ttl ≤ ((st.now - st.missCheckedAt : ℤ) : ℚ) then
        let st := { st with
          missCheckedAt := st.now
          history := st.history ++ [JwksRecord.recheck st.now] }
        let (st, flight) := st.refresh .unknownKid
        st.setCall id (.verify token options) (.rechecking flight)
      else st.setCall id (.verify token options) (.answered (.verdict false))

def judge (id : ℕ) (token : JsString) (options : VerifyOptions) (entry : CachedKey) : JwksState :=
  let (verdict, memory) := verifyJWT platform.toJwtPlatform regExps token (.cryptoKey entry.key)
    options st.now st.memory
  { st with memory := memory }.setCall id (.verify token options)
    (.answered (.verdict verdict.isOk))

def resume (id : ℕ) : Option JwksState :=
  match st.calls id with
  | none => none
  | some ⟨caller, .ensuring flight⟩ =>
      (st.ended flight).map fun ok =>
        st.setCall id caller (.ensured (ok || !st.cached.isEmpty))
  | some ⟨.verify token options, .ensured fresh⟩ =>
      if fresh then some (st.seek ttl platform id token options)
      else some (st.setCall id (.verify token options) (.answered (.verdict false)))
  | some ⟨.keys, .ensured fresh⟩ =>
      if fresh then
        some (st.setCall id .keys (.answered (.keys (st.cached.map fun e => e.2.jwk))))
      else some (st.setCall id .keys (.answered .rejected))
  | some ⟨caller, .ensured _⟩ => some (st.setCall id caller (.answered .fulfilled))
  | some ⟨.verify token options, .rechecking flight⟩ =>
      (st.ended flight).map fun ok =>
        match if ok then lookupKey st.cached (kidOf platform token) else none with
        | some entry => st.setCall id (.verify token options) (.verifying entry)
        | none => st.setCall id (.verify token options) (.answered (.verdict false))
  | some ⟨.verify token options, .verifying entry⟩ =>
      some (st.judge platform regExps id token options entry)
  | some ⟨caller, .joined flight⟩ =>
      (st.ended flight).map fun ok =>
        st.setCall id caller (.answered (if ok then .fulfilled else .rejected))
  | some _ => none

end JwksState

inductive JwksEvent
  /-- The clock is read differently. -/
  | clock (now : ℤ)
  | call (id : ℕ) (caller : JwksCaller)
  | resume (id : ℕ)
  | land (answer : FetchAnswer)

def JwksState.step (platform : JwksPlatform) (regExps : ℕ → RegExpObject) (ttl : ℚ)
    (st : JwksState) : JwksEvent → Option JwksState
  | .clock now => some { st with now := now }
  | .call id caller => if (st.calls id).isSome then none else some (st.call ttl id caller)
  | .resume id => st.resume ttl platform regExps id
  | .land answer => st.flight.map fun flight => st.land platform flight answer

def jwks (platform : JwksPlatform) (regExps : ℕ → RegExpObject) (ttl : ℚ) (now : ℤ)
    (memory : Memory) : Lts JwksState JwksEvent where
  start := createJwks now memory
  step := JwksState.step platform regExps ttl

end Keala.Middleware
