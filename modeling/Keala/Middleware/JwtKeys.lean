import Keala.Js.Json
import Keala.Lib.Except

/-!
The algorithms a JWT guard accepts for a key: `resolveAlgorithms`.

A list that is passed is checked against the kind of the key. The algorithm
that a key pins itself is not, and the `alg` member of a JWK may name an HMAC
algorithm whatever its `kty` is.
-/

namespace Keala.Middleware

open Js

/-! ### Keys -/

structure Jwk where
  members : List (JsString × Json)

namespace Jwk

def kty (key : Jwk) : Option JsString := memberText key.members (js "kty")

def alg (key : Jwk) : Option JsString := memberText key.members (js "alg")

def crv (key : Jwk) : Option JsString := memberText key.members (js "crv")

end Jwk

inductive KeyType
  | secret
  | «public»
  | «private»
  deriving DecidableEq

/-- The `hash` of a key's algorithm, as one runtime or another writes it. -/
inductive KeyHash
  | text (name : JsString)
  | record (name : Option JsString)
  deriving DecidableEq

/-- A key of Web Crypto: the HMAC keys are the secret ones among the families known here. -/
structure CryptoKey where
  /-- Which key object it is. -/
  id : ℕ
  type : KeyType
  name : Option JsString
  hash : Option KeyHash
  namedCurve : Option JsString
  hmac_secret : name = some (js "HMAC") → type = .secret
  pair_not_secret : name = some (js "RSASSA-PKCS1-v1_5") ∨ name = some (js "ECDSA") →
    type ≠ .secret

inductive JwtKey
  | secret (text : JsString)
  | jwk (key : Jwk)
  | cryptoKey (key : CryptoKey)

inductive JwtSetupError
  | notInferred
  | noAlgorithm
  | unsupported (alg : JsString)
  | contradictsCryptoKey (alg : JsString)
  | contradictsKey (alg : JsString) (symmetric : Bool)
  deriving DecidableEq

namespace JwtSetupError

def message : JwtSetupError → JsString
  | notInferred =>
      js ("jwt: cannot infer the algorithm from this key — pass algorithms explicitly " ++
        "(e.g. an alg-less RSA JWK)")
  | noAlgorithm => js "jwt(\x7b algorithms \x7d) must list at least one algorithm"
  | unsupported alg =>
      js "jwt: \"" ++ alg ++ js "\" is not supported — HS*/RS*/ES* only, \"none\" never"
  | contradictsCryptoKey alg => js "jwt: CryptoKey algorithm contradicts " ++ alg
  | contradictsKey alg symmetric =>
      js "jwt: algorithm \"" ++ alg ++ js "\" contradicts the " ++
        if symmetric then js "shared secret" else js "asymmetric key"

end JwtSetupError

/-! ### Algorithms -/

def hsAlgorithms : List JsString := [js "HS256", js "HS384", js "HS512"]

def supportedAlgorithms : List JsString :=
  hsAlgorithms ++
    [js "RS256", js "RS384", js "RS512", js "ES256", js "ES384", js "ES512"]

def isHmac (alg : JsString) : Bool := startsWith alg (js "HS")

def bitLengths : List JsString := [js "256", js "384", js "512"]

def algOfCurve : List (JsString × JsString) :=
  [(js "P-256", js "ES256"), (js "P-384", js "ES384"), (js "P-521", js "ES512")]

def KeyHash.hashName : KeyHash → Option JsString
  | text name => some name
  | record name => name

/-- The single algorithm a key itself pins, when it does. -/
def algOfKey : JwtKey → Option JsString
  | .secret _ => none
  | .cryptoKey key =>
      let bits := ((key.hash.bind KeyHash.hashName).map (·.drop 4)).filter (· ∈ bitLengths)
      if (key.name = some (js "HMAC") ∨ key.name = some (js "RSASSA-PKCS1-v1_5")) ∧ bits ≠ none then
        bits.map ((if key.name = some (js "HMAC") then js "HS" else js "RS") ++ ·)
      else if key.name = some (js "ECDSA") then key.namedCurve.bind (algOfCurve.lookup ·)
      else none
  | .jwk key =>
      if key.alg.any (· ∈ supportedAlgorithms) then key.alg
      else if key.kty = some (js "EC") then key.crv.bind (algOfCurve.lookup ·)
      else none

def isSymmetricKey : JwtKey → Bool
  | .secret _ => true
  | .cryptoKey key => key.type = .secret
  | .jwk key => key.kty = some (js "oct")

def isCryptoKey : JwtKey → Bool
  | .cryptoKey _ => true
  | _ => false

def assertKeyAlgorithm (key : JwtKey) (alg : JsString) : Except JwtSetupError Unit :=
  if algOfKey key ≠ some alg then .error (.contradictsCryptoKey alg) else .ok ()

def checkAlgorithm (secret : JwtKey) (alg : JsString) : Except JwtSetupError Unit :=
  (if isCryptoKey secret then assertKeyAlgorithm secret alg else .ok ()) >>= fun _ =>
    if alg ∉ supportedAlgorithms then .error (.unsupported alg)
    else if isHmac alg ≠ isSymmetricKey secret then
      .error (.contradictsKey alg (isSymmetricKey secret))
    else .ok ()

def checkAlgorithms (secret : JwtKey) : List JsString → Except JwtSetupError Unit
  | [] => .ok ()
  | alg :: algs => checkAlgorithm secret alg >>= fun _ => checkAlgorithms secret algs

def resolveAlgorithms (secret : JwtKey) (algorithms : Option (List JsString)) :
    Except JwtSetupError (List JsString) :=
  let symmetric := isSymmetricKey secret
  let list := algorithms.or (if symmetric && !isCryptoKey secret then some hsAlgorithms else none)
  match list with
  | none =>
      match algOfKey secret with
      | none => .error .notInferred
      | some derived => .ok [derived]
  | some list =>
      if list = [] then .error .noAlgorithm
      else checkAlgorithms secret list >>= fun _ => .ok list

/-! ### What is returned -/

/-- Every algorithm is supported, and is an HMAC one just when the key is symmetric. -/
def Unconfused (key : JwtKey) (list : List JsString) : Prop :=
  ∀ alg ∈ list, alg ∈ supportedAlgorithms ∧ (isHmac alg = true ↔ isSymmetricKey key = true)

theorem isHmac_supported {alg : JsString} (h : alg ∈ supportedAlgorithms) :
    isHmac alg = true ↔ alg ∈ hsAlgorithms := by
  simp only [supportedAlgorithms, hsAlgorithms, List.cons_append, List.nil_append,
    List.mem_cons, List.not_mem_nil, or_false] at h
  rcases h with rfl | rfl | rfl | rfl | rfl | rfl | rfl | rfl | rfl <;> decide

theorem hs_supported {alg : JsString} (h : alg ∈ hsAlgorithms) : alg ∈ supportedAlgorithms :=
  List.mem_append_left _ h

theorem checkAlgorithm_ok {secret : JwtKey} {alg : JsString}
    (h : checkAlgorithm secret alg = .ok ()) :
    alg ∈ supportedAlgorithms ∧ (isHmac alg = true ↔ isSymmetricKey secret = true) := by
  obtain ⟨-, -, hchecked⟩ := Except.ok_of_bind h
  split_ifs at hchecked with hsupported hkind
  exact ⟨hsupported, by rw [not_not.mp hkind]⟩

/-- A list that is passed is returned checked. -/
theorem unconfused_of_checked {secret : JwtKey} {list : List JsString}
    (h : checkAlgorithms secret list = .ok ()) : Unconfused secret list := by
  induction list with
  | nil => exact fun _ halg => absurd halg List.not_mem_nil
  | cons alg algs ih =>
    obtain ⟨_, hfirst, hrest⟩ := Except.ok_of_bind h
    exact List.forall_mem_cons.mpr ⟨checkAlgorithm_ok hfirst, ih hrest⟩

theorem algOfCurve_asymmetric {curve alg : JsString} (h : algOfCurve.lookup curve = some alg) :
    alg ∈ supportedAlgorithms ∧ isHmac alg = false := by
  simp only [algOfCurve, List.lookup_cons, List.lookup_nil] at h
  split at h
  · obtain rfl := Option.some.inj h
    decide
  · split at h
    · obtain rfl := Option.some.inj h
      decide
    · split at h
      · obtain rfl := Option.some.inj h
        decide
      · cases h

/-- What a Web Crypto key pins is of its own family. -/
theorem unconfused_cryptoKey {key : CryptoKey} {alg : JsString}
    (h : algOfKey (.cryptoKey key) = some alg) : Unconfused (.cryptoKey key) [alg] := by
  rw [Unconfused, List.forall_mem_singleton]
  rw [algOfKey] at h
  split_ifs at h with hfamily hmac hcurve
  · obtain ⟨bits, hbits, rfl⟩ := Option.map_eq_some_iff.mp h
    have hlength : bits ∈ bitLengths := by simpa using (Option.filter_eq_some_iff.mp hbits).2
    have hsecret : isSymmetricKey (.cryptoKey key) = true := by
      simpa [isSymmetricKey] using key.hmac_secret hmac
    rw [hsecret]
    simp only [bitLengths, List.mem_cons, List.not_mem_nil, or_false] at hlength
    rcases hlength with rfl | rfl | rfl <;> decide
  · obtain ⟨bits, hbits, rfl⟩ := Option.map_eq_some_iff.mp h
    have hlength : bits ∈ bitLengths := by simpa using (Option.filter_eq_some_iff.mp hbits).2
    have hpair : isSymmetricKey (.cryptoKey key) = false := by
      simpa [isSymmetricKey] using key.pair_not_secret (.inl (hfamily.1.resolve_left hmac))
    rw [hpair]
    simp only [bitLengths, List.mem_cons, List.not_mem_nil, or_false] at hlength
    rcases hlength with rfl | rfl | rfl <;> decide
  · obtain ⟨curve, -, halg⟩ := Option.bind_eq_some_iff.mp h
    obtain ⟨hsupported, hhmac⟩ := algOfCurve_asymmetric halg
    have hpair : isSymmetricKey (.cryptoKey key) = false := by
      simpa [isSymmetricKey] using key.pair_not_secret (.inr hcurve)
    exact ⟨hsupported, by rw [hhmac, hpair]⟩

/-- A JWK that is no symmetric key and names an HMAC algorithm. -/
def NamesHmac (key : JwtKey) : Prop :=
  ∃ jwk, key = .jwk jwk ∧ jwk.kty ≠ some (js "oct") ∧ ∃ alg ∈ hsAlgorithms, jwk.alg = some alg

/-- What an asymmetric JWK pins is supported, and asymmetric unless it names an HMAC algorithm. -/
theorem unconfused_jwk {jwk : Jwk} (hkty : jwk.kty ≠ some (js "oct")) {alg : JsString}
    (h : algOfKey (.jwk jwk) = some alg) :
    Unconfused (.jwk jwk) [alg] ↔ ¬NamesHmac (.jwk jwk) := by
  have hpair : isSymmetricKey (.jwk jwk) = false := by simpa [isSymmetricKey] using hkty
  rw [Unconfused, List.forall_mem_singleton, hpair]
  rw [algOfKey] at h
  split_ifs at h with hnamed hcurve
  · have hsupported : alg ∈ supportedAlgorithms := by simpa [h] using hnamed
    rw [isHmac_supported hsupported]
    constructor
    · rintro ⟨-, hnot⟩ ⟨other, hother, -, name, hname, halg⟩
      obtain rfl := JwtKey.jwk.inj hother
      obtain rfl := Option.some.inj (h.symm.trans halg)
      exact Bool.false_ne_true (hnot.mp hname)
    · intro hnot
      refine ⟨hsupported, iff_of_false (fun hname => ?_) Bool.false_ne_true⟩
      exact hnot ⟨jwk, rfl, hkty, alg, hname, h⟩
  · obtain ⟨curve, -, halg⟩ := Option.bind_eq_some_iff.mp h
    obtain ⟨hsupported, hhmac⟩ := algOfCurve_asymmetric halg
    refine iff_of_true ⟨hsupported, by rw [hhmac]⟩ ?_
    rintro ⟨other, hother, -, name, hname, hnamed'⟩
    obtain rfl := JwtKey.jwk.inj hother
    apply hnamed
    rw [hnamed']
    simpa using hs_supported hname

theorem algOfKey_of_namesHmac {key : JwtKey} (h : NamesHmac key) : algOfKey key ≠ none := by
  obtain ⟨jwk, rfl, -, alg, halg, hnamed⟩ := h
  have hany : jwk.alg.any (· ∈ supportedAlgorithms) = true := by
    rw [hnamed]
    simpa using hs_supported halg
  rw [algOfKey, if_pos hany, hnamed]
  simp

/-- The algorithms that are returned fit the key, except where they are inferred from an
asymmetric JWK that names an HMAC algorithm. -/
theorem resolveAlgorithms_unconfused_iff (secret : JwtKey) (algorithms : Option (List JsString)) :
    (∀ list, resolveAlgorithms secret algorithms = .ok list → Unconfused secret list) ↔
      ¬(algorithms = none ∧ NamesHmac secret) := by
  cases algorithms with
  | some list =>
    refine iff_of_true ?_ (by simp)
    intro list' h
    rw [resolveAlgorithms] at h
    simp only [Option.some_or] at h
    split_ifs at h
    obtain ⟨_, hchecked, hlist⟩ := Except.ok_of_bind h
    obtain rfl := Except.ok.inj hlist
    exact unconfused_of_checked hchecked
  | none =>
    rw [resolveAlgorithms]
    simp only [Option.none_or, true_and]
    cases secret with
    | secret text =>
      refine iff_of_true ?_ (by rintro ⟨_, ⟨⟩, -⟩)
      rintro list h
      obtain ⟨_, hchecked, hlist⟩ := Except.ok_of_bind h
      obtain rfl := Except.ok.inj hlist
      exact unconfused_of_checked hchecked
    | cryptoKey key =>
      refine iff_of_true ?_ (by rintro ⟨_, ⟨⟩, -⟩)
      intro list h
      simp only [isCryptoKey, Bool.not_true, Bool.and_false, Bool.false_eq_true, if_false] at h
      cases halg : algOfKey (.cryptoKey key) with
      | none => rw [halg] at h; cases h
      | some alg =>
        rw [halg] at h
        obtain rfl := Except.ok.inj h
        exact unconfused_cryptoKey halg
    | jwk key =>
      by_cases hkty : key.kty = some (js "oct")
      · refine iff_of_true ?_ ?_
        · intro list h
          simp only [isSymmetricKey, isCryptoKey, hkty, decide_true, Bool.not_false, Bool.and_true,
            if_true] at h
          obtain ⟨_, hchecked, hlist⟩ := Except.ok_of_bind h
          obtain rfl := Except.ok.inj hlist
          exact unconfused_of_checked hchecked
        · rintro ⟨other, hother, hne, -⟩
          obtain rfl := JwtKey.jwk.inj hother
          exact hne hkty
      · have hpair : isSymmetricKey (.jwk key) = false := by simpa [isSymmetricKey] using hkty
        simp only [hpair, Bool.false_and, Bool.false_eq_true, if_false]
        cases halg : algOfKey (.jwk key) with
        | none =>
          refine iff_of_true (fun list h => ?_) (fun h => algOfKey_of_namesHmac h halg)
          cases h
        | some alg =>
          rw [← unconfused_jwk hkty halg]
          constructor
          · intro h
            exact h [alg] rfl
          · intro h list hlist
            obtain rfl := Except.ok.inj hlist
            exact h

def rsaNamesHs256 : Jwk :=
  ⟨[(js "kty", .string (js "RSA")), (js "alg", .string (js "HS256"))]⟩

/-- An RSA key whose `alg` is HS256 is resolved to HS256. -/
theorem resolveAlgorithms_rsa_hs256 :
    ¬∀ list, resolveAlgorithms (.jwk rsaNamesHs256) none = .ok list →
      Unconfused (.jwk rsaNamesHs256) list := by
  intro h
  have hkind := (h [js "HS256"] (by decide) (js "HS256") (by decide)).2
  exact absurd (hkind.mp (by decide)) (by decide)

end Keala.Middleware
