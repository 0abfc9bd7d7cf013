import Keala.Middleware.JwtVerify

/-!
What a verdict of `verifyJWT` depends on: the token, the key, the options, the
time, and the `lastIndex` of those expressions in the options that keep one.
-/

namespace Keala.Middleware

open Js

variable {platform : JwtPlatform} {regExps : ℕ → RegExpObject} {options : VerifyOptions}
  {memory memory' : Memory}

/-! ### The expressions of the options -/

def IssuerMatcher.refs : IssuerMatcher → List ℕ
  | text _ => []
  | regExp ref => [ref]

def AudienceMatcher.refs : AudienceMatcher → List ℕ
  | text _ => []
  | list _ => []
  | regExp ref => [ref]

/-- The expressions that a call may test; both options may hold the same one. -/
def VerifyOptions.refs (options : VerifyOptions) : List ℕ :=
  (options.iss.elim [] IssuerMatcher.refs) ++ (options.aud.elim [] AudienceMatcher.refs)

/-- Every expression that keeps an index starts at the beginning of a text. -/
def Rested (regExps : ℕ → RegExpObject) (options : VerifyOptions) (memory : Memory) : Prop :=
  ∀ ref ∈ options.refs, (regExps ref).remembers = true → memory ref = 0

def Alike (regExps : ℕ → RegExpObject) (refs : List ℕ) (memory memory' : Memory) : Prop :=
  ∀ ref ∈ refs, (regExps ref).remembers = true → memory ref = memory' ref

def AlikeAfter {α : Type} (regExps : ℕ → RegExpObject) (refs : List ℕ) (a b : α × Memory) : Prop :=
  a.1 = b.1 ∧ Alike regExps refs a.2 b.2

/-! ### One call -/

theorem Alike.testIn {refs : List ℕ} (h : Alike regExps refs memory memory') {ref : ℕ}
    (href : ref ∈ refs) (text : JsString) :
    AlikeAfter regExps refs (testIn regExps ref text memory) (testIn regExps ref text memory') := by
  cases hremembers : (regExps ref).remembers with
  | true =>
    -- the test starts at the index kept
    have hindex := h ref href hremembers
    refine ⟨?_, fun other hother hkeeps => ?_⟩
    · simp only [Middleware.testIn, hindex]
    · simp only [Middleware.testIn, hindex]
      by_cases heq : other = ref
      · rw [heq, Function.update_self, Function.update_self]
      · rw [Function.update_of_ne heq, Function.update_of_ne heq]
        exact h other hother hkeeps
  | false =>
    -- the test starts at 0, and this index is read by none
    have hanswer : ∀ i j, ((regExps ref).test text i).1 = ((regExps ref).test text j).1 := by
      intro i j
      simp only [RegExpObject.test, hremembers, Bool.false_eq_true, if_false]
      split <;> rfl
    refine ⟨hanswer _ _, fun other hother hkeeps => ?_⟩
    have hne : other ≠ ref := by
      rintro rfl
      rw [hremembers] at hkeeps
      cases hkeeps
    simp only [Middleware.testIn]
    rw [Function.update_of_ne hne, Function.update_of_ne hne]
    exact h other hother hkeeps

theorem Alike.issuerMatches {refs : List ℕ} (h : Alike regExps refs memory memory')
    {iss : IssuerMatcher} (hrefs : iss.refs ⊆ refs) (claim : JsString) :
    AlikeAfter regExps refs (issuerMatches regExps iss claim memory)
      (issuerMatches regExps iss claim memory') := by
  cases iss with
  | text expected => exact ⟨rfl, h⟩
  | regExp ref => exact h.testIn (hrefs List.mem_cons_self) claim

theorem Alike.audienceMatches {refs : List ℕ} (h : Alike regExps refs memory memory')
    {aud : AudienceMatcher} (hrefs : aud.refs ⊆ refs) (claim : JsString) :
    AlikeAfter regExps refs (audienceMatches regExps aud claim memory)
      (audienceMatches regExps aud claim memory') := by
  cases aud with
  | text expected => exact ⟨rfl, h⟩
  | list expected => exact ⟨rfl, h⟩
  | regExp ref => exact h.testIn (hrefs List.mem_cons_self) claim

theorem Alike.someAudience {refs : List ℕ} (h : Alike regExps refs memory memory')
    {aud : AudienceMatcher} (hrefs : aud.refs ⊆ refs) (claims : List (Option Json)) :
    AlikeAfter regExps refs (someAudience regExps aud claims memory)
      (someAudience regExps aud claims memory') := by
  induction claims generalizing memory memory' with
  | nil => exact ⟨rfl, h⟩
  | cons claim claims ih =>
    rw [Middleware.someAudience, Middleware.someAudience]
    cases claim.bind Json.text? with
    | none => exact ih h
    | some text =>
      obtain ⟨hanswer, halike⟩ := h.audienceMatches hrefs text
      simp only [hanswer]
      split_ifs
      · exact ⟨rfl, halike⟩
      · exact ih halike

theorem refs_issuer {iss : IssuerMatcher} (h : options.iss = some iss) :
    iss.refs ⊆ options.refs := by
  rw [VerifyOptions.refs, h]
  exact List.subset_append_left _ _

theorem refs_audience {aud : AudienceMatcher} (h : options.aud = some aud) :
    aud.refs ⊆ options.refs := by
  rw [VerifyOptions.refs, h]
  exact List.subset_append_right _ _

theorem Alike.checkIssuer (h : Alike regExps options.refs memory memory')
    (payload : List (JsString × Json)) :
    AlikeAfter regExps options.refs (checkIssuer regExps payload options memory)
      (checkIssuer regExps payload options memory') := by
  rw [Middleware.checkIssuer, Middleware.checkIssuer]
  cases hiss : options.iss with
  | none => exact ⟨rfl, h⟩
  | some iss =>
    cases memberText payload (js "iss") with
    | none => exact ⟨rfl, h⟩
    | some claim =>
      obtain ⟨hanswer, halike⟩ := h.issuerMatches (refs_issuer hiss) claim
      simp only [hanswer]
      exact ⟨rfl, halike⟩

theorem Alike.checkAudience (h : Alike regExps options.refs memory memory')
    (payload : List (JsString × Json)) :
    AlikeAfter regExps options.refs (checkAudience regExps payload options memory)
      (checkAudience regExps payload options memory') := by
  rw [Middleware.checkAudience, Middleware.checkAudience]
  cases haud : options.aud with
  | none => exact ⟨rfl, h⟩
  | some aud =>
    obtain ⟨hanswer, halike⟩ := h.someAudience (refs_audience haud) (audienceClaims payload)
    simp only [hanswer]
    exact ⟨rfl, halike⟩

theorem Alike.validateClaims (h : Alike regExps options.refs memory memory')
    (payload : List (JsString × Json)) (milliseconds : ℤ) :
    AlikeAfter regExps options.refs (validateClaims regExps payload options milliseconds memory)
      (validateClaims regExps payload options milliseconds memory') := by
  rw [Middleware.validateClaims, Middleware.validateClaims]
  cases checkTimes payload options (.finite (milliseconds / 1000 : ℤ)) with
  | error error => exact ⟨rfl, h⟩
  | ok _ =>
    obtain ⟨hanswer, halike⟩ := h.checkIssuer payload
    rcases hissuer : Middleware.checkIssuer regExps payload options memory with ⟨answer, after⟩
    rcases hissuer' : Middleware.checkIssuer regExps payload options memory' with ⟨answer', after'⟩
    rw [hissuer, hissuer'] at hanswer halike
    obtain rfl : answer = answer' := hanswer
    cases answer with
    | error error => exact ⟨rfl, halike⟩
    | ok _ => exact halike.checkAudience payload

/-- Memories that are alike to the options give one verdict, and stay alike. -/
theorem Alike.verifyJWT (h : Alike regExps options.refs memory memory') (token : JsString)
    (secret : JwtKey) (milliseconds : ℤ) :
    AlikeAfter regExps options.refs
      (verifyJWT platform regExps token secret options milliseconds memory)
      (verifyJWT platform regExps token secret options milliseconds memory') := by
  rw [Middleware.verifyJWT, Middleware.verifyJWT]
  cases authenticate platform token secret options with
  | error error => exact ⟨rfl, h⟩
  | ok payload =>
    obtain ⟨hanswer, halike⟩ := h.validateClaims payload milliseconds
    rcases hclaims : Middleware.validateClaims regExps payload options milliseconds memory with
      ⟨answer, after⟩
    rcases hclaims' : Middleware.validateClaims regExps payload options milliseconds memory' with
      ⟨answer', after'⟩
    rw [hclaims, hclaims'] at hanswer halike
    obtain rfl : answer = answer' := hanswer
    simp only [hclaims, hclaims']
    cases answer with
    | error error => exact ⟨rfl, halike⟩
    | ok _ => exact ⟨rfl, halike⟩

/-! ### Runs of calls -/

structure JwtCall where
  token : JsString
  secret : JwtKey
  milliseconds : ℤ

def JwtCall.run (platform : JwtPlatform) (regExps : ℕ → RegExpObject) (options : VerifyOptions)
    (call : JwtCall) (memory : Memory) : Except JwtError (List (JsString × Json)) × Memory :=
  verifyJWT platform regExps call.token call.secret options call.milliseconds memory

def verdicts (platform : JwtPlatform) (regExps : ℕ → RegExpObject) (options : VerifyOptions) :
    Memory → List JwtCall → List (Except JwtError (List (JsString × Json)))
  | _, [] => []
  | memory, call :: calls =>
      let (verdict, memory) := call.run platform regExps options memory
      verdict :: verdicts platform regExps options memory calls

def StartsRested (platform : JwtPlatform) (regExps : ℕ → RegExpObject) (options : VerifyOptions) :
    Memory → List JwtCall → Prop
  | _, [] => True
  | memory, call :: calls =>
      Rested regExps options memory ∧
        StartsRested platform regExps options (call.run platform regExps options memory).2 calls

/-- The verdict on a call that nothing has come before. -/
def soleVerdict (platform : JwtPlatform) (regExps : ℕ → RegExpObject) (options : VerifyOptions)
    (call : JwtCall) : Except JwtError (List (JsString × Json)) :=
  (call.run platform regExps options fun _ => 0).1

theorem Rested.alike (h : Rested regExps options memory) :
    Alike regExps options.refs memory fun _ => 0 :=
  h

theorem verdicts_eq_map (memory : Memory) (calls : List JwtCall)
    (h : StartsRested platform regExps options memory calls) :
    verdicts platform regExps options memory calls =
      calls.map (soleVerdict platform regExps options) := by
  induction calls generalizing memory with
  | nil => rfl
  | cons call calls ih =>
    obtain ⟨hrested, hlater⟩ := h
    have hfirst : (call.run platform regExps options memory).1 =
        soleVerdict platform regExps options call :=
      (hrested.alike.verifyJWT call.token call.secret call.milliseconds).1
    simp only [verdicts, List.map_cons]
    rw [ih _ hlater, hfirst]

/-- The verdict depends on the time by its second. -/
theorem soleVerdict_second {call other : JwtCall} (htoken : other.token = call.token)
    (hsecret : other.secret = call.secret)
    (htime : other.milliseconds / 1000 = call.milliseconds / 1000) :
    soleVerdict platform regExps options other = soleVerdict platform regExps options call := by
  simp only [soleVerdict, JwtCall.run, verifyJWT, validateClaims, htoken, hsecret, htime]

/-- In a run whose calls all start with the expressions at rest, every verdict is the one that
its token, its key, the options and its time give, whatever came before; a call made again
within its second has the same verdict. -/
theorem verdicts_memoryless (platform : JwtPlatform) (regExps : ℕ → RegExpObject)
    (options : VerifyOptions) (memory : Memory) (calls : List JwtCall)
    (h : StartsRested platform regExps options memory calls) :
    verdicts platform regExps options memory calls =
        calls.map (soleVerdict platform regExps options) ∧
      ∀ (i j : ℕ) (call other : JwtCall), calls[i]? = some call → calls[j]? = some other →
        other.token = call.token → other.secret = call.secret →
        other.milliseconds / 1000 = call.milliseconds / 1000 →
        (verdicts platform regExps options memory calls)[j]? =
          (verdicts platform regExps options memory calls)[i]? := by
  have hmap := verdicts_eq_map memory calls h
  refine ⟨hmap, fun i j call other hi hj htoken hsecret htime => ?_⟩
  rw [hmap, List.getElem?_map, List.getElem?_map, hi, hj, Option.map_some, Option.map_some,
    soleVerdict_second htoken hsecret htime]

/-! ### One token twice -/

/-- The segments of a token of the payload `{"iss":"a"}` under the secret `k`. -/
def headerSegment : JsString := js "eyJhbGciOiJIUzI1NiJ9"

def payloadSegment : JsString := js "eyJpc3MiOiJhIn0"

def signatureSegment : JsString := js "xhzc2pNAmkWO-pL6z4REGUdAQ5C1zz0k551T0ylSyLM"

def issuedDigest : List UInt8 :=
    [198, 28, 220, 218, 147, 64, 154, 69, 142, 250, 146, 250, 207, 132, 68, 25, 71, 64, 67, 144,
      181, 207, 61, 36, 231, 157, 83, 211, 41, 82, 200, 179]

def hmacKey : CryptoKey where
  id := 0
  type := .secret
  name := some (js "HMAC")
  hash := some (.record (some (js "SHA-256")))
  namedCurve := none
  hmac_secret _ := rfl
  pair_not_secret h := by rcases h with h | h <;> revert h <;> decide

def issuedPlatform : JwtPlatform where
  fromBase64Url text :=
    if text = headerSegment then utf8Bytes (js "\x7b\"alg\":\"HS256\"\x7d")
    else if text = payloadSegment then utf8Bytes (js "\x7b\"iss\":\"a\"\x7d")
    else issuedDigest
  parseJson bytes :=
    if bytes = utf8Bytes (js "\x7b\"alg\":\"HS256\"\x7d") then
      some (.object [(js "alg", .string (js "HS256"))])
    else some (.object [(js "iss", .string (js "a"))])
  importRaw _ _ := .ok hmacKey
  importJwk _ _ := .error (.crypto [])
  exportJwk _ := .error (.crypto [])
  verify _ _ signature data :=
    .ok (signature = issuedDigest && data = utf8Bytes (headerSegment ++ 46 :: payloadSegment))

/-- The expression `/a/`, with the flag `g` or without. -/
def letterA (isGlobal : Bool) : RegExpObject where
  isGlobal := isGlobal
  sticky := false
  matchAt text index := if text[index]? = some 97 then some (index + 1) else none

def issuedCall : JwtCall where
  token := headerSegment ++ 46 :: (payloadSegment ++ 46 :: signatureSegment)
  secret := .secret (js "k")
  milliseconds := 0

/-- The same signature under another payload. -/
def forgedCall : JwtCall where
  token := headerSegment ++ 46 :: (js "e30" ++ 46 :: signatureSegment)
  secret := .secret (js "k")
  milliseconds := 0

/-- An issuer given as `/a/g`: a forged token is refused before the expression is
tried, which so is at rest when the good one comes. -/
theorem verdicts_memoryless_rested :
    verdicts issuedPlatform (fun _ => letterA true) { iss := some (.regExp 0) } (fun _ => 0)
        [forgedCall, issuedCall] =
      [forgedCall, issuedCall].map
        (soleVerdict issuedPlatform (fun _ => letterA true) { iss := some (.regExp 0) }) := by
  have hrested : ∀ memory : Memory, memory 0 = 0 →
      Rested (fun _ => letterA true) { iss := some (.regExp 0) } memory := by
    intro memory hzero ref href _
    rw [List.mem_singleton.mp href]
    exact hzero
  exact (verdicts_memoryless issuedPlatform (fun _ => letterA true) { iss := some (.regExp 0) }
    (fun _ => 0) [forgedCall, issuedCall]
    ⟨hrested _ rfl, hrested _ (by decide +kernel), trivial⟩).1

/-- An issuer given as `/a/g`: the token that was accepted is refused when it comes again. -/
theorem verdicts_remember_global :
    verdicts issuedPlatform (fun _ => letterA true) { iss := some (.regExp 0) } (fun _ => 0)
        [issuedCall, issuedCall] ≠
      [issuedCall, issuedCall].map
        (soleVerdict issuedPlatform (fun _ => letterA true) { iss := some (.regExp 0) }) := by
  intro h
  have hok := congrArg (List.map Except.isOk) h
  revert hok
  decide +kernel

end Keala.Middleware
