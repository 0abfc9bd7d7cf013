import Keala.Js.Rounding
import Keala.Js.Split
import Keala.Js.WellFormed
import Keala.Plugins.Base64

/-!
Signed tokens (`src/middleware/csrf-token.ts`), the portable service. A token
verifies in its window when its lifetime is a whole number that the decimal
text keeps; of any other lifetime no token verifies.
-/

namespace Keala.Middleware

open Keala.Js Keala.Plugins

/-! ### The platform -/

inductive CsrfAlgorithm
  | sha256
  | sha384
  | sha512
  deriving DecidableEq

def CsrfAlgorithm.digestBytes : CsrfAlgorithm → ℕ
  | sha256 => 32
  | sha384 => 48
  | sha512 => 64

structure CsrfPlatform where
  /-- The digest of a value under a secret. -/
  hmac : CsrfAlgorithm → JsString → JsString → List UInt8
  hmac_length : ∀ algorithm secret value,
    (hmac algorithm secret value).length = algorithm.digestBytes
  /-- `Buffer.from(text, "base64url")`, which passes over what is no digit. -/
  fromBase64Url : JsString → List UInt8
  fromBase64Url_base64Url : ∀ bytes, fromBase64Url (base64Url bytes) = bytes

/-- Whole milliseconds, up to a hundred million days about the epoch. -/
abbrev TimeValue := {t : ℤ // t.natAbs ≤ 8640000000000000}

/-! ### The service -/

structure CsrfTokenOptions where
  /-- `none` is no string. -/
  secret : Option JsString
  expiresIn : Option Number := none
  maxAge : Option Number := none
  algorithm : Option CsrfAlgorithm := none

structure CsrfTokenService where
  secret : JsString
  ttl : Number
  maxAge : Option Number
  algorithm : CsrfAlgorithm

def DEFAULT_TTL : Number := .finite 86400000

def MAX_TOKEN_LENGTH : ℕ := 4096

def isPositive : Number → Bool
  | .finite x => decide (0 < x)
  | _ => false

/-- `csrfToken(options)`, with the text of its `TypeError`. -/
def csrfToken (options : CsrfTokenOptions) : Except JsString CsrfTokenService :=
  let secret := options.secret.getD []
  let ttl := options.expiresIn.getD DEFAULT_TTL
  if secret = [] then
    .error (js "csrfToken(\x7b secret \x7d) requires a non-empty secret")
  else if 1024 < secret.length then
    .error (js "csrfToken(\x7b secret \x7d) refuses secrets over 1024 bytes")
  else if !isPositive ttl then
    .error (js "csrfToken(\x7b expiresIn \x7d) must be a positive number of ms")
  else if options.maxAge.any fun maxAge => !isPositive maxAge then
    .error (js "csrfToken(\x7b maxAge \x7d) must be a positive number of ms")
  else
    .ok { secret, ttl, maxAge := options.maxAge, algorithm := options.algorithm.getD .sha256 }

def sessionIdTag (sessionId : JsString) : JsString := base64Url (utf8Bytes sessionId)

def macInput (sessionId nonce issuedAt ttl : JsString) : JsString :=
  js "csrf1" ++ [0] ++ sessionIdTag sessionId ++ [0] ++ nonce ++ [0] ++ issuedAt ++ [0] ++ ttl

namespace CsrfTokenService

def sign (platform : CsrfPlatform) (service : CsrfTokenService) (value : JsString) : List UInt8 :=
  platform.hmac service.algorithm service.secret value

/-- `issue(sessionId)`, with the random bytes and the time that it reads. -/
def issue (platform : CsrfPlatform) (service : CsrfTokenService) (random : Vector UInt8 16)
    (now : TimeValue) (sessionId : Option JsString) : JsString :=
  let nonce := base64Url random.toList
  let issuedAt := numberText (.finite now.1)
  let ttlText := numberText service.ttl
  let mac := base64Url
    (service.sign platform (macInput (sessionId.getD []) nonce issuedAt ttlText))
  js "t1." ++ nonce ++ js "." ++ issuedAt ++ js "." ++ ttlText ++ js "." ++ mac

/-- `/^\d+$/`. -/
def isDigits (text : JsString) : Bool := !text.isEmpty && text.all isDigit

/-- `verify` once the token is cut into its fields. -/
def verifyFields (platform : CsrfPlatform) (service : CsrfTokenService) (now : TimeValue)
    (sessionId : Option JsString) (nonce issuedAtText ttlText macText : JsString) : Bool :=
  if !isDigits issuedAtText || !isDigits ttlText then false
  else
    let issuedAt := roundDouble (decimalValue issuedAtText)
    let tokenTtl := roundDouble (decimalValue ttlText)
    if !isSafeInteger issuedAt || !isSafeInteger tokenTtl then false
    else if tokenTtl.le (.finite 0) then false
    else if (Number.finite now.1).lt issuedAt then false
    else
      let age := (Number.finite now.1).minus issuedAt
      if tokenTtl.lt age then false
      else if service.ttl.lt age then false
      else if service.maxAge.any fun maxAge => maxAge.lt age then false
      else
        let expected := service.sign platform
          (macInput (sessionId.getD []) nonce issuedAtText ttlText)
        let provided := platform.fromBase64Url macText
        if provided.length ≠ expected.length then false else decide (provided = expected)

def verify (platform : CsrfPlatform) (service : CsrfTokenService) (now : TimeValue)
    (token : JsString) (sessionId : Option JsString) : Bool :=
  if token = [] ∨ MAX_TOKEN_LENGTH < token.length then false
  else if (0 : CodeUnit) ∈ token then false
  else
    match split 46 token with
    | [tag, nonce, issuedAtText, ttlText, macText] =>
        if tag ≠ js "t1" then false
        else service.verifyFields platform now sessionId nonce issuedAtText ttlText macText
    | _ => false

end CsrfTokenService

/-! ### What is accepted -/

theorem csrfToken_ok {options : CsrfTokenOptions} {service : CsrfTokenService}
    (h : csrfToken options = .ok service) :
    service.ttl = options.expiresIn.getD DEFAULT_TTL ∧ service.maxAge = options.maxAge ∧
      isPositive service.ttl = true ∧ ∀ maxAge ∈ service.maxAge, isPositive maxAge = true := by
  rw [csrfToken] at h
  split_ifs at h with hsecret hlong httl hmaxAge
  obtain rfl := Except.ok.inj h
  refine ⟨rfl, rfl, by simpa using httl, fun maxAge hmem => ?_⟩
  change options.maxAge = some maxAge at hmem
  rw [hmem] at hmaxAge
  simpa using hmaxAge

theorem exists_of_isPositive {n : Number} (h : isPositive n = true) :
    ∃ x : ℚ, n = .finite x ∧ 0 < x := by
  cases n with
  | finite x => exact ⟨x, rfl, of_decide_eq_true h⟩
  | nan => cases h
  | infinity => cases h
  | negInfinity => cases h

namespace CsrfTokenService

structure SafeText (text : JsString) : Prop where
  digits : isDigits text = true
  small : decimalValue text < 2 ^ 53

def Allows (service : CsrfTokenService) (age : ℤ) : Prop :=
  service.ttl.lt (.finite age) = false ∧
    ∀ maxAge ∈ service.maxAge, maxAge.lt (.finite age) = false

structure Accepts (platform : CsrfPlatform) (service : CsrfTokenService) (now : TimeValue)
    (sessionId : Option JsString) (nonce issuedAt ttl mac : JsString) : Prop where
  issuedAt_safe : SafeText issuedAt
  ttl_safe : SafeText ttl
  ttl_pos : 0 < decimalValue ttl
  issued : (decimalValue issuedAt : ℤ) ≤ now.1
  alive : now.1 - decimalValue issuedAt ≤ decimalValue ttl
  allowed : service.Allows (now.1 - decimalValue issuedAt)
  signed : platform.fromBase64Url mac =
    service.sign platform (macInput (sessionId.getD []) nonce issuedAt ttl)

theorem safeText_iff {text : JsString} :
    SafeText text ↔
      isDigits text = true ∧ isSafeInteger (roundDouble (decimalValue text)) = true := by
  rw [isSafeInteger_roundDouble]
  exact ⟨fun h => ⟨h.digits, h.small⟩, fun h => ⟨h.1, h.2⟩⟩

theorem SafeText.read {text : JsString} (h : SafeText text) :
    roundDouble (decimalValue text) = .finite (decimalValue text : ℤ) := by
  rw [roundDouble_natCast h.small, Int.cast_natCast]

theorem lt_intCast (a b : ℤ) : (Number.finite a).lt (.finite b) = !decide (b ≤ a) := by
  rw [Number.lt_finite, ← decide_not]
  exact decide_eq_decide.mpr (by rw [not_le]; exact_mod_cast Iff.rfl)

theorem le_intCast (a b : ℤ) : (Number.finite a).le (.finite b) = !decide (b < a) := by
  rw [Number.le_finite]
  exact congrArg not (decide_eq_decide.mpr (by exact_mod_cast Iff.rfl))

/-- An age is a whole number of milliseconds of less than 53 bits. -/
theorem age_exact {now : TimeValue} {issuedAt : ℕ} (h : (issuedAt : ℤ) ≤ now.1) :
    (Number.finite now.1).minus (.finite (issuedAt : ℤ)) = .finite (now.1 - issuedAt : ℤ) := by
  obtain ⟨age, hage⟩ := Int.eq_ofNat_of_zero_le (Int.sub_nonneg_of_le h)
  have hnow := now.2
  have hsmall : age < 2 ^ 53 := by omega
  have hcast : ((now.1 : ℤ) : ℚ) - ((issuedAt : ℤ) : ℚ) = age := by
    rw [← Int.cast_sub, hage, Int.cast_natCast]
  rw [Number.minus_finite, hcast, roundDouble_natCast hsmall, hage, Int.cast_natCast]

/-- Verification once both numbers are read: the clock, the caps and the tag. -/
theorem verifyFields_of_safe {platform : CsrfPlatform} {service : CsrfTokenService}
    {now : TimeValue} {sessionId : Option JsString} {nonce issuedAt ttl mac : JsString}
    (hissued : SafeText issuedAt) (httl : SafeText ttl) :
    service.verifyFields platform now sessionId nonce issuedAt ttl mac = true ↔
      0 < decimalValue ttl ∧ (decimalValue issuedAt : ℤ) ≤ now.1 ∧
        now.1 - decimalValue issuedAt ≤ decimalValue ttl ∧
        service.Allows (now.1 - decimalValue issuedAt) ∧
        platform.fromBase64Url mac =
          service.sign platform (macInput (sessionId.getD []) nonce issuedAt ttl) := by
  have hissued' := safeText_iff.mp hissued
  have httl' := safeText_iff.mp httl
  rw [verifyFields, if_neg (by simp [hissued'.1, httl'.1]), if_neg (by simp [hissued'.2, httl'.2]),
    hissued.read, httl.read, ← Int.cast_zero, le_intCast, lt_intCast, Allows]
  dsimp only
  -- The age is read of a token that is not from the future only.
  by_cases hpast : (decimalValue issuedAt : ℤ) ≤ now.1
  swap
  · constructor
    · intro h
      split_ifs at h with h₁ h₂
      exact absurd (by simpa using h₂) hpast
    · exact fun h => absurd h.2.1 hpast
  rw [age_exact hpast, lt_intCast]
  constructor
  · intro h
    split_ifs at h with h₁ h₂ h₃ h₄ h₅ h₆
    refine ⟨Nat.pos_of_ne_zero (by simpa using h₁), by simpa using h₂, by simpa using h₃,
      ⟨by simpa using h₄, ?_⟩, of_decide_eq_true h⟩
    intro maxAge hmem
    rw [Option.mem_def.mp hmem] at h₅
    simpa using h₅
  · rintro ⟨h₁, h₂, h₃, ⟨h₄, h₅⟩, h₆⟩
    have hmaxAge : ¬(service.maxAge.any fun maxAge =>
        maxAge.lt (.finite ((now.1 - decimalValue issuedAt : ℤ) : ℚ))) = true := by
      cases hcap : service.maxAge with
      | none => exact Bool.false_ne_true
      | some maxAge => exact ne_true_of_eq_false (h₅ maxAge hcap)
    rw [if_neg (by simpa using h₁.ne'), if_neg (by simpa using h₂), if_neg (by simpa using h₃),
      if_neg (by simpa using h₄), if_neg hmaxAge, if_neg (by rw [h₆]; exact fun h => h rfl)]
    exact decide_eq_true h₆

theorem verifyFields_iff {platform : CsrfPlatform} {service : CsrfTokenService} {now : TimeValue}
    {sessionId : Option JsString} {nonce issuedAt ttl mac : JsString} :
    service.verifyFields platform now sessionId nonce issuedAt ttl mac = true ↔
      service.Accepts platform now sessionId nonce issuedAt ttl mac := by
  constructor
  · intro h
    have hsafe : SafeText issuedAt ∧ SafeText ttl := by
      rw [verifyFields] at h
      split at h
      · cases h
      · next hdigits =>
          dsimp only at h
          split at h
          · cases h
          · next hsafe =>
              rw [safeText_iff, safeText_iff]
              simp only [Bool.or_eq_true, Bool.not_eq_true', not_or, Bool.not_eq_false]
                at hdigits hsafe
              exact ⟨⟨hdigits.1, hsafe.1⟩, hdigits.2, hsafe.2⟩
    obtain ⟨hpos, hissued, halive, hallowed, hsigned⟩ :=
      (verifyFields_of_safe hsafe.1 hsafe.2).mp h
    exact ⟨hsafe.1, hsafe.2, hpos, hissued, halive, hallowed, hsigned⟩
  · rintro ⟨hissuedAt, httl, hpos, hissued, halive, hallowed, hsigned⟩
    exact (verifyFields_of_safe hissuedAt httl).mpr ⟨hpos, hissued, halive, hallowed, hsigned⟩

/-- A token verifies when it is no longer than it may be and its fields are
accepted. -/
theorem verify_iff {platform : CsrfPlatform} {service : CsrfTokenService} {now : TimeValue}
    {token : JsString} {sessionId : Option JsString} :
    service.verify platform now token sessionId = true ↔
      (token.length ≤ MAX_TOKEN_LENGTH ∧ (0 : CodeUnit) ∉ token) ∧
        ∃ nonce issuedAt ttl mac, split 46 token = [js "t1", nonce, issuedAt, ttl, mac] ∧
          service.Accepts platform now sessionId nonce issuedAt ttl mac := by
  rw [verify]
  constructor
  · intro h
    split_ifs at h with hlength hnul
    split at h
    · next tag nonce issuedAt ttl mac hsplit =>
        split_ifs at h with htag
        rw [not_not] at htag
        subst htag
        exact ⟨⟨by omega, hnul⟩, nonce, issuedAt, ttl, mac, hsplit, verifyFields_iff.mp h⟩
    · cases h
  · rintro ⟨⟨hlength, hnul⟩, nonce, issuedAt, ttl, mac, hsplit, haccepts⟩
    have hne : token ≠ [] := by
      rintro rfl
      cases hsplit
    rw [if_neg (by rintro (h | h); exacts [hne h, absurd hlength (not_le.mpr h)]), if_neg hnul,
      hsplit]
    exact (if_neg (fun h => h rfl)).trans (verifyFields_iff.mpr haccepts)

/-! ### A token of the service -/

/-- The dots of a token stand between its fields. -/
theorem issue_eq (platform : CsrfPlatform) (service : CsrfTokenService) (random : Vector UInt8 16)
    (now : TimeValue) (sessionId : Option JsString) :
    service.issue platform random now sessionId =
      join 46 [js "t1", base64Url random.toList, numberText (.finite now.1),
        numberText service.ttl,
        base64Url (service.sign platform (macInput (sessionId.getD []) (base64Url random.toList)
          (numberText (.finite now.1)) (numberText service.ttl)))] := by
  simp only [issue, join, List.intercalate, List.intersperse, List.flatten_cons, List.flatten_nil,
    List.append_nil, List.append_assoc]
  rfl

/-- A time from the epoch on is written in digits, and one before it with a sign. -/
theorem numberText_time (now : TimeValue) :
    (∃ n : ℕ, now.1 = n ∧ n < 2 ^ 53 ∧ numberText (.finite now.1) = decimalText n) ∨
      now.1 < 0 ∧ ∃ n : ℕ, numberText (.finite now.1) = 45 :: decimalText n := by
  obtain ⟨t, ht⟩ := now
  dsimp only
  by_cases hpast : 0 ≤ t
  · obtain ⟨n, rfl⟩ := Int.eq_ofNat_of_zero_le hpast
    have hsmall : n < 2 ^ 53 := by omega
    refine .inl ⟨n, rfl, hsmall, ?_⟩
    rw [Int.cast_natCast, numberText_natCast hsmall]
  · obtain ⟨n, hn⟩ := Int.eq_ofNat_of_zero_le (show 0 ≤ -t by omega)
    have hnegated : -(t : ℚ) = n := by exact_mod_cast hn
    have hneg : (t : ℚ) < 0 := by exact_mod_cast not_le.mp hpast
    refine .inr ⟨not_le.mp hpast, n, ?_⟩
    rw [numberText, if_neg hneg.ne, if_pos hneg, hnegated,
      positiveText_natCast (by omega) (by omega)]
    rfl

theorem dot_not_mem_decimalText (n : ℕ) : (46 : CodeUnit) ∉ decimalText n :=
  fun h => absurd (isDigit_of_mem_decimalText h) (by decide)

theorem dot_not_mem_time (now : TimeValue) : (46 : CodeUnit) ∉ numberText (.finite now.1) := by
  rcases numberText_time now with ⟨n, -, -, htext⟩ | ⟨-, n, htext⟩
  · rw [htext]
    exact dot_not_mem_decimalText n
  · rw [htext]
    exact List.not_mem_cons_of_ne_of_not_mem (by decide) (dot_not_mem_decimalText n)

/-- Five fields leave one way to read the token, whatever the text of the lifetime. -/
theorem fields_unique {nonce issuedAt ttl mac nonce' issuedAt' ttl' mac' : JsString}
    (hnonce : (46 : CodeUnit) ∉ nonce) (hissued : (46 : CodeUnit) ∉ issuedAt)
    (hmac : (46 : CodeUnit) ∉ mac)
    (h : split 46 (join 46 [js "t1", nonce, issuedAt, ttl, mac]) =
      [js "t1", nonce', issuedAt', ttl', mac']) :
    nonce = nonce' ∧ issuedAt = issuedAt' ∧ ttl = ttl' ∧ mac = mac' := by
  have hclean : ∀ field ∈ [js "t1", nonce', issuedAt', ttl', mac'], (46 : CodeUnit) ∉ field := by
    intro field hfield
    rw [← h] at hfield
    exact not_mem_of_mem_split hfield
  have htext := join_split 46 (join 46 [js "t1", nonce, issuedAt, ttl, mac])
  rw [h] at htext
  simp only [join_cons_cons, join_singleton] at htext
  obtain ⟨-, h₁⟩ := append_cons_inj_left (by decide) (by decide) htext
  obtain ⟨rfl, h₂⟩ := append_cons_inj_left (hclean _ (by simp)) hnonce h₁
  obtain ⟨rfl, h₃⟩ := append_cons_inj_left (hclean _ (by simp)) hissued h₂
  obtain ⟨rfl, rfl⟩ := append_cons_inj_right (hclean _ (by simp)) hmac h₃
  exact ⟨rfl, rfl, rfl, rfl⟩

theorem length_base64Url_le (bytes : List UInt8) :
    (base64Url bytes).length ≤ 2 * bytes.length := by
  induction bytes using base64Url.induct with
  | case1 => exact le_refl 0
  | case2 a => exact le_refl 2
  | case3 a b => simp [base64Url]
  | case4 a b c rest ih =>
      rw [base64Url, List.length_append]
      simp only [List.length_cons, List.length_nil]
      omega

theorem nul_not_mem_base64Url (bytes : List UInt8) : (0 : CodeUnit) ∉ base64Url bytes := by
  intro h
  obtain ⟨n, hn, hzero⟩ := mem_base64Url h
  have := (base64Digit_bounds hn).1
  rw [← hzero] at this
  exact absurd this (by decide)

/-- A text of up to 53 bits reads as its number. -/
theorem safeText_decimalText {n : ℕ} (h : n < 2 ^ 53) : SafeText (decimalText n) where
  digits := by
    rw [isDigits, Bool.and_eq_true, Bool.not_eq_true', List.isEmpty_eq_false_iff,
      List.all_eq_true]
    exact ⟨decimalText_ne_nil n, fun c hc => isDigit_of_mem_decimalText hc⟩
  small := by rwa [decimalValue_decimalText]

/-- Text of a number that is read back is that of a natural number. -/
theorem SafeText.natural {x : ℚ} (h : SafeText (numberText (.finite x))) :
    x = decimalValue (numberText (.finite x)) := by
  have hdigits := h.digits
  rw [isDigits, Bool.and_eq_true, Bool.not_eq_true', List.isEmpty_eq_false_iff,
    List.all_eq_true] at hdigits
  have hread := (roundDouble_numberText hdigits.1 hdigits.2).2
  rw [roundDouble_natCast h.small] at hread
  exact (Number.finite.inj hread).symm

theorem length_decimalText_le {n : ℕ} (h : n < 2 ^ 53) : (decimalText n).length ≤ 16 := by
  rcases Nat.eq_zero_or_pos n with rfl | hn
  · decide
  · have hlog := Nat.log_lt_of_lt_pow hn.ne' (h.trans (by norm_num : 2 ^ 53 < 10 ^ 16))
    rw [length_decimalText hn.ne']
    omega

theorem exists_natural_of_safe {x : ℚ} (hx : 0 < x) (h : isSafeInteger (.finite x) = true) :
    ∃ n : ℕ, x = n ∧ n < 2 ^ 53 := by
  have hwhole : x.isInt = true := (Bool.and_eq_true_iff.mp h).1
  have hnum : ((x.num : ℤ) : ℚ) = x := (Rat.den_eq_one_iff x).mp (by simpa [Rat.isInt] using hwhole)
  obtain ⟨n, hn⟩ := Int.eq_ofNat_of_zero_le (Rat.num_nonneg.mpr hx.le)
  obtain rfl : x = n := by rw [← hnum, hn, Int.cast_natCast]
  exact ⟨n, rfl, isSafeInteger_natCast.mp h⟩

/-- The text of a token is short and has no NUL. -/
theorem issue_plain {platform : CsrfPlatform} {service : CsrfTokenService}
    {random : Vector UInt8 16} {now : TimeValue} {sessionId : Option JsString} {issued ttl : ℕ}
    (hissued : issued < 2 ^ 53) (hnow : numberText (.finite now.1) = decimalText issued)
    (httl : ttl < 2 ^ 53) (htext : numberText service.ttl = decimalText ttl) :
    (service.issue platform random now sessionId).length ≤ MAX_TOKEN_LENGTH ∧
      (0 : CodeUnit) ∉ service.issue platform random now sessionId := by
  have hdigits : ∀ n, (0 : CodeUnit) ∉ decimalText n := fun n h =>
    absurd (isDigit_of_mem_decimalText h) (by decide)
  constructor
  · have hnonce := length_base64Url_le random.toList
    rw [Vector.length_toList] at hnonce
    have hmac := length_base64Url_le (service.sign platform (macInput (sessionId.getD [])
      (base64Url random.toList) (numberText (.finite now.1)) (numberText service.ttl)))
    have hdigest : (service.sign platform (macInput (sessionId.getD [])
        (base64Url random.toList) (numberText (.finite now.1))
        (numberText service.ttl))).length ≤ 64 := by
      rw [sign, platform.hmac_length]
      cases service.algorithm <;> decide
    have hfirst := length_decimalText_le hissued
    have hsecond := length_decimalText_le httl
    rw [issue_eq]
    simp only [join_cons_cons, join_singleton, List.length_append, List.length_cons, hnow, htext,
      show (js "t1").length = 2 from rfl, MAX_TOKEN_LENGTH] at hmac hdigest ⊢
    omega
  · rw [issue_eq]
    apply not_mem_join (by decide)
    intro part hpart
    simp only [List.mem_cons, List.not_mem_nil, or_false] at hpart
    rcases hpart with rfl | rfl | rfl | rfl | rfl
    · decide
    · exact nul_not_mem_base64Url _
    · rw [hnow]
      exact hdigits issued
    · rw [htext]
      exact hdigits ttl
    · exact nul_not_mem_base64Url _

/-- A token verifies, for a session of the same bytes, when the texts of its
numbers can be read back and the clock is in the window. -/
theorem verify_issue {platform : CsrfPlatform} {issuer verifier : CsrfTokenService}
    (hsecret : verifier.secret = issuer.secret) (halgorithm : verifier.algorithm = issuer.algorithm)
    {lifetime : ℚ} (httl : issuer.ttl = .finite lifetime) (hpos : 0 < lifetime)
    (random : Vector UInt8 16) {sessionId other : Option JsString}
    (hsession : utf8Bytes (sessionId.getD []) = utf8Bytes (other.getD [])) (t₀ t : TimeValue) :
    verifier.verify platform t (issuer.issue platform random t₀ sessionId) other = true ↔
      (isSafeInteger issuer.ttl = true ∧ 0 ≤ t₀.1) ∧ t₀.1 ≤ t.1 ∧
        ((t.1 - t₀.1 : ℤ) : ℚ) ≤ lifetime ∧ verifier.Allows (t.1 - t₀.1) := by
  have hsign : ∀ value, verifier.sign platform value = issuer.sign platform value := fun value => by
    rw [sign, sign, hsecret, halgorithm]
  have htag : ∀ nonce issuedAt ttl, macInput (sessionId.getD []) nonce issuedAt ttl =
      macInput (other.getD []) nonce issuedAt ttl := fun nonce issuedAt ttl => by
    rw [macInput, macInput, sessionIdTag, sessionIdTag, hsession]
  rw [verify_iff]
  constructor
  · -- Only the one split is possible, and its numbers are the ones that were written.
    rintro ⟨-, nonce, issuedAt, ttl, mac, hsplit, haccepts⟩
    rw [issue_eq] at hsplit
    obtain ⟨rfl, rfl, rfl, rfl⟩ := fields_unique (dot_not_mem_base64Url _) (dot_not_mem_time t₀)
      (dot_not_mem_base64Url _) hsplit
    have hlifetime := haccepts.ttl_safe
    have halive := haccepts.alive
    rw [httl] at hlifetime halive
    have hnatural := hlifetime.natural
    have hissued : (decimalValue (numberText (.finite t₀.1)) : ℤ) = t₀.1 := by
      exact_mod_cast haccepts.issuedAt_safe.natural.symm
    have hwindow := haccepts.issued
    have hallowed := haccepts.allowed
    rw [hissued] at hwindow hallowed halive
    refine ⟨⟨?_, by omega⟩, hwindow, ?_, hallowed⟩
    · rw [httl, hnatural]
      exact isSafeInteger_natCast.mpr hlifetime.small
    · rw [hnatural]
      exact_mod_cast halive
  · -- A lifetime and a time that are whole and small are read back as they were written.
    rintro ⟨⟨hsafe, hepoch⟩, hwindow, halive, hallowed⟩
    rw [httl] at hsafe
    obtain ⟨n, rfl, hn⟩ := exists_natural_of_safe hpos hsafe
    obtain ⟨i, hi, hismall, hitext⟩ | ⟨hneg, -⟩ := numberText_time t₀
    · have hntext : numberText issuer.ttl = decimalText n := by rw [httl, numberText_natCast hn]
      refine ⟨issue_plain hismall hitext hn hntext, base64Url random.toList, decimalText i,
        decimalText n, base64Url (issuer.sign platform (macInput (sessionId.getD [])
          (base64Url random.toList) (decimalText i) (decimalText n))), ?_, ?_⟩
      · rw [issue_eq, hitext, hntext]
        apply split_join _ (by simp)
        intro part hpart
        simp only [List.mem_cons, List.not_mem_nil, or_false] at hpart
        rcases hpart with rfl | rfl | rfl | rfl | rfl
        · decide
        · exact dot_not_mem_base64Url _
        · exact dot_not_mem_decimalText i
        · exact dot_not_mem_decimalText n
        · exact dot_not_mem_base64Url _
      · constructor
        · exact safeText_decimalText hismall
        · exact safeText_decimalText hn
        · rw [decimalValue_decimalText]
          exact_mod_cast hpos
        · rw [decimalValue_decimalText]
          omega
        · rw [decimalValue_decimalText, decimalValue_decimalText, ← hi]
          exact_mod_cast halive
        · rw [decimalValue_decimalText, ← hi]
          exact hallowed
        · rw [platform.fromBase64Url_base64Url, hsign, htag]
    · omega

end CsrfTokenService

/-- The clock is past the issue and within the three lifetimes. -/
def InWindow (issuer verifier : CsrfTokenOptions) (t₀ t : TimeValue) : Prop :=
  t₀.1 ≤ t.1 ∧
    (Number.finite (t.1 - t₀.1 : ℤ)).le (issuer.expiresIn.getD DEFAULT_TTL) = true ∧
    (Number.finite (t.1 - t₀.1 : ℤ)).le (verifier.expiresIn.getD DEFAULT_TTL) = true ∧
    ∀ maxAge ∈ verifier.maxAge, (Number.finite (t.1 - t₀.1 : ℤ)).le maxAge = true

theorem le_of_isPositive {n : Number} (h : isPositive n = true) (age : ℤ) :
    (Number.finite age).le n = true ↔ n.lt (.finite age) = false := by
  obtain ⟨x, rfl, -⟩ := exists_of_isPositive h
  rw [Number.le_finite, Number.lt_finite, Bool.not_eq_true']

open CsrfTokenService in
/-- A token verifies exactly in its window when the lifetime of the issuer is
a safe integer and the clock is not before the epoch; else it never verifies. -/
theorem verify_window_iff (platform : CsrfPlatform) {issuing verifying : CsrfTokenOptions}
    {issuer verifier : CsrfTokenService} (hissuer : csrfToken issuing = .ok issuer)
    (hverifier : csrfToken verifying = .ok verifier) (hsecret : verifier.secret = issuer.secret)
    (halgorithm : verifier.algorithm = issuer.algorithm) (random : Vector UInt8 16)
    (sessionId : Option JsString) (t₀ t : TimeValue) :
    (verifier.verify platform t (issuer.issue platform random t₀ sessionId) sessionId = true ↔
        InWindow issuing verifying t₀ t) ↔
      isSafeInteger (issuing.expiresIn.getD DEFAULT_TTL) = true ∧ 0 ≤ t₀.1 ∨
        ¬InWindow issuing verifying t₀ t := by
  obtain ⟨httl, -, hpositive, -⟩ := csrfToken_ok hissuer
  obtain ⟨hcap, hmaxAge, hcapPositive, hmaxAgePositive⟩ := csrfToken_ok hverifier
  obtain ⟨lifetime, hlifetime, hpos⟩ := exists_of_isPositive hpositive
  have hwindow : InWindow issuing verifying t₀ t ↔
      t₀.1 ≤ t.1 ∧ ((t.1 - t₀.1 : ℤ) : ℚ) ≤ lifetime ∧ verifier.Allows (t.1 - t₀.1) := by
    have hage : (Number.finite (t.1 - t₀.1 : ℤ)).le issuer.ttl = true ↔
        ((t.1 - t₀.1 : ℤ) : ℚ) ≤ lifetime := by
      rw [hlifetime, Number.le_finite, Bool.not_eq_true', decide_eq_false_iff_not, not_lt]
    rw [InWindow, ← httl, ← hcap, ← hmaxAge, hage, le_of_isPositive hcapPositive, Allows]
    refine and_congr_right fun _ => and_congr_right fun _ => and_congr_right fun _ => ?_
    exact forall₂_congr fun maxAge hmem => le_of_isPositive (hmaxAgePositive maxAge hmem) _
  rw [verify_issue hsecret halgorithm hlifetime hpos random rfl t₀ t, ← hwindow, httl]
  tauto

/-! ### One secret -/

/-- A runtime that knows some SHA-256 tags under the secret "s". -/
def knownPlatform (known : List (JsString × List UInt8)) : CsrfPlatform where
  hmac algorithm secret value :=
    let digest := ((known.find? fun entry => entry.1 = value).map Prod.snd).getD []
    if secret = js "s" ∧ digest.length = algorithm.digestBytes then digest
    else List.replicate algorithm.digestBytes 0
  hmac_length algorithm secret value := by
    dsimp only
    split
    · next h => exact h.2
    · exact List.length_replicate
  fromBase64Url := readBase64Url
  fromBase64Url_base64Url := readBase64Url_base64Url

def samplePlatform : CsrfPlatform := knownPlatform
  [(js "csrf1\x00YWxpY2U\x00AAAAAAAAAAAAAAAAAAAAAA\x001700000000000\x0086400000",
    [34, 139, 60, 27, 210, 207, 250, 190, 163, 38, 230, 186, 213, 138, 205, 181, 117, 44, 128, 79,
      80, 206, 86, 171, 92, 206, 104, 56, 8, 136, 163, 42]),
   (js "csrf1\x00YWxpY2U\x00AAAAAAAAAAAAAAAAAAAAAA\x001700000000000\x001500.5",
    [185, 219, 42, 7, 118, 243, 255, 210, 208, 111, 207, 44, 218, 137, 204, 140, 105, 139, 226, 248,
      57, 16, 234, 65, 6, 140, 198, 3, 45, 183, 53, 191])]

def sampleNonce : Vector UInt8 16 := Vector.replicate 16 0

def sampleTime : TimeValue := ⟨1700000000000, by decide⟩

def sampleOptions (expiresIn : Option Number) : CsrfTokenOptions where
  secret := some (js "s")
  expiresIn

def sampleService (ttl : Number) : CsrfTokenService where
  secret := js "s"
  ttl
  maxAge := none
  algorithm := .sha256

example : (sampleService DEFAULT_TTL).issue samplePlatform sampleNonce sampleTime
    (some (js "alice")) = js "t1.AAAAAAAAAAAAAAAAAAAAAA.1700000000000.86400000." ++
      js "Ios8G9LP-r6jJua61YrNtXUsgE9QzlarXM5oOAiIoyo" := by decide +kernel

/-- With the default lifetime the token verifies a second later. -/
theorem verify_window_default :
    (sampleService DEFAULT_TTL).verify samplePlatform ⟨1700000001000, by decide⟩
      ((sampleService DEFAULT_TTL).issue samplePlatform sampleNonce sampleTime (some (js "alice")))
      (some (js "alice")) = true :=
  ((verify_window_iff samplePlatform (show csrfToken (sampleOptions none) = .ok _ from rfl)
    (show csrfToken (sampleOptions none) = .ok _ from rfl) rfl rfl sampleNonce (some (js "alice"))
    sampleTime ⟨1700000001000, by decide⟩).mpr (.inl ⟨by decide +kernel, by decide⟩)).mpr
    ⟨by decide, by decide +kernel, by decide +kernel, fun _ h => by cases h⟩

/-- Of a service for 1500.5 ms no token verifies, not even as it is issued. -/
theorem verify_window_fraction :
    csrfToken (sampleOptions (some (.finite (3001 / 2)))) =
        .ok (sampleService (.finite (3001 / 2))) ∧
      InWindow (sampleOptions (some (.finite (3001 / 2))))
        (sampleOptions (some (.finite (3001 / 2)))) sampleTime sampleTime ∧
      (sampleService (.finite (3001 / 2))).verify samplePlatform sampleTime
        ((sampleService (.finite (3001 / 2))).issue samplePlatform sampleNonce sampleTime
          (some (js "alice"))) (some (js "alice")) = false :=
  ⟨by simp [csrfToken, sampleOptions, sampleService, isPositive, js],
    ⟨by decide, by decide +kernel, by decide +kernel, fun _ h => by cases h⟩,
    by decide +kernel⟩

end Keala.Middleware
