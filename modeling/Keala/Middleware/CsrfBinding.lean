import Keala.Middleware.CsrfToken

/-!
What a verified token is bound to. No rearrangement of its fields makes it
another token: the signed text is read in one way only. The session enters it
by its UTF-8 bytes, which are one and the same for some ill-formed texts.
-/

namespace Keala.Middleware

open Keala.Js Keala.Plugins CsrfTokenService

/-! ### The signed text -/

/-- The signed text is read in one way. -/
theorem macInput_inj {a b nonce issuedAt ttl nonce' issuedAt' ttl' : JsString}
    (hnonce : (0 : CodeUnit) ∉ nonce) (hnonce' : (0 : CodeUnit) ∉ nonce')
    (hissuedAt : (0 : CodeUnit) ∉ issuedAt) (hissuedAt' : (0 : CodeUnit) ∉ issuedAt')
    (h : macInput a nonce issuedAt ttl = macInput b nonce' issuedAt' ttl') :
    utf8Bytes a = utf8Bytes b ∧ nonce = nonce' ∧ issuedAt = issuedAt' ∧ ttl = ttl' := by
  rw [macInput, macInput] at h
  simp only [List.append_assoc, List.append_cancel_left_eq, List.cons_append, List.nil_append,
    List.cons.injEq, true_and] at h
  obtain ⟨htag, h₁⟩ := append_cons_inj_left (nul_not_mem_base64Url _) (nul_not_mem_base64Url _) h
  obtain ⟨rfl, h₂⟩ := append_cons_inj_left hnonce hnonce' h₁
  obtain ⟨rfl, rfl⟩ := append_cons_inj_left hissuedAt hissuedAt' h₂
  exact ⟨base64Url_inj htag, rfl, rfl, rfl⟩

/-! ### Issued tokens -/

structure IssueCall where
  service : CsrfTokenService
  random : Vector UInt8 16
  now : TimeValue
  sessionId : Option JsString

namespace IssueCall

def session (call : IssueCall) : JsString := call.sessionId.getD []

def token (platform : CsrfPlatform) (call : IssueCall) : JsString :=
  call.service.issue platform call.random call.now call.sessionId

def signed (call : IssueCall) : JsString :=
  macInput call.session (base64Url call.random.toList) (numberText (.finite call.now.1))
    (numberText call.service.ttl)

def Readable (call : IssueCall) : Prop :=
  isSafeInteger call.service.ttl = true ∧ 0 ≤ call.now.1

end IssueCall

/-- The service was accepted, and it shares secret and algorithm. -/
def Shares (verifier : CsrfTokenService) (call : IssueCall) : Prop :=
  (∃ options, csrfToken options = .ok call.service) ∧ verifier.secret = call.service.secret ∧
    verifier.algorithm = call.service.algorithm

/-- No forgeries: a token shows the tag of a text under the secret only where
a call signed that text. -/
def UnforgedToken (platform : CsrfPlatform) (verifier : CsrfTokenService)
    (issued : Set IssueCall) (token session : JsString) : Prop :=
  ∀ nonce issuedAt ttl mac, split 46 token = [js "t1", nonce, issuedAt, ttl, mac] →
    platform.fromBase64Url mac = verifier.sign platform (macInput session nonce issuedAt ttl) →
    ∃ call ∈ issued, call.signed = macInput session nonce issuedAt ttl

/-- The token has the nonce, the issue time and the lifetime of a call that
issued for the session. -/
def BoundTo (token session : JsString) (call : IssueCall) : Prop :=
  call.session = session ∧
    ∃ nonce issuedAt ttl mac, split 46 token = [js "t1", nonce, issuedAt, ttl, mac] ∧
      nonce = base64Url call.random.toList ∧ call.now.1 = decimalValue issuedAt ∧
      call.service.ttl = .finite (decimalValue ttl)

def Binds (platform : CsrfPlatform) (verifier : CsrfTokenService) (issued : Set IssueCall)
    (sessionId : Option JsString) : Prop :=
  ∀ now token, UnforgedToken platform verifier issued token (sessionId.getD []) →
    verifier.verify platform now token sessionId = true →
    ∃ call ∈ issued, BoundTo token (sessionId.getD []) call

/-- No readable token was issued for another session of the same bytes, unless
one just like it was issued for the session itself. -/
def BytesApart (issued : Set IssueCall) (session : JsString) : Prop :=
  ∀ call ∈ issued, call.Readable → utf8Bytes call.session = utf8Bytes session →
    ∃ own ∈ issued, own.session = session ∧ own.random = call.random ∧ own.now = call.now ∧
      own.service.ttl = call.service.ttl

/-- A verified token says what some call said, for a session of the same bytes. -/
theorem exists_call_of_verify {platform : CsrfPlatform} {verifier : CsrfTokenService}
    {issued : Set IssueCall} (hshares : ∀ call ∈ issued, Shares verifier call)
    {sessionId : Option JsString} {now : TimeValue} {token : JsString}
    (hunforged : UnforgedToken platform verifier issued token (sessionId.getD []))
    (h : verifier.verify platform now token sessionId = true) :
    ∃ call ∈ issued, call.Readable ∧ utf8Bytes call.session = utf8Bytes (sessionId.getD []) ∧
      BoundTo token call.session call := by
  obtain ⟨⟨-, hnul⟩, nonce, issuedAt, ttl, mac, hsplit, haccepts⟩ := verify_iff.mp h
  obtain ⟨call, hcall, hsigned⟩ := hunforged nonce issuedAt ttl mac hsplit haccepts.signed
  have hclean : ∀ part ∈ [js "t1", nonce, issuedAt, ttl, mac], (0 : CodeUnit) ∉ part := by
    intro part hpart hzero
    rw [← hsplit] at hpart
    exact hnul (mem_of_mem_split hpart hzero)
  have htime : (0 : CodeUnit) ∉ numberText (.finite call.now.1) := by
    rcases numberText_time call.now with ⟨n, -, -, htext⟩ | ⟨-, n, htext⟩
    · rw [htext]
      exact fun h => absurd (isDigit_of_mem_decimalText h) (by decide)
    · rw [htext, List.mem_cons, not_or]
      exact ⟨by decide, fun h => absurd (isDigit_of_mem_decimalText h) (by decide)⟩
  obtain ⟨hbytes, hnonce, rfl, rfl⟩ := macInput_inj (nul_not_mem_base64Url _)
    (hclean nonce (by simp)) htime (hclean issuedAt (by simp)) hsigned
  obtain ⟨⟨options, hoptions⟩, -, -⟩ := hshares call hcall
  obtain ⟨lifetime, hlifetime, -⟩ := exists_of_isPositive (csrfToken_ok hoptions).2.2.1
  have httl := haccepts.ttl_safe
  rw [hlifetime] at httl
  have hread : call.now.1 = (decimalValue (numberText (.finite call.now.1)) : ℤ) := by
    exact_mod_cast haccepts.issuedAt_safe.natural
  refine ⟨call, hcall, ⟨?_, by omega⟩, hbytes, rfl, nonce, _, _, mac, hsplit, hnonce.symm, hread,
    ?_⟩
  · rw [hlifetime, httl.natural]
    exact isSafeInteger_natCast.mpr httl.small
  · rw [hlifetime]
    exact congrArg Number.finite httl.natural

/-- The text of a readable token gives its numbers back. -/
theorem IssueCall.Readable.read {call : IssueCall} (h : call.Readable)
    (hservice : ∃ options, csrfToken options = .ok call.service) :
    call.now.1 = decimalValue (numberText (.finite call.now.1)) ∧
      call.service.ttl = .finite (decimalValue (numberText call.service.ttl)) := by
  obtain ⟨options, hoptions⟩ := hservice
  obtain ⟨lifetime, hlifetime, hpos⟩ := exists_of_isPositive (csrfToken_ok hoptions).2.2.1
  constructor
  · rcases numberText_time call.now with ⟨n, hn, -, htext⟩ | ⟨hneg, -⟩
    · rw [htext, decimalValue_decimalText, hn]
    · exact absurd h.2 (not_le.mpr hneg)
  · have hsafe := h.1
    rw [hlifetime] at hsafe
    obtain ⟨n, rfl, hn⟩ := exists_natural_of_safe hpos hsafe
    rw [hlifetime, numberText_natCast hn, decimalValue_decimalText]

/-- The own token of a call verifies for every session of the same bytes. -/
theorem verify_own {platform : CsrfPlatform} {verifier : CsrfTokenService} {call : IssueCall}
    (hverifier : ∃ options, csrfToken options = .ok verifier) (hshares : Shares verifier call)
    (hreadable : call.Readable) {sessionId : Option JsString}
    (hbytes : utf8Bytes call.session = utf8Bytes (sessionId.getD [])) :
    verifier.verify platform call.now (call.token platform) sessionId = true := by
  obtain ⟨⟨options, hoptions⟩, hsecret, halgorithm⟩ := hshares
  obtain ⟨lifetime, hlifetime, hpos⟩ := exists_of_isPositive (csrfToken_ok hoptions).2.2.1
  obtain ⟨verifying, hverifying⟩ := hverifier
  obtain ⟨-, -, hcap, hmaxAge⟩ := csrfToken_ok hverifying
  have hnow : ∀ n, isPositive n = true → n.lt (.finite (0 : ℤ)) = false := by
    intro n hn
    obtain ⟨x, rfl, hx⟩ := exists_of_isPositive hn
    rw [Number.lt_finite, decide_eq_false_iff_not, not_lt, Int.cast_zero]
    exact hx.le
  rw [IssueCall.token, verify_issue hsecret halgorithm hlifetime hpos call.random hbytes, sub_self]
  exact ⟨hreadable, le_refl _, by rw [Int.cast_zero]; exact hpos.le, hnow _ hcap,
    fun maxAge hmem => hnow _ (hmaxAge maxAge hmem)⟩

theorem split_token {platform : CsrfPlatform} {call : IssueCall} {nonce issuedAt ttl mac : JsString}
    (h : split 46 (call.token platform) = [js "t1", nonce, issuedAt, ttl, mac]) :
    base64Url call.random.toList = nonce ∧ numberText (.finite call.now.1) = issuedAt ∧
      numberText call.service.ttl = ttl := by
  rw [IssueCall.token, issue_eq] at h
  obtain ⟨hnonce, hissuedAt, httl, -⟩ := fields_unique (dot_not_mem_base64Url _)
    (dot_not_mem_time call.now) (dot_not_mem_base64Url _) h
  exact ⟨hnonce, hissuedAt, httl⟩

/-- What a service verifies for a session was issued for that session, with
this nonce, time and lifetime, exactly when no other session of the same bytes
was issued a token. -/
theorem binds_iff (platform : CsrfPlatform) (verifier : CsrfTokenService)
    (hverifier : ∃ options, csrfToken options = .ok verifier) (issued : Set IssueCall)
    (hshares : ∀ call ∈ issued, Shares verifier call) (sessionId : Option JsString) :
    Binds platform verifier issued sessionId ↔ BytesApart issued (sessionId.getD []) := by
  constructor
  · intro hbinds call hcall hreadable hbytes
    have hunforged : UnforgedToken platform verifier issued (call.token platform)
        (sessionId.getD []) := by
      intro nonce issuedAt ttl mac hsplit _
      obtain ⟨rfl, rfl, rfl⟩ := split_token hsplit
      refine ⟨call, hcall, ?_⟩
      rw [IssueCall.signed, macInput, macInput, sessionIdTag, sessionIdTag, hbytes]
    obtain ⟨own, hown, hsession, nonce, issuedAt, ttl, mac, hsplit, hnonce, htime, hlifetime⟩ :=
      hbinds call.now (call.token platform) hunforged
        (verify_own hverifier (hshares call hcall) hreadable hbytes)
    obtain ⟨rfl, rfl, rfl⟩ := split_token hsplit
    obtain ⟨hissued, hkept⟩ := hreadable.read (hshares call hcall).1
    refine ⟨own, hown, hsession, ?_, ?_, ?_⟩
    · exact (Vector.toList_inj.mp (base64Url_inj hnonce)).symm
    · exact Subtype.ext (htime.trans hissued.symm)
    · exact hlifetime.trans hkept.symm
  · intro hapart now token hunforged hverify
    obtain ⟨call, hcall, hreadable, hbytes, -, nonce, issuedAt, ttl, mac, hsplit, hnonce, htime,
      hlifetime⟩ := exists_call_of_verify hshares hunforged hverify
    obtain ⟨own, hown, hsession, hrandom, hnow, httl⟩ := hapart call hcall hreadable hbytes
    refine ⟨own, hown, hsession, nonce, issuedAt, ttl, mac, hsplit, ?_, ?_, ?_⟩
    · rw [hrandom]
      exact hnonce
    · rw [hnow]
      exact htime
    · rw [httl]
      exact hlifetime

/-- Sessions without a lone surrogate are told apart. -/
theorem bytesApart_of_wellFormed {issued : Set IssueCall}
    (hissued : ∀ call ∈ issued, isWellFormed call.session = true) {session : JsString}
    (hsession : isWellFormed session = true) : BytesApart issued session := by
  intro call hcall _ hbytes
  exact ⟨call, hcall, utf8Bytes_inj (hissued call hcall) hsession hbytes, rfl, rfl, rfl⟩

/-! ### Two sessions of the same bytes -/

def sampleCall (sessionId : JsString) : IssueCall where
  service := sampleService DEFAULT_TTL
  random := sampleNonce
  now := sampleTime
  sessionId := some sessionId

theorem sampleService_accepted : ∃ options, csrfToken options = .ok (sampleService DEFAULT_TTL) :=
  ⟨sampleOptions none, rfl⟩

theorem sampleCall_shares (session : JsString) :
    ∀ call ∈ ({sampleCall session} : Set IssueCall), Shares (sampleService DEFAULT_TTL) call := by
  rintro call rfl
  exact ⟨sampleService_accepted, rfl, rfl⟩

/-- The token of a call is no forgery for a session of the same bytes. -/
theorem sampleCall_unforged (platform : CsrfPlatform) {session other : JsString}
    (hbytes : utf8Bytes session = utf8Bytes other) :
    UnforgedToken platform (sampleService DEFAULT_TTL) {sampleCall session}
      ((sampleCall session).token platform) other := by
  intro nonce issuedAt ttl mac hsplit _
  obtain ⟨rfl, rfl, rfl⟩ := split_token hsplit
  refine ⟨sampleCall session, rfl, ?_⟩
  rw [IssueCall.signed, macInput, macInput, sessionIdTag, sessionIdTag, ← hbytes]
  rfl

/-- The token issued for "alice" is bound to "alice". -/
theorem binds_alice :
    ∃ call ∈ ({sampleCall (js "alice")} : Set IssueCall),
      BoundTo ((sampleCall (js "alice")).token samplePlatform) (js "alice") call :=
  (binds_iff samplePlatform (sampleService DEFAULT_TTL) sampleService_accepted _
    (sampleCall_shares (js "alice")) (some (js "alice"))).mpr
    (bytesApart_of_wellFormed (by rintro call rfl; decide +kernel) (by decide +kernel))
    sampleTime _ (sampleCall_unforged samplePlatform rfl) (by decide +kernel)

def surrogatePlatform : CsrfPlatform := knownPlatform
  [(js "csrf1\x0077-9\x00AAAAAAAAAAAAAAAAAAAAAA\x001700000000000\x0086400000",
    [202, 112, 181, 107, 56, 195, 24, 150, 6, 139, 14, 49, 10, 135, 139, 56, 88, 173, 71, 156, 85,
      90, 147, 179, 32, 232, 252, 20, 145, 28, 64, 153])]

/-- The token issued for a lone surrogate verifies for the replacement character. -/
theorem binds_not_surrogate :
    (sampleService DEFAULT_TTL).verify surrogatePlatform sampleTime
        ((sampleCall [0xD800]).token surrogatePlatform) (some [0xFFFD]) = true ∧
      UnforgedToken surrogatePlatform (sampleService DEFAULT_TTL) {sampleCall [0xD800]}
        ((sampleCall [0xD800]).token surrogatePlatform) [0xFFFD] ∧
      ¬∃ call ∈ ({sampleCall [0xD800]} : Set IssueCall),
        BoundTo ((sampleCall [0xD800]).token surrogatePlatform) [0xFFFD] call := by
  refine ⟨by decide +kernel, sampleCall_unforged surrogatePlatform (by decide +kernel), ?_⟩
  rintro ⟨call, rfl, hsession, -⟩
  revert hsession
  decide

end Keala.Middleware
