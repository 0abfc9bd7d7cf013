import Keala.Lib.Except
import Keala.Plugins.Base64

/-!
What a signed read of a cookie proves about the calls that handed the cookies
out: the value was signed by one of them. The signature covers the value and
not the name, so it is good under every name.
-/

namespace Keala.Plugins

open Keala.Js Keala.Http

variable {κ : Type}

/-! ### Cutting a text at a separator -/

theorem lastIndexOf_some {text : JsString} {c : CodeUnit} {i : ℕ}
    (h : lastIndexOf text c = some i) : text = text.take i ++ c :: text.drop (i + 1) := by
  obtain ⟨j, hj, rfl⟩ := Option.map_eq_some_iff.mp h
  obtain ⟨hlt, hfound, -⟩ := List.findIdx?_eq_some_iff_getElem.mp hj
  rw [List.length_reverse] at hlt
  have hi : text.length - 1 - j < text.length := by omega
  have hc : text[text.length - 1 - j] = c := by
    rw [List.getElem_reverse] at hfound
    simpa using hfound
  rw [← hc, List.getElem_cons_drop, List.take_append_drop]

/-! ### The text of a cookie -/

/-- Nothing, or text set off by a semicolon. -/
def SetOff (attributes : JsString) : Prop := attributes = [] ∨ attributes.head? = some 59

/-- The cookie pairs a name with the value, and attributes may follow. -/
def Carries (cookie value : JsString) : Prop :=
  ∃ name encoded attributes, isValidCookieName name = true ∧
    encodeURIComponent value = some encoded ∧ SetOff attributes ∧
    cookie = name ++ js "=" ++ encoded ++ attributes

/-- A signed text has one value. -/
theorem sign_inj {platform : CookiePlatform κ} {a b : JsString} {k l : κ}
    (h : sign platform a k = sign platform b l) : a = b := by
  rw [sign, sign, List.append_assoc, List.append_assoc] at h
  exact (append_cons_inj_right (dot_not_mem_base64Url _) (dot_not_mem_base64Url _) h).1

theorem eq_not_mem_name {name : JsString} (h : isValidCookieName name = true) :
    (61 : CodeUnit) ∉ name := by
  intro hmem
  rw [isValidCookieName, isToken, Bool.and_eq_true, List.all_eq_true] at h
  have := h.2 61 hmem
  revert this
  decide

theorem semicolon_not_mem_encoded {value encoded : JsString}
    (h : encodeURIComponent value = some encoded) : (59 : CodeUnit) ∉ encoded := by
  intro hmem
  have := isEncoded_of_mem h hmem
  revert this
  decide

/-- The text in front of the attributes. -/
theorem takeWhile_setOff {text attributes : JsString} (htext : (59 : CodeUnit) ∉ text)
    (h : SetOff attributes) : (text ++ attributes).takeWhile (fun x => x ≠ 59) = text := by
  rw [List.takeWhile_append_of_pos fun x hx => by
    simpa using fun heq : x = 59 => htext (heq ▸ hx)]
  rcases h with rfl | hattr
  · simp
  · obtain ⟨rest, rfl⟩ := List.head?_eq_some_iff.mp hattr
    simp

/-- A cookie carries one value. -/
theorem Carries.unique {cookie a b : JsString} (ha : Carries cookie a) (hb : Carries cookie b) :
    a = b := by
  obtain ⟨n, e, s, hn, he, hs, rfl⟩ := ha
  obtain ⟨m, f, t, hm, hf, ht, hcookie⟩ := hb
  simp only [List.append_assoc] at hcookie
  obtain ⟨-, hrest⟩ : n = m ∧ e ++ s = f ++ t :=
    append_cons_inj_left (eq_not_mem_name hn) (eq_not_mem_name hm) hcookie
  have hvalues : e = f := by
    rw [← takeWhile_setOff (semicolon_not_mem_encoded he) hs, hrest]
    exact takeWhile_setOff (semicolon_not_mem_encoded hf) ht
  rw [hvalues] at he
  exact encodeURIComponent_inj he hf

theorem SetOff.append {a b : JsString} (ha : SetOff a) (hb : SetOff b) : SetOff (a ++ b) := by
  rcases ha with rfl | ha
  · exact hb
  · obtain ⟨rest, rfl⟩ := List.head?_eq_some_iff.mp ha
    exact .inr rfl

theorem wordAttribute_setOff {platform : CookiePlatform κ} {label option : String}
    {words : List String} {given text : JsString} (hlabel : (js label).head? = some 59)
    (h : wordAttribute platform label option words given = .ok text) : SetOff text := by
  rw [wordAttribute] at h
  split at h
  · obtain rfl := Except.ok.inj h
    obtain ⟨rest, hrest⟩ := List.head?_eq_some_iff.mp hlabel
    rw [hrest]
    exact .inr rfl
  · cases h

theorem flagAttribute_setOff {label : String} {flag : Option Bool}
    (hlabel : (js label).head? = some 59) : SetOff (flagAttribute label flag) := by
  rw [flagAttribute]
  split
  · exact .inr hlabel
  · exact .inl rfl

theorem maxAgeAttribute_setOff {given : Option MaxAge} {text : JsString}
    (h : maxAgeAttribute given = .ok text) : SetOff text := by
  match given, h with
  | none, h => exact .inl (Except.ok.inj h).symm
  | some (.seconds value), h =>
      rw [maxAgeAttribute] at h
      split at h
      · cases h
      · obtain rfl := Except.ok.inj h
        exact .inr rfl

theorem expiresAttribute_setOff {platform : CookiePlatform κ} {now : ℤ} {given : Option Expires}
    {text : JsString} (h : expiresAttribute platform now given = .ok text) : SetOff text := by
  match given, h with
  | none, h => exact .inl (Except.ok.inj h).symm
  | some (.time expiry), h =>
      rw [expiresAttribute] at h
      split at h
      · cases h
      · obtain rfl := Except.ok.inj h
        exact .inr rfl

theorem domainAttribute_setOff {platform : CookiePlatform κ} {given : Option JsString}
    {text : JsString} (h : domainAttribute platform given = .ok text) : SetOff text := by
  match given, h with
  | none, h => exact .inl (Except.ok.inj h).symm
  | some domain, h =>
      obtain ⟨-, -, h⟩ := Except.ok_of_bind h
      obtain rfl := Except.ok.inj h
      exact .inr rfl

theorem pathAttribute_setOff {platform : CookiePlatform κ} {given : Option JsString}
    {text : JsString} (h : pathAttribute platform given = .ok text) : SetOff text := by
  rw [pathAttribute] at h
  split at h
  · exact .inl (Except.ok.inj h).symm
  · obtain ⟨-, -, h⟩ := Except.ok_of_bind h
    obtain rfl := Except.ok.inj h
    exact .inr rfl

theorem priorityAttribute_setOff {platform : CookiePlatform κ} {given : Option JsString}
    {text : JsString} (h : priorityAttribute platform given = .ok text) : SetOff text := by
  match given, h with
  | none, h => exact .inl (Except.ok.inj h).symm
  | some priority, h => exact wordAttribute_setOff rfl h

theorem sameSiteAttribute_setOff {platform : CookiePlatform κ} {given : Option SameSite}
    {text : JsString} (h : sameSiteAttribute platform given = .ok text) : SetOff text := by
  match given, h with
  | none, h => exact .inl (Except.ok.inj h).symm
  | some (.flag false), h => exact .inl (Except.ok.inj h).symm
  | some (.flag true), h => exact wordAttribute_setOff rfl h
  | some (.mode mode), h => exact wordAttribute_setOff rfl h

theorem partitionedAttribute_setOff {options : CookieOptions} {text : JsString}
    (h : partitionedAttribute options = .ok text) : SetOff text := by
  rw [partitionedAttribute] at h
  split at h
  · exact .inl (Except.ok.inj h).symm
  · split at h
    · cases h
    · obtain rfl := Except.ok.inj h
      exact .inr rfl

theorem cookieAttributes_setOff {platform : CookiePlatform κ} {now : ℤ} {options : CookieOptions}
    {attributes : JsString} (h : cookieAttributes platform now options = .ok attributes) :
    SetOff attributes := by
  rw [cookieAttributes] at h
  obtain ⟨maxAge, hmaxAge, h⟩ := Except.ok_of_bind h
  obtain ⟨expires, hexpires, h⟩ := Except.ok_of_bind h
  obtain ⟨domain, hdomain, h⟩ := Except.ok_of_bind h
  obtain ⟨path, hpath, h⟩ := Except.ok_of_bind h
  obtain ⟨priority, hpriority, h⟩ := Except.ok_of_bind h
  obtain ⟨sameSite, hsameSite, h⟩ := Except.ok_of_bind h
  obtain ⟨partitioned, hpartitioned, h⟩ := Except.ok_of_bind h
  obtain rfl := Except.ok.inj h
  exact ((((((((maxAgeAttribute_setOff hmaxAge).append (expiresAttribute_setOff hexpires)).append
    (domainAttribute_setOff hdomain)).append (pathAttribute_setOff hpath)).append
    (priorityAttribute_setOff hpriority)).append (sameSiteAttribute_setOff hsameSite)).append
    (partitionedAttribute_setOff hpartitioned)).append (flagAttribute_setOff rfl)).append
    (flagAttribute_setOff rfl)

/-- What is serialized: the name, the encoded value and the attributes. -/
theorem serializeCookie_ok {platform : CookiePlatform κ} {now : ℤ} {name value : JsString}
    {options : CookieOptions} {cookie : JsString}
    (h : serializeCookie platform now name value options = .ok cookie) :
    isValidCookieName name = true ∧ ∃ encoded attributes,
      encodeURIComponent value = some encoded ∧ SetOff attributes ∧
        cookie = name ++ js "=" ++ encoded ++ attributes := by
  rw [serializeCookie] at h
  split at h
  · cases h
  · next hname =>
      split at h
      · cases h
      · split at h
        · cases h
        · next encoded henc =>
            obtain ⟨attributes, hattributes, h⟩ := Except.ok_of_bind h
            obtain rfl := Except.ok.inj h
            exact ⟨by simpa using hname, encoded, attributes, henc,
              cookieAttributes_setOff hattributes, rfl⟩

theorem serializeCookie_carries {platform : CookiePlatform κ} {now : ℤ} {name value : JsString}
    {options : CookieOptions} {cookie : JsString}
    (h : serializeCookie platform now name value options = .ok cookie) : Carries cookie value := by
  obtain ⟨hname, encoded, attributes, henc, hattributes, hcookie⟩ := serializeCookie_ok h
  exact ⟨name, encoded, attributes, hname, henc, hattributes, hcookie⟩

/-! ### Handing cookies out -/

structure SetCall (κ : Type) where
  keys : Option (List κ)
  requestSecure : Bool
  now : ℤ
  name : JsString
  value : JsString
  options : CookieOptions

def SetCall.host (call : SetCall κ) : CookiesHost κ :=
  { cookieHeader := none, requestSecure := call.requestSecure, keys := call.keys, now := call.now }

/-- A cookie is signed when it is asked for, or by default where there are keys. -/
def Signed (keys : Option (List κ)) (signed : Option Bool) : Prop :=
  signed = some true ∨ signed = none ∧ keys.getD [] ≠ []

/-- A call that throws leaves the staged cookies alone. -/
def SetCall.run (platform : CookiePlatform κ) (staged : Option HeaderValue) (call : SetCall κ) :
    Option HeaderValue :=
  match call.host.set platform staged call.name call.value call.options with
  | .ok staged => some staged
  | .error _ => staged

def stagedTexts : Option HeaderValue → List JsString
  | none => []
  | some (.one value) => [value]
  | some (.many values) => values

/-- The cookies that clients received, each response with its calls in order. -/
def received (platform : CookiePlatform κ) (history : List (List (SetCall κ))) : List JsString :=
  history.flatMap fun calls => stagedTexts (calls.foldl (SetCall.run platform) none)

/-- The cookie is what the call serialized, signed with its first key. -/
def IssuedBy (platform : CookiePlatform κ) (cookie : JsString) (call : SetCall κ) : Prop :=
  ∃ key, (call.keys.getD []).head? = some key ∧
    Carries cookie (sign platform call.value key)

theorem mem_stageCookie {existing : Option HeaderValue} {name serialized entry : JsString}
    {overwrite : Bool}
    (h : entry ∈ stagedTexts (some (stageCookie existing name serialized overwrite))) :
    entry = serialized ∨ entry ∈ stagedTexts existing := by
  match existing with
  | none => exact .inl (List.mem_singleton.mp h)
  | some (.many list) =>
      simp only [stageCookie] at h
      split at h
      · rcases List.mem_append.mp h with hold | hnew
        · exact .inr (List.mem_of_mem_filter hold)
        · exact .inl (List.mem_singleton.mp hnew)
      · split at h
        · exact .inr h
        · rcases List.mem_append.mp h with hold | hnew
          · exact .inr hold
          · exact .inl (List.mem_singleton.mp hnew)
  | some (.one value) =>
      have hpair : entry ∈ [value, serialized] → entry = serialized ∨ entry ∈ [value] := by
        rw [List.mem_cons, List.mem_singleton, List.mem_singleton]
        exact Or.symm
      simp only [stageCookie] at h
      split at h
      · exact hpair h
      · split at h
        · exact .inr h
        · exact hpair h

theorem valueToSet_signed {platform : CookiePlatform κ} {host : CookiesHost κ}
    {value toSet : JsString} {options : CookieOptions} (hsigned : Signed host.keys options.signed)
    (h : host.valueToSet platform value options = .ok toSet) :
    ∃ key, (host.keys.getD []).head? = some key ∧ toSet = sign platform value key := by
  rw [CookiesHost.valueToSet] at h
  split at h
  · next hempty =>
      rcases hsigned with hon | ⟨-, hne⟩
      · rw [if_pos hon] at h
        cases h
      · exact absurd hempty hne
  · next key keys hkeys =>
      have hon : options.signed ≠ some false := by
        rcases hsigned with hon | ⟨hnone, -⟩
        · simp [hon]
        · simp [hnone]
      rw [if_neg hon] at h
      exact ⟨key, by rw [hkeys]; rfl, (Except.ok.inj h).symm⟩

/-- What a signed call stages is there before it or is issued by it. -/
theorem SetCall.run_issued {platform : CookiePlatform κ} {staged : Option HeaderValue}
    {call : SetCall κ} (hsigned : Signed call.keys call.options.signed) {cookie : JsString}
    (h : cookie ∈ stagedTexts (call.run platform staged)) :
    IssuedBy platform cookie call ∨ cookie ∈ stagedTexts staged := by
  rw [SetCall.run] at h
  split at h
  · next after hset =>
      obtain ⟨toSet, htoSet, hset⟩ := Except.ok_of_bind hset
      obtain ⟨serialized, hserialized, hset⟩ := Except.ok_of_bind hset
      obtain rfl := Except.ok.inj hset
      rcases mem_stageCookie h with rfl | hold
      · obtain ⟨key, hkey, rfl⟩ := valueToSet_signed hsigned htoSet
        exact .inl ⟨key, hkey, serializeCookie_carries hserialized⟩
      · exact .inr hold
  · exact .inr h

theorem foldl_run_issued {platform : CookiePlatform κ} (calls : List (SetCall κ))
    (staged : Option HeaderValue)
    (hsigned : ∀ call ∈ calls, Signed call.keys call.options.signed) {cookie : JsString}
    (h : cookie ∈ stagedTexts (calls.foldl (SetCall.run platform) staged)) :
    (∃ call ∈ calls, IssuedBy platform cookie call) ∨ cookie ∈ stagedTexts staged := by
  induction calls generalizing staged with
  | nil => exact .inr h
  | cons call calls ih =>
      rcases ih _ (fun call hmem => hsigned call (List.mem_cons_of_mem _ hmem)) h with
        ⟨issuer, hmem, hissued⟩ | hstaged
      · exact .inl ⟨issuer, List.mem_cons_of_mem _ hmem, hissued⟩
      · rcases SetCall.run_issued (hsigned call List.mem_cons_self) hstaged with hissued | hold
        · exact .inl ⟨call, List.mem_cons_self, hissued⟩
        · exact .inr hold

/-- Every cookie that a client received was issued by a call. -/
theorem received_issued {platform : CookiePlatform κ} {history : List (List (SetCall κ))}
    (hsigned : ∀ calls ∈ history, ∀ call ∈ calls, Signed call.keys call.options.signed)
    {cookie : JsString} (h : cookie ∈ received platform history) :
    ∃ calls ∈ history, ∃ call ∈ calls, IssuedBy platform cookie call := by
  obtain ⟨calls, hcalls, hcookie⟩ := List.mem_flatMap.mp h
  rcases foldl_run_issued calls none (hsigned calls hcalls) hcookie with
    ⟨call, hcall, hissued⟩ | hnone
  · exact ⟨calls, hcalls, call, hcall, hissued⟩
  · cases hnone

/-! ### Reading them back -/

/-- No forgeries: whoever shows a value with its tag under one of the keys was
handed a cookie with that signed value. -/
def Unforgeable (platform : CookiePlatform κ) (keys : List κ) (handed : List JsString)
    (header : JsString) : Prop :=
  ∀ key ∈ keys, ∀ value signature,
    value ++ js "." ++ signature ∈ (parseCookies (some header)).map Prod.snd →
    platform.fromBase64Url signature = platform.hmac key value →
    ∃ cookie ∈ handed, Carries cookie (sign platform value key)

/-- A verified text is its value and a signature with the tag of the value. -/
theorem unsign_some {platform : CookiePlatform κ} {signed value : JsString} {keys : List κ}
    (h : unsign platform signed keys = some value) :
    ∃ key ∈ keys, ∃ signature, signed = value ++ js "." ++ signature ∧
      platform.fromBase64Url signature = platform.hmac key value := by
  rw [unsign] at h
  split at h
  · cases h
  · next dot hdot =>
      obtain ⟨hany, hvalue⟩ := Option.ite_none_right_eq_some.mp h
      obtain rfl := Option.some.inj hvalue
      obtain ⟨key, hkey, htag⟩ := List.any_eq_true.mp hany
      refine ⟨key, hkey, _, ?_, of_decide_eq_true htag⟩
      rw [List.append_assoc]
      exact lastIndexOf_some hdot

theorem readJar_mem {jar : List (JsString × JsString)} {name raw : JsString}
    (h : readJar jar name = some raw) : raw ∈ jar.map Prod.snd := by
  obtain ⟨entry, hentry, rfl⟩ := Option.map_eq_some_iff.mp h
  exact List.mem_map_of_mem (List.mem_reverse.mp (List.mem_of_find?_eq_some hentry))

/-- A signed read shows a value with its tag under one of the keys. -/
theorem get_signed {platform : CookiePlatform κ} {host : CookiesHost κ} {header name v : JsString}
    (hheader : host.cookieHeader = some header) {signed : Option Bool}
    (hsigned : Signed host.keys signed) (h : host.get platform name signed = .ok (some v)) :
    ∃ key ∈ host.keys.getD [], ∃ signature,
      v ++ js "." ++ signature ∈ (parseCookies (some header)).map Prod.snd ∧
      platform.fromBase64Url signature = platform.hmac key v := by
  rw [CookiesHost.get, hheader] at h
  split at h
  · cases h
  · next raw hraw =>
      have hmem := readJar_mem hraw
      rw [if_neg (by rcases hsigned with rfl | ⟨rfl, -⟩ <;> decide)] at h
      split at h
      · next hempty =>
          rcases hsigned with rfl | ⟨-, hne⟩
          · cases h
          · exact absurd hempty hne
      · obtain ⟨key, hkey, signature, rfl, htag⟩ := unsign_some (Except.ok.inj h)
        exact ⟨key, hkey, signature, hmem, htag⟩

/-- A signed read returns a value that a call signed, under the name of that
call or any other. -/
theorem signed_read_issued (platform : CookiePlatform κ) (history : List (List (SetCall κ)))
    (hissued : ∀ calls ∈ history, ∀ call ∈ calls, Signed call.keys call.options.signed)
    (host : CookiesHost κ) (header name v : JsString) (hheader : host.cookieHeader = some header)
    (signed : Option Bool) (hsigned : Signed host.keys signed)
    (hunforgeable : Unforgeable platform (host.keys.getD []) (received platform history) header)
    (h : host.get platform name signed = .ok (some v)) :
    ∃ calls ∈ history, ∃ call ∈ calls, call.value = v ∧
      (∃ cookie ∈ received platform history, IssuedBy platform cookie call) ∧
      ∃ own, (call.keys.getD []).head? = some own ∧
        ∃ key ∈ host.keys.getD [], sign platform v own = sign platform v key := by
  obtain ⟨key, hkey, signature, hshown, htag⟩ := get_signed hheader hsigned h
  obtain ⟨cookie, hcookie, hcarries⟩ := hunforgeable key hkey v signature hshown htag
  obtain ⟨calls, hcalls, call, hcall, own, hown, hissuer⟩ := received_issued hissued hcookie
  have hsame : sign platform call.value own = sign platform v key := hissuer.unique hcarries
  obtain rfl := sign_inj hsame
  exact ⟨calls, hcalls, call, hcall, rfl, ⟨cookie, hcookie, own, hown, hissuer⟩, own, hown, key,
    hkey, hsame⟩

/-! ### A replay under another name -/

def adminTag : List UInt8 :=
  [111, 98, 251, 247, 86, 153, 52, 133, 134, 6, 238, 26, 13, 48, 242, 215,
    85, 12, 91, 22, 181, 181, 117, 197, 164, 181, 6, 134, 92, 229, 26, 9]

def adminPlatform : CookiePlatform JsString where
  hmac key value := if key = js "k" ∧ value = js "admin" then adminTag else []
  fromBase64Url text := if text = base64Url adminTag then adminTag else []
  lower text := text
  toUTCString _ := []
  quote text := text

def displayCall : SetCall JsString where
  keys := some [js "k"]
  requestSecure := false
  now := 0
  name := js "display"
  value := js "admin"
  options := {}

def adminText : JsString := js "admin.b2L791aZNIWGBu4aDTDy11UMWxa1tXXFpLUGhlzlGgk"

/-- A client that sends its cookie back under the name given. -/
def replayHost (name : JsString) : CookiesHost JsString where
  cookieHeader := some (name ++ js "=" ++ adminText)
  requestSecure := false
  keys := some [js "k"]
  now := 0

theorem replay_unforgeable (name : JsString)
    (hvalues : (parseCookies (replayHost name).cookieHeader).map Prod.snd = [adminText]) :
    Unforgeable adminPlatform [js "k"] (received adminPlatform [[displayCall]])
      (name ++ js "=" ++ adminText) := by
  intro key hkey value signature hshown htag
  obtain rfl := List.mem_singleton.mp hkey
  rw [show parseCookies (some (name ++ js "=" ++ adminText)) =
    parseCookies (replayHost name).cookieHeader from rfl, hvalues, List.mem_singleton,
    List.append_assoc] at hshown
  -- One dot in the text leaves one way to split it.
  have hcount := congrArg (List.count 46) hshown
  rw [List.count_append, List.count_append, show List.count 46 adminText = 1 by decide +kernel,
    show List.count 46 (js ".") = 1 by decide +kernel] at hcount
  have hdot : (46 : CodeUnit) ∉ value := List.count_eq_zero.mp (by omega)
  obtain ⟨rfl, -⟩ : value = js "admin" ∧ signature = adminText.drop 6 :=
    append_cons_inj_left hdot (by decide +kernel) hshown
  refine ⟨js "display=" ++ adminText ++ js "; Path=/", by decide +kernel, js "display", adminText,
    js "; Path=/", by decide +kernel, by decide +kernel, .inr rfl, by decide +kernel⟩

/-- The cookie sent back under its own name. -/
theorem signed_read_issued_display :
    ∃ calls ∈ [[displayCall]], ∃ call ∈ calls, call.value = js "admin" ∧
      (∃ cookie ∈ received adminPlatform [[displayCall]],
        IssuedBy adminPlatform cookie call) ∧
      ∃ own, (call.keys.getD []).head? = some own ∧
        ∃ key ∈ [js "k"], sign adminPlatform (js "admin") own =
          sign adminPlatform (js "admin") key :=
  signed_read_issued adminPlatform [[displayCall]]
    (fun calls hcalls call hcall => by
      obtain rfl := List.mem_singleton.mp hcalls
      obtain rfl := List.mem_singleton.mp hcall
      exact .inr ⟨rfl, by decide⟩)
    (replayHost (js "display")) (js "display=" ++ adminText) (js "display") (js "admin") rfl none
    (.inr ⟨rfl, by decide⟩) (replay_unforgeable (js "display") (by decide +kernel))
    (by decide +kernel)

/-- The one signed cookie was issued as "display" and is read as "role". -/
theorem signed_read_renamed :
    (∀ calls ∈ [[displayCall]], ∀ call ∈ calls, Signed call.keys call.options.signed) ∧
      Unforgeable adminPlatform [js "k"] (received adminPlatform [[displayCall]])
        (js "role=" ++ adminText) ∧
      (replayHost (js "role")).get adminPlatform (js "role") (some true) =
        .ok (some (js "admin")) ∧
      ¬∃ calls ∈ [[displayCall]], ∃ call ∈ calls, call.name = js "role" ∧
        call.value = js "admin" := by
  refine ⟨?_, replay_unforgeable (js "role") (by decide +kernel), by decide +kernel, ?_⟩
  · intro calls hcalls call hcall
    obtain rfl := List.mem_singleton.mp hcalls
    obtain rfl := List.mem_singleton.mp hcall
    exact .inr ⟨rfl, by decide⟩
  · rintro ⟨calls, hcalls, call, hcall, hname, -⟩
    obtain rfl := List.mem_singleton.mp hcalls
    obtain rfl := List.mem_singleton.mp hcall
    revert hname
    decide +kernel

end Keala.Plugins
