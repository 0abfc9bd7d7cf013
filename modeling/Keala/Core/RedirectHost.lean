import Keala.Core.Redirect

/-!
Where a redirect lands. The check of the location reads the url as it is given,
on http; a client reads the encoded location, on the protocol of its request.
-/

namespace Keala.Core

open Keala.Js Keala.Http

variable {hosts : HostParsers}

/-! ### Resolving texts by their first units -/

def requestUrl (protocol host : JsString) : JsString := protocol ++ js "://" ++ host ++ js "/"

def IsWebProtocol (protocol : JsString) : Prop := protocol = js "http" ∨ protocol = js "https"

theorem resolve_requestUrl {protocol : JsString} (h : IsWebProtocol protocol) (host : JsString) :
    resolve hosts none (requestUrl protocol host) =
      (authorityHost hosts protocol (cleanedEnd (js "//" ++ host ++ js "/"))).map
        (Url.mk protocol) := by
  have hsplit : requestUrl protocol host =
      (protocol ++ [58]) ++ (js "//" ++ host ++ js "/") := by
    simp [requestUrl, js]
  have hvisible : ∀ c ∈ protocol ++ [58], isC0OrSpace c = false := by
    apply visible_of_any
    rcases h with rfl | rfl <;> decide
  have hscheme : ∀ rest, splitScheme (protocol ++ 58 :: rest) = some (protocol, rest) := by
    intro rest
    rcases h with rfl | rfl <;> exact splitScheme_append rfl rfl rest
  have hlower : protocol.map lowerAscii = protocol := by
    rcases h with rfl | rfl <;> rfl
  have hfile : protocol ≠ js "file" := by
    rcases h with rfl | rfl <;> decide
  have hremote : isRemote protocol = true := by
    rcases h with rfl | rfl <;> rfl
  rw [hsplit, resolve, cleaned_append (by simp) hvisible, List.append_assoc, List.singleton_append,
    hscheme]
  dsimp only
  rw [hlower, if_neg hfile, if_pos hremote]

/-- Leading slashes are ignored. -/
theorem authorityHost_slashes {scheme text : JsString} {c d : CodeUnit}
    (h : (isSlash c && isSlash d) = true) :
    authorityHost hosts scheme (c :: d :: text) = authorityHost hosts scheme text := by
  obtain ⟨hc, hd⟩ := Bool.and_eq_true_iff.mp h
  rw [authorityHost, List.dropWhile_cons_of_pos hc, List.dropWhile_cons_of_pos hd]
  rfl

theorem resolveRelative_eq (base : Url) (text : JsString) :
    resolveRelative hosts base text =
      if twoSlashes text then (authorityHost hosts base.scheme text).map (Url.mk base.scheme)
      else some base := by
  match text with
  | [] => rfl
  | [c] => rfl
  | c :: d :: text =>
      rw [resolveRelative, twoSlashes]
      split
      · next h => rw [authorityHost_slashes h]
      · rfl

/-- A text with a scheme is resolved by what follows its ":". -/
def resolveAfter (hosts : HostParsers) (base : Url) (scheme rest : JsString) : Option Url :=
  if scheme = js "file" then (fileHost hosts rest).map (Url.mk scheme)
  else if isRemote scheme then
    if base.scheme = scheme ∧ twoSlashes rest = false then some base
    else (authorityHost hosts scheme rest).map (Url.mk scheme)
  else if startsWith rest (js "//") then
    (otherAuthority hosts (rest.drop 2)).map (Url.mk scheme)
  else some ⟨scheme, []⟩

theorem resolve_scheme {base : Url} {input word rest : JsString}
    (h : splitScheme (cleaned input) = some (word, rest)) :
    resolve hosts (some base) input = resolveAfter hosts base (word.map lowerAscii) rest := by
  rw [resolve, resolveAfter, h]
  dsimp only
  split
  · rfl
  · split
    · split
      · next heq =>
          rw [resolveRelative_eq, heq]
          cases twoSlashes rest <;> simp
      · next hne => simp [hne]
    · rfl

theorem resolve_schemeless {base : Url} {input : JsString}
    (h : splitScheme (cleaned input) = none) :
    resolve hosts (some base) input = resolveRelative hosts base (cleaned input) := by
  rw [resolve, h]
  rfl

/-! ### The client's reading -/

/-- Neither "//" nor a scheme in front: the location stays on the host. -/
def Harmless (text : JsString) : Prop :=
  startsWith text (js "//") = false ∧ splitScheme text = none

theorem resolve_harmless {text : JsString} (h : Harmless text) (own : Url) :
    resolve hosts (some own) (encodeUrlValue text) = some own := by
  have hscheme : splitScheme (cleaned (encodeUrlValue text)) = none := by
    rw [cleaned_encode, splitScheme_encode, h.2]
    rfl
  rw [resolve_schemeless hscheme, cleaned_encode, resolveRelative_eq, twoSlashes_encode, h.1]
  rfl

/-- "//" in front: the location names an authority of its own. -/
theorem resolve_slashes (own : Url) (rest : JsString) :
    resolve hosts (some own) (encodeUrlValue (js "//" ++ rest)) =
      (authorityHost hosts own.scheme (encodeUrlValue rest)).map (Url.mk own.scheme) := by
  have hencoded : encodeUrlValue (js "//" ++ rest) = js "//" ++ encodeUrlValue rest :=
    encodeUrlValue_append (List.all_eq_true.mp (by decide)) rest
  have hscheme : splitScheme (cleaned (encodeUrlValue (js "//" ++ rest))) = none := by
    rw [cleaned_encode, hencoded]
    rfl
  rw [resolve_schemeless hscheme, cleaned_encode, hencoded, resolveRelative_eq]
  have htwo : twoSlashes (js "//" ++ encodeUrlValue rest) = true := rfl
  have hcut : authorityHost hosts own.scheme (js "//" ++ encodeUrlValue rest) =
      authorityHost hosts own.scheme (encodeUrlValue rest) :=
    authorityHost_slashes (c := slash) (d := slash) rfl
  rw [if_pos htwo, hcut]

/-- A scheme in front. -/
theorem resolve_word {text word rest : JsString} (htext : splitScheme text = some (word, rest))
    (own : Url) :
    resolve hosts (some own) (encodeUrlValue text) =
      resolveAfter hosts own (word.map lowerAscii) (encodeUrlValue rest) := by
  apply resolve_scheme
  rw [cleaned_encode, splitScheme_encode, htext]
  rfl

/-- Without "//" a location lands on another host only by a scheme that has one
and that is not the one of the request. -/
theorem resolve_word_host {text word rest : JsString} {own landed : Url}
    (htext : splitScheme text = some (word, rest)) (hrest : startsWith rest (js "//") = false)
    (h : resolve hosts (some own) (encodeUrlValue text) = some landed) :
    (landed.host = own.host ∨ landed.host = []) ∨
      isRemote (word.map lowerAscii) = true ∧ word.map lowerAscii ≠ own.scheme ∧
        authorityHost hosts (word.map lowerAscii) (encodeUrlValue rest) = some landed.host := by
  have htwo : twoSlashes (encodeUrlValue rest) = false := by rw [twoSlashes_encode, hrest]
  have hslashes : startsWith (encodeUrlValue rest) (js "//") = false := by
    rw [startsWith_slashes_encode, hrest]
  rw [resolve_word htext, resolveAfter] at h
  split at h
  · -- The encoded rest of a file URL has no second slash.
    have hfile : fileHost hosts (encodeUrlValue rest) = some [] := by
      generalize encodeUrlValue rest = out at htwo
      match out with
      | [] => rfl
      | [c] => rfl
      | c :: d :: out =>
          rw [twoSlashes] at htwo
          rw [fileHost, htwo]
          rfl
    rw [hfile] at h
    obtain rfl := Option.some.inj h
    exact .inl (.inr rfl)
  · split at h
    · next hremote =>
        split at h
        · obtain rfl := Option.some.inj h
          exact .inl (.inl rfl)
        · next hother =>
            obtain ⟨host, hhost, rfl⟩ := Option.map_eq_some_iff.mp h
            refine .inr ⟨hremote, ?_, hhost⟩
            rintro heq
            exact hother ⟨heq.symm, htwo⟩
    · rw [hslashes] at h
      obtain rfl := Option.some.inj h
      exact .inl (.inr rfl)

/-! ### The reading of the check -/

/-- The host that the check finds behind "//" or a scheme with a remote host,
in a text that is not encoded: on http, and with backslashes for slashes. -/
def checkedHost (hosts : HostParsers) (host scheme rest : JsString) : Option JsString :=
  if scheme = js "http" ∧ twoSlashes (cleanedEnd rest) = false then
    (resolve hosts none (requestUrl (js "http") host)).map Url.host
  else authorityHost hosts scheme (cleanedEnd rest)

theorem map_host_mk (scheme : JsString) (found : Option JsString) :
    (found.map (Url.mk scheme)).map Url.host = found := by
  cases found <;> rfl

theorem resolve_check_slashes {base : Url} (hbase : base.scheme = js "http") (rest : JsString) :
    (resolve hosts (some base) (js "//" ++ rest)).map Url.host =
      authorityHost hosts (js "http") (cleanedEnd rest) := by
  have hclean : cleaned (js "//" ++ rest) = js "//" ++ cleanedEnd rest :=
    cleaned_append (by decide) (visible_of_any (by decide)) rest
  have hscheme : splitScheme (cleaned (js "//" ++ rest)) = none := by rw [hclean]; rfl
  have htwo : twoSlashes (js "//" ++ cleanedEnd rest) = true := rfl
  have hcut : authorityHost hosts base.scheme (js "//" ++ cleanedEnd rest) =
      authorityHost hosts base.scheme (cleanedEnd rest) :=
    authorityHost_slashes (c := slash) (d := slash) rfl
  rw [resolve_schemeless hscheme, hclean, resolveRelative_eq, if_pos htwo, hcut, hbase,
    map_host_mk]

theorem visible_of_plain {c : CodeUnit} (h : isPlain c = true) : isC0OrSpace c = false := by
  simp only [isPlain, Bool.and_eq_true, decide_eq_true_eq, UInt16.le_iff_toNat_le] at h
  simp only [isC0OrSpace, decide_eq_false_iff_not, UInt16.le_iff_toNat_le, not_le]
  exact h.1.1

theorem splitScheme_cleaned {text word rest : JsString}
    (h : splitScheme text = some (word, rest)) :
    splitScheme (cleaned text) = some (word, cleanedEnd rest) := by
  obtain ⟨hhead, hall, rfl⟩ := splitScheme_eq_some h
  have hvisible : ∀ c ∈ word ++ [58], isC0OrSpace c = false := by
    intro c hc
    rcases List.mem_append.mp hc with hc | hc
    · have hkept := isKept_of_schemeChar (List.all_eq_true.mp hall c hc)
      exact visible_of_plain (isPlain_of_kept hkept)
    · rw [List.mem_singleton.mp hc]
      rfl
  rw [← List.singleton_append, ← List.append_assoc, cleaned_append (by simp) hvisible,
    List.append_assoc, List.singleton_append, splitScheme_append hhead hall]

theorem not_file_of_remote {scheme : JsString} (h : isRemote scheme = true) :
    scheme ≠ js "file" := by
  rintro rfl
  revert h
  decide

theorem resolve_check_word {base : Url} {host text word rest : JsString}
    (hbase : resolve hosts none (requestUrl (js "http") host) = some base)
    (hscheme : base.scheme = js "http") (htext : splitScheme text = some (word, rest))
    (hremote : isRemote (word.map lowerAscii) = true) :
    (resolve hosts (some base) text).map Url.host =
      checkedHost hosts host (word.map lowerAscii) rest := by
  rw [resolve_scheme (splitScheme_cleaned htext), resolveAfter,
    if_neg (not_file_of_remote hremote), if_pos hremote, checkedHost, hscheme, hbase]
  by_cases hown : word.map lowerAscii = js "http" ∧ twoSlashes (cleanedEnd rest) = false
  · rw [if_pos ⟨hown.1.symm, hown.2⟩, if_pos hown]
  · rw [if_neg fun h => hown ⟨h.1.symm, h.2⟩, if_neg hown, map_host_mk]

/-! ### The location that is written -/

/-- What the check lets through as it is: nothing valid, or the host itself. -/
def Passes (host : JsString) (found : Option JsString) : Prop := ∀ h, found = some h → h = host

theorem word_harmless {word out : JsString} (hhead : word.head?.any isAlpha = true)
    (hall : word.all isSchemeChar = true) : Harmless (word ++ (js "%3A" ++ out)) := by
  have hword := List.all_eq_true.mp hall
  have hdrop : (word ++ (js "%3A" ++ out)).dropWhile isSchemeChar = js "%3A" ++ out := by
    rw [List.dropWhile_append_of_pos hword]
    rfl
  cases word with
  | nil => cases hhead
  | cons c word =>
      have hc : isAlpha c = true := hhead
      refine ⟨?_, ?_⟩
      · have hne : (slash == c) = false := by
          rw [beq_eq_false_iff_ne]
          rintro rfl
          revert hc
          decide
        have hfirst : startsWith (c :: word ++ (js "%3A" ++ out)) (js "//") =
            (slash == c && startsWith (word ++ (js "%3A" ++ out)) (js "/")) := rfl
        rw [hfirst, hne, Bool.false_and]
      · rw [splitScheme, hdrop]
        have hhead : (c :: word ++ (js "%3A" ++ out)).head?.any isAlpha = true := hc
        rw [if_pos hhead]
        rfl

theorem replaceSlashes_word {word : JsString} (hall : word.all isSchemeChar = true)
    (out : JsString) : replaceSlashes (word ++ out) = word ++ replaceSlashes out := by
  induction word with
  | nil => rfl
  | cons c word ih =>
      rw [List.all_cons, Bool.and_eq_true] at hall
      have hkept := hall.1
      have hcolon : c ≠ 58 := by
        rintro rfl
        revert hkept
        decide
      have hslash : c ≠ slash := by
        rintro rfl
        revert hkept
        decide
      rw [List.cons_append, replaceSlashes, List.flatMap_cons, if_neg hcolon, if_neg hslash]
      exact congrArg (c :: ·) (ih hall.2)

/-- A location that the check refuses is made harmless. -/
theorem neutralize_refused {base resolved : Url} {host raw : JsString} (hhost : host ≠ [])
    (hbase : resolve hosts none (requestUrl (js "http") host) = some base)
    (hresolved : resolve hosts (some base) raw = some resolved) (hne : resolved.host ≠ [])
    (hforeign : resolved.host ≠ host) :
    Harmless (neutralizeForeignAuthority hosts host raw) := by
  have hcheck : (resolve hosts none (js "http://" ++ host ++ js "/")).bind (fun base =>
      resolve hosts (some base) raw) = some resolved := by
    have hurl : js "http://" ++ host ++ js "/" = requestUrl (js "http") host := rfl
    rw [hurl, hbase]
    exact hresolved
  rw [neutralizeForeignAuthority, if_neg hhost, hcheck]
  dsimp only
  rw [if_neg (by simp [hne, hforeign])]
  split
  · exact ⟨rfl, rfl⟩
  · next hslashes =>
      split
      · next hscheme => exact ⟨by simpa using hslashes, hscheme⟩
      · next word rest hscheme =>
          obtain ⟨hhead, hall, -⟩ := splitScheme_eq_some hscheme
          rw [List.append_assoc, replaceSlashes_word hall, List.append_assoc]
          have hcolon : ∀ slashes, replaceSlashes (js ":" ++ slashes) =
              js "%3A" ++ replaceSlashes slashes := fun _ => rfl
          rw [hcolon, List.append_assoc]
          exact word_harmless hhead hall

theorem neutralize_passed {base : Url} {host raw : JsString}
    (hbase : resolve hosts none (requestUrl (js "http") host) = some base)
    (h : ∀ found, (resolve hosts (some base) raw).map Url.host = some found →
      found = [] ∨ found = host) :
    neutralizeForeignAuthority hosts host raw = raw := by
  have hcheck : (resolve hosts none (js "http://" ++ host ++ js "/")).bind (fun base =>
      resolve hosts (some base) raw) = resolve hosts (some base) raw := by
    have hurl : js "http://" ++ host ++ js "/" = requestUrl (js "http") host := rfl
    rw [hurl, hbase]
    rfl
  rw [neutralizeForeignAuthority, hcheck]
  split
  · rfl
  · split
    · rfl
    · next resolved hresolved =>
        rw [hresolved] at h
        rw [if_pos (h _ rfl)]

/-! ### Where a redirect lands -/

/-- The url names an authority of its own, behind "//" or behind a scheme that
is not the one of the request. The client reads a foreign host in it as it is
encoded; the check reads the host of the request in it, or nothing valid. -/
inductive Escapes (hosts : HostParsers) (own : Url) (host : JsString) : JsString → Prop
  | slashes {rest foreign : JsString} :
      authorityHost hosts own.scheme (encodeUrlValue rest) = some foreign → foreign ≠ own.host →
      Passes host (authorityHost hosts (js "http") (cleanedEnd rest)) →
      Escapes hosts own host (js "//" ++ rest)
  | scheme {url word rest foreign : JsString} :
      splitScheme url = some (word, rest) → isRemote (word.map lowerAscii) = true →
      word.map lowerAscii ≠ own.scheme →
      authorityHost hosts (word.map lowerAscii) (encodeUrlValue rest) = some foreign →
      foreign ≠ own.host → Passes host (checkedHost hosts host (word.map lowerAscii) rest) →
      Escapes hosts own host url

/-- Every place where the location lands is on the host, or has none. -/
def StaysHome (hosts : HostParsers) (own : Url) (location : JsString) : Prop :=
  ∀ landed, resolve hosts (some own) location = some landed →
    landed.host = own.host ∨ landed.host = []

theorem staysHome_of_harmless {text : JsString} (h : Harmless text) (own : Url) :
    StaysHome hosts own (encodeUrlValue text) := by
  intro landed hlanded
  rw [resolve_harmless h] at hlanded
  obtain rfl := Option.some.inj hlanded
  exact .inl rfl

/-- What the host of a request gives on its protocol and on http. -/
theorem request_hosts {protocol host : JsString} {own : Url} (hprotocol : IsWebProtocol protocol)
    (hown : resolve hosts none (requestUrl protocol host) = some own) :
    host ≠ [] ∧ own.scheme = protocol ∧ ∃ base, base.scheme = js "http" ∧
      resolve hosts none (requestUrl (js "http") host) = some base := by
  rw [resolve_requestUrl hprotocol] at hown
  obtain ⟨found, hfound, rfl⟩ := Option.map_eq_some_iff.mp hown
  refine ⟨?_, rfl, ?_⟩
  · rintro rfl
    have hempty : authorityHost hosts protocol (cleanedEnd (js "//" ++ [] ++ js "/")) = none := rfl
    rw [hempty] at hfound
    cases hfound
  · have hsome := authorityHost_isSome hosts (js "http") protocol
      (cleanedEnd (js "//" ++ host ++ js "/"))
    rw [hfound] at hsome
    obtain ⟨name, hname⟩ := Option.isSome_iff_exists.mp hsome
    refine ⟨⟨js "http", name⟩, rfl, ?_⟩
    rw [resolve_requestUrl (.inl rfl), hname]
    rfl

theorem checkedHost_ne_nil {host scheme rest : JsString} :
    checkedHost hosts host scheme rest ≠ some [] := by
  rw [checkedHost]
  split
  · rw [resolve_requestUrl (.inl rfl), map_host_mk]
    exact authorityHost_ne_nil
  · exact authorityHost_ne_nil

/-- A relative-looking url stays on the host unless it escapes. -/
theorem neutralize_staysHome_iff {protocol host url : JsString} {own : Url}
    (hprotocol : IsWebProtocol protocol)
    (hown : resolve hosts none (requestUrl protocol host) = some own)
    (hurl : isAbsolute url = false) :
    StaysHome hosts own (encodeUrlValue (neutralizeForeignAuthority hosts host url)) ↔
      ¬Escapes hosts own host url := by
  obtain ⟨hhost, hscheme, base, hbase, hresolved⟩ := request_hosts hprotocol hown
  constructor
  · intro hstays hescapes
    cases hescapes with
    | @slashes rest foreign hforeign hne hpasses =>
        have hraw : neutralizeForeignAuthority hosts host (js "//" ++ rest) = js "//" ++ rest := by
          apply neutralize_passed hresolved
          intro found hfound
          rw [resolve_check_slashes hbase] at hfound
          exact .inr (hpasses found hfound)
        rw [hraw] at hstays
        rcases hstays ⟨own.scheme, foreign⟩ (by rw [resolve_slashes, hforeign]; rfl) with h | h
        · exact hne h
        · exact authorityHost_ne_nil (hforeign.trans (congrArg some h))
    | @scheme _ word rest foreign htext hremote hother hforeign hne hpasses =>
        have hraw : neutralizeForeignAuthority hosts host url = url := by
          apply neutralize_passed hresolved
          intro found hfound
          rw [resolve_check_word hresolved hbase htext hremote] at hfound
          exact .inr (hpasses found hfound)
        rw [hraw] at hstays
        have hlanded : resolve hosts (some own) (encodeUrlValue url) =
            some ⟨word.map lowerAscii, foreign⟩ := by
          rw [resolve_word htext, resolveAfter, if_neg (not_file_of_remote hremote),
            if_pos hremote, if_neg fun h => hother h.1.symm, hforeign]
          rfl
        rcases hstays _ hlanded with h | h
        · exact hne h
        · exact authorityHost_ne_nil (hforeign.trans (congrArg some h))
  · intro hkept
    -- Refused by the check, the location is harmless; let through, it is the url.
    by_cases hcheck : ∀ found, (resolve hosts (some base) url).map Url.host = some found →
        found = [] ∨ found = host
    · rw [neutralize_passed hresolved hcheck]
      intro landed hlanded
      by_cases hslashes : startsWith url (js "//") = true
      · obtain ⟨rest, rfl⟩ := List.isPrefixOf_iff_prefix.mp hslashes
        rw [resolve_slashes] at hlanded
        obtain ⟨foreign, hforeign, rfl⟩ := Option.map_eq_some_iff.mp hlanded
        refine .inl (by_contra fun hne => hkept (.slashes hforeign hne ?_))
        intro found hfound
        rw [resolve_check_slashes hbase] at hcheck
        rcases hcheck found hfound with rfl | heq
        · exact absurd hfound authorityHost_ne_nil
        · exact heq
      · cases htext : splitScheme url with
        | none =>
            have hharmless : Harmless url := ⟨Bool.eq_false_iff.mpr hslashes, htext⟩
            exact staysHome_of_harmless hharmless own landed hlanded
        | some parts =>
            obtain ⟨word, rest⟩ := parts
            have hrest : startsWith rest (js "//") = false := by
              rw [isAbsolute, htext] at hurl
              exact hurl
            rcases resolve_word_host htext hrest hlanded with hhome | ⟨hremote, hother, hforeign⟩
            · exact hhome
            · refine .inl (by_contra fun hne =>
                hkept (.scheme htext hremote hother hforeign hne ?_))
              intro found hfound
              rw [resolve_check_word hresolved hbase htext hremote] at hcheck
              rcases hcheck found hfound with rfl | heq
              · exact absurd hfound checkedHost_ne_nil
              · exact heq
    · obtain ⟨found, hfound, hne⟩ : ∃ found,
          (resolve hosts (some base) url).map Url.host = some found ∧
            ¬(found = [] ∨ found = host) := by
        simpa using hcheck
      obtain ⟨resolved, hurl, rfl⟩ := Option.map_eq_some_iff.mp hfound
      rw [not_or] at hne
      exact staysHome_of_harmless
        (neutralize_refused hhost hresolved hurl hne.1 hne.2) own

theorem redirectTarget_relative {platform : RedirectPlatform} {host url : JsString}
    (hurl : isAbsolute url = false) :
    redirectTarget platform host url = neutralizeForeignAuthority platform.hosts host url := by
  have hhttp : isHttpAbsolute url = false := by
    rw [isHttpAbsolute]
    rw [isAbsolute] at hurl
    cases htext : splitScheme url with
    | none => rfl
    | some parts =>
        rw [htext] at hurl
        have hrest : startsWith parts.2 (js "//") = false := hurl
        rw [Option.any_some, hrest, Bool.false_and]
  rw [redirectTarget, hhttp, hurl]
  rfl

/-- A redirect writes one location. -/
theorem redirect_location {β τ : Type} {platform : RedirectPlatform} {runtime : Runtime β}
    {host url : JsString} {code : Option ℚ} {res : Response β}
    (h : (redirect platform runtime host url code : Except (Thrown τ) (Response β)) = .ok res) :
    res.headers.values (js "location") = [encodeUrlValue (redirectTarget platform host url)] := by
  have hsend : ∀ status, (redirect.send platform runtime host url status :
      Except (Thrown τ) (Response β)) = .ok res →
      res.headers.values (js "location") = [encodeUrlValue (redirectTarget platform host url)] := by
    intro status h
    rw [redirect.send, construct] at h
    split at h
    · cases h
    · split at h
      · cases h
      · obtain rfl := Except.ok.inj h
        rfl
  cases code with
  | none => exact hsend _ h
  | some code =>
      rw [redirect] at h
      split at h
      · cases h
      · exact hsend _ h

/-- A redirect to a relative-looking url stays on the host unless it escapes. -/
theorem redirect_staysHome_iff {β τ : Type} (platform : RedirectPlatform) (runtime : Runtime β)
    (protocol host url : JsString) (code : Option ℚ) (own : Url) (res : Response β)
    (hprotocol : IsWebProtocol protocol)
    (hown : resolve platform.hosts none (requestUrl protocol host) = some own)
    (hurl : isAbsolute url = false)
    (h : (redirect platform runtime host url code : Except (Thrown τ) (Response β)) = .ok res) :
    (∀ location ∈ res.headers.values (js "location"), StaysHome platform.hosts own location) ↔
      ¬Escapes platform.hosts own host url := by
  rw [redirect_location h, redirectTarget_relative hurl,
    ← neutralize_staysHome_iff hprotocol hown hurl]
  simp

/-! ### Runs -/

def nameHosts : HostParsers where
  domain text :=
    if text ≠ [] ∧ text.all fun c => isSchemeChar c && c ≠ 43 then some (text.map lowerAscii)
    else none
  other text := some text
  domain_ne_nil text := by
    split
    · next h => exact fun heq => h.1 (List.map_eq_nil_iff.mp (Option.some.inj heq))
    · exact nofun

def namePlatform : RedirectPlatform where
  hosts := nameHosts
  href text := some text
  number _ := []

def nameRuntime : Runtime JsString := ⟨id, true⟩

/-- A target behind "//" is rewritten to a path, which stays on the host. -/
theorem redirect_staysHome_path :
    ∃ res, (redirect namePlatform nameRuntime (js "good.test") (js "//evil.test/x") none :
        Except (Thrown Unit) (Response JsString)) = .ok res ∧
      res.headers.values (js "location") = [js "/%2Fevil.test/x"] ∧
      ∀ location ∈ res.headers.values (js "location"),
        StaysHome nameHosts ⟨js "https", js "good.test"⟩ location := by
  refine ⟨_, rfl, by decide +kernel, ?_⟩
  apply (redirect_staysHome_iff namePlatform nameRuntime (js "https") (js "good.test")
    (js "//evil.test/x") none ⟨js "https", js "good.test"⟩ _ (.inr rfl) (by decide +kernel) rfl
    (rfl : (_ : Except (Thrown Unit) (Response JsString)) = _)).mpr
  intro hescapes
  generalize hurl : js "//evil.test/x" = url at hescapes
  cases hescapes with
  | @slashes rest foreign _ _ hpasses =>
      have hcons : js "//" ++ js "evil.test/x" = js "//" ++ rest := hurl
      have hrest : js "evil.test/x" = rest := List.append_cancel_left hcons
      rw [← hrest] at hpasses
      have hchecked : authorityHost nameHosts (js "http") (cleanedEnd (js "evil.test/x")) =
          some (js "evil.test") := by
        decide +kernel
      exact absurd (hpasses _ hchecked) (by decide +kernel)
  | scheme htext =>
      rw [← hurl] at htext
      cases htext

/-- On https, an "http:" without "//" leads away from the host. -/
theorem redirect_staysHome_http_word :
    isAbsolute (js "http:/evil.test/") = false ∧
    resolve nameHosts none (requestUrl (js "https") (js "good.test")) =
      some ⟨js "https", js "good.test"⟩ ∧
    ∃ res, (redirect namePlatform nameRuntime (js "good.test") (js "http:/evil.test/") none :
        Except (Thrown Unit) (Response JsString)) = .ok res ∧
      ¬∀ location ∈ res.headers.values (js "location"),
        StaysHome nameHosts ⟨js "https", js "good.test"⟩ location := by
  refine ⟨by decide +kernel, by decide +kernel, _, rfl, ?_⟩
  intro hstays
  have hlanded := hstays (js "http:/evil.test/") (by decide +kernel)
    ⟨js "http", js "evil.test"⟩ (by decide +kernel)
  revert hlanded
  decide +kernel

/-- On either protocol, so does a backslash in front of an "@". -/
example : neutralizeForeignAuthority nameHosts (js "good.test") (js "//good.test\\@evil.test") =
      js "//good.test\\@evil.test" ∧
    resolve nameHosts (some ⟨js "http", js "good.test"⟩)
      (encodeUrlValue (js "//good.test\\@evil.test")) = some ⟨js "http", js "evil.test"⟩ := by
  decide +kernel

end Keala.Core
