import Keala.Http.Target

/-!
The host whitelist and the authority that `c.host` reads, two parsers of one
request. The source's `trusted-hosts.ts`, `computeHost` of `context/request.ts`
and the request sources they read.
-/

namespace Keala.Core

open Keala.Js

/-- The text functions of the runtime that both parsers call, with what they
rely on: an "@" is a lowercase letter already. -/
structure TextPlatform where
  /-- `toLowerCase`. -/
  lower : JsString → JsString
  /-- `new URL("http://" + host).hostname`, `none` where the constructor throws. -/
  urlHostname : JsString → Option JsString
  lower_nil : lower [] = []
  mem_lower : ∀ {text : JsString}, (64 : CodeUnit) ∈ text → (64 : CodeUnit) ∈ lower text

/-! ### Request sources -/

/-- The headers of an incoming message by their lowercase names. -/
structure NodeRequestSource where
  url : JsString
  headers : JsString → Option JsString
  hostname : JsString
  port : ℕ

/-- Origin-form and absolute-form targets; any other is refused. -/
def NodeRequestSource.new (target : JsString) (headers : JsString → Option JsString)
    (hostname : JsString) (port : ℕ) : Option NodeRequestSource :=
  let requestTarget := if target = js "*" then js "/" else target
  if requestTarget.head? = some slash then some ⟨requestTarget, headers, hostname, port⟩
  else if startsWith requestTarget (js "http://") || startsWith requestTarget (js "https://") then
    if (92 : CodeUnit) ∈ requestTarget then none
    else some ⟨requestTarget, headers, hostname, port⟩
  else none

/-- `authorityOf` of the Node source: `host:port`, IPv6 addresses bracketed. -/
def boundAuthority (host : JsString) (port : ℕ) : JsString :=
  if (58 : CodeUnit) ∈ host ∧ host.head? ≠ some 91 then
    js "[" ++ host ++ js "]:" ++ js (toString port)
  else host ++ js ":" ++ js (toString port)

def NodeRequestSource.absoluteUrl (source : NodeRequestSource) : JsString :=
  if source.url.head? ≠ some slash then source.url
  else
    js "http://" ++ (source.headers (js "host")).getD (boundAuthority source.hostname source.port)
      ++ source.url

inductive RequestSource
  | fetch (url : JsString) (header : JsString → Option JsString)
  | native (source : NodeRequestSource)

def sourceUrl : RequestSource → JsString
  | .fetch url _ => url
  | .native source => source.url

def sourceAbsoluteUrl : RequestSource → JsString
  | .fetch url _ => url
  | .native source => source.absoluteUrl

def sourceHeader : RequestSource → JsString → Option JsString
  | .fetch _ header => header
  | .native source => source.headers

/-! ### The whitelist -/

def isForeign (c : CodeUnit) : Bool :=
  isSpace c || c = 47 || c = 64 || c = 92 || c = 37 || c = 63 || c = 35

def withoutPort (host : JsString) : JsString :=
  let stop :=
    if startsWith host (js "[") then some ((indexOf host 93).elim 0 (· + 1)) else indexOf host 58
  match stop with
  | none => host
  | some stop => host.take stop

def stripHostPort (platform : TextPlatform) (host : JsString) : Option JsString :=
  if host = [] ∨ host.getLast? = some 58 ∨ host.any isForeign then none
  else
    match platform.urlHostname host with
    | none => none
    | some name => if name = [] then none else some (withoutPort host)

def authorityPart (rest : JsString) : JsString := rest.takeWhile fun c => !Http.endsAuthorityPart c

def urlAuthority (url : JsString) : JsString :=
  match indexOfText (js "://") url with
  | none => []
  | some scheme => authorityPart (url.drop (scheme + 3))

/-- Single-label `*.suffix` wildcards and exact names. -/
def matchesEntry (entry authority : JsString) : Bool :=
  if startsWith entry (js "*.") then
    endsWith authority (entry.drop 1) && decide (entry.length - 1 < authority.length) &&
      !(authority.take (authority.length - (entry.length - 1))).contains 46
  else decide (entry = authority)

def listed (platform : TextPlatform) (entries : List JsString) (host : JsString) : Bool :=
  match stripHostPort platform (platform.lower host) with
  | none => false
  | some authority => entries.any fun entry => matchesEntry entry authority

def firstForwarded (forwarded : JsString) : JsString :=
  trim ((split 44 forwarded).headD [])

/-- `null` (here `none`) admits everything. -/
def compileTrustedHosts (platform : TextPlatform) (trustedHosts : Option (List JsString)) :
    Option (RequestSource → Bool) :=
  match trustedHosts with
  | none | some [] => none
  | some hosts =>
      let entries := hosts.map platform.lower
      some fun request =>
        let authority :=
          (sourceHeader request (js "host")).getD (urlAuthority (sourceUrl request))
        let forwarded := (sourceHeader request (js "x-forwarded-host")).getD []
        (forwarded = [] || listed platform entries (firstForwarded forwarded)) &&
          listed platform entries authority

/-! ### `c.host` -/

def stripUserinfo (value : JsString) : JsString :=
  match lastIndexOf value 64 with
  | none => value
  | some found => value.drop (found + 1)

def authorityOf (url : JsString) : JsString := stripUserinfo (urlAuthority url)

def requestHeader (request : RequestSource) (name : JsString) : JsString :=
  (sourceHeader request name).getD []

/-- The first entry of a chained `X-Forwarded-Host`, read only behind a proxy. -/
def forwardedHost (request : RequestSource) : JsString :=
  stripUserinfo (firstForwarded (requestHeader request (js "x-forwarded-host")))

def computeHost (proxy : Bool) (request : RequestSource) : JsString :=
  if proxy = true ∧ forwardedHost request ≠ [] then forwardedHost request
  else if stripUserinfo (requestHeader request (js "host")) ≠ [] then
    stripUserinfo (requestHeader request (js "host"))
  else authorityOf (sourceAbsoluteUrl request)

/-! ### What the list trusts -/

/-- An exact name, or one label in front of the suffix of a wildcard. -/
inductive Covers : JsString → JsString → Prop
  | exact {name : JsString} : startsWith name (js "*.") = false → Covers name name
  | wildcard {suffix label : JsString} : label ≠ [] → (46 : CodeUnit) ∉ label →
      Covers (js "*." ++ suffix) (label ++ js "." ++ suffix)

def Trusted (platform : TextPlatform) (hosts : List JsString) (host : JsString) : Prop :=
  ∃ entry ∈ hosts, Covers (platform.lower entry) (withoutPort (platform.lower host))

theorem matchesEntry_iff {entry authority : JsString} :
    matchesEntry entry authority = true ↔ Covers entry authority := by
  constructor
  · intro h
    rw [matchesEntry] at h
    split at h
    · next hwild =>
        obtain ⟨suffix, rfl⟩ := List.isPrefixOf_iff_prefix.mp hwild
        simp only [Bool.and_eq_true, decide_eq_true_eq, Bool.not_eq_true',
          List.contains_eq_mem, decide_eq_false_iff_not] at h
        obtain ⟨⟨hends, hlen⟩, hlabel⟩ := h
        obtain ⟨label, rfl⟩ := List.isSuffixOf_iff_suffix.mp hends
        have hcut : (label ++ (js "*." ++ suffix).drop 1).length -
            ((js "*." ++ suffix).length - 1) = label.length := by
          simp [js]
        rw [hcut, List.take_left] at hlabel
        have hne : label ≠ [] := by
          rintro rfl
          simp [js] at hlen
        have hdrop : (js "*." ++ suffix).drop 1 = js "." ++ suffix := rfl
        rw [hdrop, ← List.append_assoc]
        exact .wildcard hne hlabel
    · next hexact =>
        obtain rfl := of_decide_eq_true h
        exact .exact (by simpa using hexact)
  · intro h
    cases h with
    | exact hexact => simp [matchesEntry, hexact]
    | wildcard hne hlabel =>
        next suffix label =>
        have hwild : startsWith (js "*." ++ suffix) (js "*.") = true :=
          List.isPrefixOf_iff_prefix.mpr ⟨suffix, rfl⟩
        have hdrop : (js "*." ++ suffix).drop 1 = js "." ++ suffix := rfl
        have hpos := List.length_pos_of_ne_nil hne
        have hcut : (label ++ js "." ++ suffix).length -
            ((js "*." ++ suffix).length - 1) = label.length := by
          simp [js]
        rw [matchesEntry, if_pos hwild, hcut, hdrop, List.append_assoc, List.take_left]
        simp only [Bool.and_eq_true, decide_eq_true_eq, Bool.not_eq_true',
          List.contains_eq_mem, decide_eq_false_iff_not]
        refine ⟨⟨List.isSuffixOf_iff_suffix.mpr ⟨label, rfl⟩, ?_⟩, hlabel⟩
        simp [js]
        omega

/-- No "@" gets past the check of an authority, nor does an empty one. -/
theorem stripHostPort_some {platform : TextPlatform} {host authority : JsString}
    (h : stripHostPort platform host = some authority) :
    host ≠ [] ∧ (64 : CodeUnit) ∉ host ∧ authority = withoutPort host := by
  rw [stripHostPort] at h
  split at h
  · cases h
  · next hwell =>
      simp only [not_or, List.any_eq_true, not_exists, not_and] at hwell
      have hat : (64 : CodeUnit) ∉ host := fun hmem => hwell.2.2 64 hmem rfl
      split at h
      · cases h
      · split at h
        · cases h
        · exact ⟨hwell.1, hat, (Option.some.inj h).symm⟩

theorem stripUserinfo_of_not_mem {value : JsString} (h : (64 : CodeUnit) ∉ value) :
    stripUserinfo value = value := by
  have hnone : lastIndexOf value 64 = none := by
    rw [lastIndexOf, Option.map_eq_none_iff, List.findIdx?_eq_none_iff]
    intro c hc
    have : c ≠ 64 := by
      rintro rfl
      exact h (List.mem_reverse.mp hc)
    simpa using this
  rw [stripUserinfo, hnone]

/-- An authority that passes the check is on the list and is read whole. -/
theorem listed_spec {platform : TextPlatform} {hosts : List JsString} {host : JsString}
    (h : listed platform (hosts.map platform.lower) host = true) :
    host ≠ [] ∧ stripUserinfo host = host ∧ Trusted platform hosts host := by
  rw [listed] at h
  split at h
  · cases h
  · next authority hstrip =>
      obtain ⟨hne, hat, rfl⟩ := stripHostPort_some hstrip
      obtain ⟨_, hmem, hmatch⟩ := List.any_eq_true.mp h
      obtain ⟨entry, hentry, rfl⟩ := List.mem_map.mp hmem
      refine ⟨?_, ?_, entry, hentry, matchesEntry_iff.mp hmatch⟩
      · rintro rfl
        exact hne platform.lower_nil
      · exact stripUserinfo_of_not_mem fun hmem => hat (platform.mem_lower hmem)

/-! ### The two readings of one request -/

/-- The authority of an origin-form URL is that of the bound address. -/
theorem authorityOf_bound {bound url : JsString} (h : url.head? = some slash) :
    authorityOf (js "http://" ++ bound ++ url) = stripUserinfo (authorityPart bound) := by
  have hscheme : indexOfText (js "://") (js "http://" ++ (bound ++ url)) = some 4 := rfl
  have hrest : (js "http://" ++ (bound ++ url)).drop 7 = bound ++ url := rfl
  obtain ⟨rest, rfl⟩ := List.head?_eq_some_iff.mp h
  have hstop : (slash :: rest).takeWhile (fun c => !Http.endsAuthorityPart c) = [] := rfl
  rw [authorityOf, urlAuthority, List.append_assoc, hscheme]
  dsimp only
  rw [hrest, authorityPart, authorityPart, List.takeWhile_append, hstop, List.append_nil]
  split
  · next hall => rw [(List.takeWhile_prefix _).eq_of_length hall]
  · rfl

/-- Without a Host header, the origin-form target of a native request names an
authority of the list further on, `X-Forwarded-Host` is not read, and the
bound address is not on the list. -/
structure BorrowsAuthority (platform : TextPlatform) (hosts : List JsString) (proxy : Bool)
    (source : NodeRequestSource) : Prop where
  noHost : source.headers (js "host") = none
  originForm : source.url.head? = some slash
  named : listed platform (hosts.map platform.lower) (urlAuthority source.url) = true
  unread : (source.headers (js "x-forwarded-host")).getD [] = [] ∨ proxy = false ∧
    listed platform (hosts.map platform.lower)
      (firstForwarded ((source.headers (js "x-forwarded-host")).getD [])) = true
  unlisted : ¬Trusted platform hosts
    (stripUserinfo (authorityPart (boundAuthority source.hostname source.port)))

def HostFromTarget (platform : TextPlatform) (hosts : List JsString) (proxy : Bool) :
    RequestSource → Prop
  | .fetch _ _ => False
  | .native source => BorrowsAuthority platform hosts proxy source

/-- `c.host` where neither header is read. -/
theorem computeHost_of_none {proxy : Bool} {request : RequestSource}
    (hread : ¬(proxy = true ∧ forwardedHost request ≠ []))
    (hhost : sourceHeader request (js "host") = none) :
    computeHost proxy request = authorityOf (sourceAbsoluteUrl request) := by
  have hempty : requestHeader request (js "host") = [] := by rw [requestHeader, hhost]; rfl
  rw [computeHost, if_neg hread, hempty]
  rfl

/-- `c.host` where the Host header is read. -/
theorem computeHost_of_host {proxy : Bool} {request : RequestSource} {host : JsString}
    (hread : ¬(proxy = true ∧ forwardedHost request ≠ []))
    (hhost : sourceHeader request (js "host") = some host) (hne : stripUserinfo host ≠ []) :
    computeHost proxy request = stripUserinfo host := by
  have hsome : requestHeader request (js "host") = host := by rw [requestHeader, hhost]; rfl
  rw [computeHost, if_neg hread, hsome, if_pos hne]

theorem absoluteUrl_of_origin {source : NodeRequestSource}
    (hurl : source.url.head? = some slash) (hhost : source.headers (js "host") = none) :
    source.absoluteUrl =
      js "http://" ++ boundAuthority source.hostname source.port ++ source.url := by
  rw [NodeRequestSource.absoluteUrl, if_neg (not_not.mpr hurl), hhost]
  rfl

/-- Nothing is read of an empty chain. -/
theorem forwardedHost_of_empty {request : RequestSource}
    (h : requestHeader request (js "x-forwarded-host") = []) : forwardedHost request = [] := by
  rw [forwardedHost, h]
  rfl

/-- A Host header on the list is the one that is read, or else the target's own
authority is. -/
theorem trusted_unforwarded {platform : TextPlatform} {hosts : List JsString} {proxy : Bool}
    {request : RequestSource} (hread : ¬(proxy = true ∧ forwardedHost request ≠ []))
    (hlisted : listed platform (hosts.map platform.lower)
      ((sourceHeader request (js "host")).getD (urlAuthority (sourceUrl request))) = true)
    (hown : sourceHeader request (js "host") = none → Trusted platform hosts
      (urlAuthority (sourceUrl request)) → authorityOf (sourceUrl request) =
      urlAuthority (sourceUrl request) →
      Trusted platform hosts (authorityOf (sourceAbsoluteUrl request))) :
    Trusted platform hosts (computeHost proxy request) := by
  obtain ⟨hne, hwhole, htrusted⟩ := listed_spec hlisted
  rcases hhost : sourceHeader request (js "host") with _ | host
  · rw [hhost, Option.getD_none] at hwhole htrusted
    rw [computeHost_of_none hread hhost]
    exact hown hhost htrusted hwhole
  · rw [hhost, Option.getD_some] at hne hwhole htrusted
    rw [← hwhole] at hne
    rwa [computeHost_of_host hread hhost hne, hwhole]

/-- An admitted request reads an authority of the list, unless its target
stands in for the bound address that is read. -/
theorem trusted_host_iff (platform : TextPlatform) (trustedHosts : Option (List JsString))
    (proxy : Bool) (request : RequestSource) {admitted : RequestSource → Bool}
    (h : compileTrustedHosts platform trustedHosts = some admitted) :
    (admitted request = true →
        Trusted platform (trustedHosts.getD []) (computeHost proxy request)) ↔
      ¬HostFromTarget platform (trustedHosts.getD []) proxy request := by
  obtain ⟨host, hosts, rfl⟩ : ∃ host hosts, trustedHosts = some (host :: hosts) := by
    match trustedHosts, h with
    | some (host :: hosts), _ => exact ⟨host, hosts, rfl⟩
  obtain rfl := Option.some.inj h
  clear h
  rw [Option.getD_some]
  simp only [Bool.and_eq_true, Bool.or_eq_true, decide_eq_true_eq]
  generalize host :: hosts = hosts
  constructor
  · -- The host is the bound address, which is not on the list, although the check saw a listed
    -- name.
    intro hsafe hborrows
    cases request with
    | fetch url header => exact hborrows
    | native source =>
        obtain ⟨hnone, horigin, hnamed, hunread, hunlisted⟩ := hborrows
        have hread : ¬(proxy = true ∧ forwardedHost (.native source) ≠ []) := by
          rintro ⟨hproxy, hne⟩
          rcases hunread with hempty | ⟨hoff, -⟩
          · exact hne (forwardedHost_of_empty hempty)
          · rw [hproxy] at hoff
            cases hoff
        apply hunlisted
        have hhost := computeHost_of_none hread hnone
        rw [← authorityOf_bound horigin, ← absoluteUrl_of_origin horigin hnone]
        rw [sourceAbsoluteUrl] at hhost
        rw [← hhost]
        apply hsafe
        refine ⟨hunread.imp_right And.right, ?_⟩
        rw [show sourceHeader (.native source) (js "host") = none from hnone]
        exact hnamed
  · rintro hborrows ⟨hforwarded, hauthority⟩
    -- The host is the forwarded one, or that of the URL, and the check saw the same text.
    by_cases hread : proxy = true ∧ forwardedHost request ≠ []
    · rw [computeHost, if_pos hread]
      rcases hforwarded with hempty | hlisted
      · exact absurd (forwardedHost_of_empty hempty) hread.2
      · obtain ⟨-, hwhole, htrusted⟩ := listed_spec hlisted
        rwa [forwardedHost, requestHeader, hwhole]
    · apply trusted_unforwarded hread hauthority
      intro hnone htrusted hwhole
      cases request with
      | fetch url header =>
          rw [← hwhole] at htrusted
          exact htrusted
      | native source =>
          by_cases horigin : source.url.head? = some slash
          · rw [sourceAbsoluteUrl, absoluteUrl_of_origin horigin hnone,
              authorityOf_bound horigin]
            by_contra hunlisted
            rw [hnone, Option.getD_none] at hauthority
            refine hborrows ⟨hnone, horigin, hauthority, ?_, hunlisted⟩
            rcases hforwarded with hempty | hlisted
            · exact .inl hempty
            · have hoff : proxy ≠ true := fun hproxy => hread ⟨hproxy, by
                obtain ⟨hne, hwhole, -⟩ := listed_spec hlisted
                rwa [forwardedHost, requestHeader, hwhole]⟩
              exact .inr ⟨Bool.eq_false_iff.mpr hoff, hlisted⟩
          · rw [sourceAbsoluteUrl, NodeRequestSource.absoluteUrl, if_pos horigin]
            rw [← hwhole] at htrusted
            exact htrusted

def asciiPlatform : TextPlatform where
  lower text := text.map fun c => if 65 ≤ c ∧ c ≤ 90 then c + 32 else c
  urlHostname host := if host = [] then none else some (withoutPort host)
  lower_nil := rfl
  mem_lower h := List.mem_map.mpr ⟨64, h, rfl⟩

/-- A Fetch request without headers reads the host of its URL. -/
theorem trusted_host_fetch :
    Trusted asciiPlatform [js "trusted.test"]
      (computeHost true (.fetch (js "http://trusted.test:8080/a") fun _ => none)) :=
  (trusted_host_iff asciiPlatform (some [js "trusted.test"]) true
    (.fetch (js "http://trusted.test:8080/a") fun _ => none) rfl).mpr id (by decide +kernel)

/-- A link in the query admits a request that reads the bound address. -/
theorem trusted_host_query :
    ∃ admitted source,
      compileTrustedHosts asciiPlatform (some [js "trusted.test"]) = some admitted ∧
      NodeRequestSource.new (js "/x?next=http://trusted.test/") (fun _ => none)
        (js "127.0.0.1") 3000 = some source ∧
      admitted (.native source) = true ∧
      computeHost false (.native source) = js "127.0.0.1:3000" ∧
      ¬Trusted asciiPlatform [js "trusted.test"] (computeHost false (.native source)) := by
  refine ⟨_, _, rfl, rfl, by decide +kernel, by decide +kernel, ?_⟩
  rintro ⟨entry, hentry, hcovers⟩
  obtain rfl := List.mem_singleton.mp hentry
  rw [← matchesEntry_iff] at hcovers
  revert hcovers
  decide +kernel

end Keala.Core
