import Keala.Js.Search
import Keala.Js.WellFormed
import Keala.Lib.OrderedMap
import Keala.Plugins.CookieReplay

/-!
What is serialized into cookies is parsed back: the name and value parts of any
cookies, sent back in any order, give the map they were made of, and a signed
value is read under every key list that holds its key.
-/

namespace Keala.Plugins

open Keala.Js Keala.Http

variable {κ : Type} {platform : CookiePlatform κ}

/-- What is stored under a name: a value as it is, or signed with a key. -/
inductive Stored (κ : Type)
  | plain (value : JsString)
  | signed (value : JsString) (key : κ)

def Stored.value : Stored κ → JsString
  | .plain value => value
  | .signed value _ => value

def Stored.text (platform : CookiePlatform κ) : Stored κ → JsString
  | .plain value => value
  | .signed value key => sign platform value key

/-- A finite map from valid names to valid values without lone surrogates. -/
structure CookieMap (entries : List (JsString × Stored κ)) : Prop where
  nodup : (OrderedMap.keys entries).Nodup
  names : ∀ entry ∈ entries, isValidCookieName entry.1 = true
  values : ∀ entry ∈ entries, isValidCookieValue entry.2.value = true ∧
    isWellFormed entry.2.value = true

def cookiePart (platform : CookiePlatform κ) (now : ℤ) (options : JsString → CookieOptions)
    (entry : JsString × Stored κ) : Except CookieError JsString :=
  (serializeCookie platform now entry.1 (entry.2.text platform) (options entry.1)).map
    (List.takeWhile fun c => c ≠ 59)

def joinCookies (parts : List JsString) : JsString := (js "; ").intercalate parts

/-! ### One part -/

theorem trimHeaderWs_blank {blank text : JsString} (hblank : ∀ c ∈ blank, isHeaderWs c = true)
    (htext : ∀ c ∈ text, isHeaderWs c = false) : trimHeaderWs (blank ++ text) = text := by
  have hkept : ∀ l : JsString, (∀ c ∈ l, isHeaderWs c = false) → l.dropWhile isHeaderWs = l := by
    intro l hl
    cases l with
    | nil => rfl
    | cons c l => rw [List.dropWhile_cons, if_neg (by simp [hl c List.mem_cons_self])]
  rw [trimHeaderWs, List.dropWhile_append_of_pos hblank, hkept text htext,
    hkept text.reverse fun c hc => htext c (List.mem_reverse.mp hc), List.reverse_reverse]

theorem isHeaderWs_of_isToken {name : JsString} (h : isValidCookieName name = true) :
    ∀ c ∈ name, isHeaderWs c = false := by
  intro c hc
  rw [isValidCookieName, isToken, Bool.and_eq_true, List.all_eq_true] at h
  have htoken := h.2 c hc
  rw [Bool.eq_false_iff]
  intro hws
  simp only [isHeaderWs, Bool.or_eq_true, decide_eq_true_eq] at hws
  rcases hws with ((rfl | rfl) | rfl) | rfl <;> exact absurd htoken (by decide)

theorem isHeaderWs_of_isEncoded {c : CodeUnit} (h : isEncoded c = true) : isHeaderWs c = false := by
  rw [Bool.eq_false_iff]
  intro hws
  simp only [isHeaderWs, Bool.or_eq_true, decide_eq_true_eq] at hws
  rcases hws with ((rfl | rfl) | rfl) | rfl <;> exact absurd h (by decide)

theorem tryDecode_encoded {text encoded : JsString} (h : encodeURIComponent text = some encoded) :
    tryDecode encoded = text := by
  have hdecoded := decode_encodeURIComponent h
  rw [tryDecode]
  split
  · rw [hdecoded, Option.getD_some]
  · next hplain =>
      rw [decodeURIComponent_iff.mpr (decodes_of_no_percent hplain)] at hdecoded
      exact Option.some.inj hdecoded

/-- A part is parsed to its name and text, whatever blanks stand before it. -/
theorem parsePart_encoded {blank name text encoded : JsString}
    (hblank : ∀ c ∈ blank, isHeaderWs c = true) (hname : isValidCookieName name = true)
    (h : encodeURIComponent text = some encoded) :
    parsePart (blank ++ (name ++ js "=" ++ encoded)) = some (name, text) := by
  have hbare : (61 : CodeUnit) ∉ blank ++ name := by
    rw [List.mem_append, not_or]
    exact ⟨fun hmem => absurd (hblank 61 hmem) (by decide), eq_not_mem_name hname⟩
  have hpart : blank ++ (name ++ js "=" ++ encoded) = (blank ++ name) ++ 61 :: encoded := by
    simp [js]
  have hindex := indexOf_append_cons hbare encoded
  have hraw : trimHeaderWs encoded = encoded :=
    @trimHeaderWs_blank [] encoded (fun c hc => absurd hc List.not_mem_nil)
      fun c hc => isHeaderWs_of_isEncoded (isEncoded_of_mem h hc)
  have hquote : encoded.head? ≠ some 34 := by
    intro hhead
    exact absurd (isEncoded_of_mem h (List.mem_of_head? hhead)) (by decide)
  have hdrop : (blank ++ name ++ 61 :: encoded).drop ((blank ++ name).length + 1) = encoded := by
    rw [← List.drop_drop, List.drop_left]
    rfl
  have hkey : trimHeaderWs (blank ++ name) = name :=
    trimHeaderWs_blank hblank (isHeaderWs_of_isToken hname)
  rw [hpart]
  simp only [parsePart, hindex, Option.elim_some, List.take_left, hkey, hname, hdrop, hraw, hquote,
    tryDecode_encoded h, Bool.not_true, Bool.false_eq_true, if_false, false_and]

/-! ### The whole header -/

theorem joinCookies_cons (part : JsString) (parts : List JsString) :
    joinCookies (part :: parts) = join 59 (part :: parts.map fun p => 32 :: p) := by
  induction parts generalizing part with
  | nil => rw [joinCookies, List.intercalate_singleton, List.map_nil, join_singleton]
  | cons next parts ih =>
      have hnext : join 59 ((32 :: next) :: parts.map fun p => 32 :: p) =
          32 :: join 59 (next :: parts.map fun p => 32 :: p) :=
        (append_join_cons 59 [32] next _).symm
      rw [joinCookies, List.intercalate_cons_cons, ← joinCookies, ih next, List.map_cons,
        join_cons_cons, hnext]
      simp [js]

theorem semicolon_not_mem_name {name : JsString} (h : isValidCookieName name = true) :
    (59 : CodeUnit) ∉ name := by
  intro hmem
  rw [isValidCookieName, isToken, Bool.and_eq_true, List.all_eq_true] at h
  exact absurd (h.2 59 hmem) (by decide)

/-- The part of a cookie is the text of its pair. -/
theorem cookiePart_ok {now : ℤ} {options : JsString → CookieOptions}
    {entry : JsString × Stored κ} {part : JsString}
    (h : cookiePart platform now options entry = .ok part) :
    isValidCookieName entry.1 = true ∧ ∃ encoded,
      encodeURIComponent (entry.2.text platform) = some encoded ∧
        part = entry.1 ++ js "=" ++ encoded := by
  rw [cookiePart] at h
  cases hcookie :
    serializeCookie platform now entry.1 (entry.2.text platform) (options entry.1) with
  | error e =>
      rw [hcookie] at h
      cases h
  | ok cookie =>
      rw [hcookie] at h
      obtain ⟨hname, encoded, attributes, henc, hattributes, rfl⟩ := serializeCookie_ok hcookie
      refine ⟨hname, encoded, henc, ?_⟩
      have hbare : (59 : CodeUnit) ∉ entry.1 ++ js "=" ++ encoded := by
        simp only [List.mem_append, not_or]
        exact ⟨⟨semicolon_not_mem_name hname, by decide⟩, semicolon_not_mem_encoded henc⟩
      cases h
      exact takeWhile_setOff hbare hattributes

theorem cookiePart_bare {now : ℤ} {options : JsString → CookieOptions}
    {entry : JsString × Stored κ} {part : JsString}
    (h : cookiePart platform now options entry = .ok part) : (59 : CodeUnit) ∉ part := by
  obtain ⟨hname, encoded, henc, rfl⟩ := cookiePart_ok h
  simp only [List.mem_append, not_or]
  exact ⟨⟨semicolon_not_mem_name hname, by decide⟩, semicolon_not_mem_encoded henc⟩

def parsedEntries (platform : CookiePlatform κ) (entries : List (JsString × Stored κ)) :
    List (JsString × JsString) :=
  entries.map fun entry => (entry.1, entry.2.text platform)

theorem filterMap_parsePart {now : ℤ} {options : JsString → CookieOptions}
    {entries : List (JsString × Stored κ)} {parts : List JsString} {blank : JsString}
    (hblank : ∀ c ∈ blank, isHeaderWs c = true)
    (h : List.Forall₂ (fun entry part => cookiePart platform now options entry = .ok part) entries
      parts) :
    (parts.map fun part => blank ++ part).filterMap parsePart = parsedEntries platform entries := by
  induction h with
  | nil => rfl
  | cons hpart _ ih =>
      obtain ⟨hname, encoded, henc, rfl⟩ := cookiePart_ok hpart
      rw [List.map_cons, List.filterMap_cons_some (parsePart_encoded hblank hname henc), ih,
        parsedEntries, parsedEntries, List.map_cons]

/-- The parts are parsed to the entries they were made of, in their order. -/
theorem parseCookies_joinCookies {now : ℤ} {options : JsString → CookieOptions}
    {entries : List (JsString × Stored κ)} {parts : List JsString}
    (h : entries.mapM (cookiePart platform now options) = .ok parts) :
    parseCookies (some (joinCookies parts)) = parsedEntries platform entries := by
  have hparts := Except.forall₂_of_mapM h
  cases hparts with
  | nil => rfl
  | @cons entry part entries parts hfirst hrest =>
      have hbare :
          ∀ p ∈ part :: parts.map (fun p => (32 : CodeUnit) :: p), (59 : CodeUnit) ∉ p := by
        intro p hp
        rcases List.mem_cons.mp hp with rfl | hp
        · exact cookiePart_bare hfirst
        · obtain ⟨q, hq, rfl⟩ := List.mem_map.mp hp
          obtain ⟨i, hi, rfl⟩ := List.getElem_of_mem hq
          have hentry := (List.forall₂_iff_get.mp hrest).2 i
            (by rw [(List.forall₂_iff_get.mp hrest).1]; exact hi) hi
          rw [List.mem_cons, not_or]
          exact ⟨by decide, cookiePart_bare hentry⟩
      obtain ⟨hname, encoded, henc, hpart⟩ := cookiePart_ok hfirst
      have hhead := @parsePart_encoded [] _ _ _ (fun c hc => absurd hc List.not_mem_nil) hname henc
      rw [List.nil_append, ← hpart] at hhead
      have htail := @filterMap_parsePart _ _ _ _ _ _ [32]
        (List.forall_mem_singleton.mpr rfl) hrest
      rw [parseCookies, Option.getD_some, joinCookies_cons, split_join hbare (List.cons_ne_nil _ _),
        List.filterMap_cons_some hhead]
      exact congrArg _ htail

/-! ### Reading the map back -/

theorem readJar_iff {jar : List (JsString × JsString)} (hnodup : (OrderedMap.keys jar).Nodup)
    (name text : JsString) : readJar jar name = some text ↔ (name, text) ∈ jar := by
  constructor
  · intro h
    obtain ⟨entry, hentry, rfl⟩ := Option.map_eq_some_iff.mp h
    have hmem := List.mem_reverse.mp (List.mem_of_find?_eq_some hentry)
    have hname := List.find?_some hentry
    rw [decide_eq_true_eq] at hname
    rwa [← hname]
  · intro h
    have hfound :
        ∃ entry, (jar.reverse.find? fun entry => decide (entry.1 = name)) = some entry := by
      rw [← Option.isSome_iff_exists, List.find?_isSome]
      exact ⟨(name, text), List.mem_reverse.mpr h, by simp⟩
    obtain ⟨⟨found, other⟩, hentry⟩ := hfound
    have hmem := List.mem_reverse.mp (List.mem_of_find?_eq_some hentry)
    have hname := List.find?_some hentry
    rw [decide_eq_true_eq] at hname
    obtain rfl : found = name := hname
    -- two entries of one name are one entry
    have hget := (OrderedMap.get?_eq_some_iff hnodup found other).mpr hmem
    rw [(OrderedMap.get?_eq_some_iff hnodup found text).mpr h] at hget
    rw [readJar, hentry, Option.map_some, Option.some.inj hget]

theorem keys_parsedEntries (entries : List (JsString × Stored κ)) :
    OrderedMap.keys (parsedEntries platform entries) = OrderedMap.keys entries := by
  simp [OrderedMap.keys, parsedEntries]

/-- Parsed in any order the entries are read as the map has them. -/
theorem readJar_parsedEntries {entries order : List (JsString × Stored κ)}
    (hnodup : (OrderedMap.keys entries).Nodup) (horder : order.Perm entries) (name : JsString) :
    readJar (parsedEntries platform order) name =
      (OrderedMap.get? entries name).map (Stored.text platform) := by
  have hkeys : (OrderedMap.keys (parsedEntries platform order)).Nodup := by
    rw [keys_parsedEntries]
    exact (horder.map Prod.fst).nodup_iff.mpr hnodup
  refine Option.ext fun text => ?_
  rw [readJar_iff hkeys, Option.map_eq_some_iff]
  constructor
  · intro h
    obtain ⟨⟨found, stored⟩, hmem, heq⟩ := List.mem_map.mp h
    cases heq
    exact ⟨stored, (OrderedMap.get?_eq_some_iff hnodup _ _).mpr (horder.mem_iff.mp hmem), rfl⟩
  · rintro ⟨stored, hget, rfl⟩
    have hmem := (OrderedMap.get?_eq_some_iff hnodup _ _).mp hget
    exact List.mem_map.mpr ⟨(name, stored), horder.mem_iff.mpr hmem, rfl⟩

/-! ### Signed values -/

theorem unsign_sign (hread : ∀ bytes, platform.fromBase64Url (base64Url bytes) = bytes)
    {keys : List κ} {key : κ} (hkey : key ∈ keys) (value : JsString) :
    unsign platform (sign platform value key) keys = some value := by
  have hsigned : sign platform value key = value ++ 46 :: base64Url (platform.hmac key value) := by
    simp [sign, js]
  have hdot := lastIndexOf_append_cons value (dot_not_mem_base64Url (platform.hmac key value))
  have htag : (value ++ 46 :: base64Url (platform.hmac key value)).drop (value.length + 1) =
      base64Url (platform.hmac key value) := by
    rw [← List.drop_drop, List.drop_left]
    rfl
  have hany : (keys.any fun other =>
      decide (platform.hmac key value = platform.hmac other value)) = true :=
    List.any_eq_true.mpr ⟨key, hkey, by simp⟩
  rw [hsigned]
  simp only [unsign, hdot, List.take_left, htag, hread, hany, if_true]

theorem base64Digit_plain {n : ℕ} (h : n < 64) :
    isValidCookieValue [base64Digit n] = true ∧ isSurrogate (base64Digit n).toNat = false := by
  revert n
  decide

theorem sign_valid (platform : CookiePlatform κ) (key : κ) {value : JsString}
    (h : isValidCookieValue value = true) :
    isValidCookieValue (sign platform value key) = true := by
  rw [isValidCookieValue, List.all_eq_true] at h ⊢
  intro c hc
  rw [sign, List.mem_append, List.mem_append] at hc
  rcases hc with (hc | hc) | hc
  · exact h c hc
  · obtain rfl := List.mem_singleton.mp hc
    decide
  · obtain ⟨n, hn, rfl⟩ := mem_base64Url hc
    simpa [isValidCookieValue] using (base64Digit_plain hn).1

theorem sign_wellFormed (platform : CookiePlatform κ) (key : κ) {value : JsString}
    (h : isWellFormed value = true) : isWellFormed (sign platform value key) = true := by
  have htag : isWellFormed (js "." ++ base64Url (platform.hmac key value)) = true := by
    refine isWellFormed_of_units fun c hc => ?_
    rcases List.mem_append.mp hc with hc | hc
    · obtain rfl := List.mem_singleton.mp hc
      decide
    · obtain ⟨n, hn, rfl⟩ := mem_base64Url hc
      exact (base64Digit_plain hn).2
  rw [sign, List.append_assoc]
  exact isWellFormed_append h htag

theorem cookieAttributes_default (platform : CookiePlatform κ) (now : ℤ) :
    cookieAttributes platform now {} = .ok (js "; Path=/") := rfl

/-- Without options every entry of a map is serialized. -/
theorem exists_parts (platform : CookiePlatform κ) (now : ℤ) {entries : List (JsString × Stored κ)}
    (hmap : CookieMap entries) :
    ∃ parts, entries.mapM (cookiePart platform now fun _ => {}) = .ok parts := by
  refine Except.exists_mapM fun entry hentry => ?_
  obtain ⟨hvalid, hwell⟩ := hmap.values entry hentry
  have htext : isValidCookieValue (entry.2.text platform) = true ∧
      isWellFormed (entry.2.text platform) = true := by
    cases hstored : entry.2 with
    | plain value =>
        rw [hstored] at hvalid hwell
        exact ⟨hvalid, hwell⟩
    | signed value key =>
        rw [hstored] at hvalid hwell
        exact ⟨sign_valid platform key hvalid, sign_wellFormed platform key hwell⟩
  obtain ⟨encoded, henc⟩ := (exists_encodeURIComponent_iff _).mpr htext.2
  have hcookie : serializeCookie platform now entry.1 (entry.2.text platform) {} =
      .ok (entry.1 ++ js "=" ++ encoded ++ js "; Path=/") := by
    rw [serializeCookie, hmap.names entry hentry, htext.1, henc, cookieAttributes_default]
    rfl
  exact ⟨_, by rw [cookiePart, hcookie]; rfl⟩

/-- Serialized, joined in any order and parsed again a map of cookies is the same
map, and its signed values are read under every key list with their key. -/
theorem cookie_round_trip (platform : CookiePlatform κ)
    (hread : ∀ bytes, platform.fromBase64Url (base64Url bytes) = bytes) (now : ℤ)
    {entries order : List (JsString × Stored κ)} (hmap : CookieMap entries)
    (horder : order.Perm entries) :
    (∃ parts, order.mapM (cookiePart platform now fun _ => {}) = .ok parts) ∧
      ∀ options parts, order.mapM (cookiePart platform now options) = .ok parts →
        (∀ name, readJar (parseCookies (some (joinCookies parts))) name =
          (OrderedMap.get? entries name).map (Stored.text platform)) ∧
        ∀ (host : CookiesHost κ) (name value : JsString) (key : κ) (signed : Option Bool),
          host.cookieHeader = some (joinCookies parts) → (name, .signed value key) ∈ entries →
          key ∈ host.keys.getD [] → signed ≠ some false →
          host.get platform name signed = .ok (some value) := by
  have horderMap : CookieMap order :=
    ⟨(horder.map Prod.fst).nodup_iff.mpr hmap.nodup,
      fun entry hentry => hmap.names entry (horder.mem_iff.mp hentry),
      fun entry hentry => hmap.values entry (horder.mem_iff.mp hentry)⟩
  refine ⟨exists_parts platform now horderMap, fun options parts hparts => ?_⟩
  have hmapping : ∀ name, readJar (parseCookies (some (joinCookies parts))) name =
      (OrderedMap.get? entries name).map (Stored.text platform) := by
    intro name
    rw [parseCookies_joinCookies hparts]
    exact readJar_parsedEntries hmap.nodup horder name
  refine ⟨hmapping, fun host name value key signed hheader hentry hkey hsigned => ?_⟩
  have hraw : readJar (parseCookies host.cookieHeader) name = some (sign platform value key) := by
    rw [hheader, hmapping, (OrderedMap.get?_eq_some_iff hmap.nodup _ _).mpr hentry]
    rfl
  rw [CookiesHost.get, hraw]
  dsimp only
  rw [if_neg hsigned]
  cases hkeys : host.keys.getD [] with
  | nil =>
      rw [hkeys] at hkey
      cases hkey
  | cons first keys =>
      rw [hkeys] at hkey
      dsimp only
      rw [unsign_sign hread hkey]

def readingPlatform : CookiePlatform JsString :=
  { adminPlatform with fromBase64Url := readBase64Url }

def sampleEntries : List (JsString × Stored JsString) :=
  [(js "theme", .plain (js "a; b=\"50%\"")), (js "role", .signed (js "admin") (js "k"))]

theorem cookie_round_trip_sample :
    (∃ parts, sampleEntries.reverse.mapM (cookiePart readingPlatform 0 fun _ => {}) = .ok parts) ∧
      ∀ options parts,
        sampleEntries.reverse.mapM (cookiePart readingPlatform 0 options) = .ok parts →
        (∀ name, readJar (parseCookies (some (joinCookies parts))) name =
          (OrderedMap.get? sampleEntries name).map (Stored.text readingPlatform)) ∧
        ∀ (host : CookiesHost JsString) (name value : JsString) (key : JsString)
          (signed : Option Bool), host.cookieHeader = some (joinCookies parts) →
          (name, .signed value key) ∈ sampleEntries → key ∈ host.keys.getD [] →
          signed ≠ some false → host.get readingPlatform name signed = .ok (some value) :=
  cookie_round_trip readingPlatform readBase64Url_base64Url 0
    ⟨by decide +kernel, by decide +kernel, by decide +kernel⟩ (List.reverse_perm sampleEntries)

end Keala.Plugins
