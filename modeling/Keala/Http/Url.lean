import Keala.Js.Text

/-!
How a text is resolved against an http or https URL, as far as its host goes:
the states of the WHATWG URL parser up to the port. What comes behind the port
cannot fail and is left out.
-/

namespace Keala.Http

open Keala.Js

/-- The host parsers, `none` on failure. -/
structure HostParsers where
  /-- Of the special schemes: domains and addresses. -/
  domain : JsString → Option JsString
  /-- Of any other scheme. -/
  other : JsString → Option JsString
  domain_ne_nil : ∀ text, domain text ≠ some []

/-- The host goes with its port; it is empty where there is none. -/
structure Url where
  scheme : JsString
  host : JsString
  deriving DecidableEq

/-! ### Cleaning -/

def isC0OrSpace (c : CodeUnit) : Bool := c ≤ 32

def isTabOrNewline (c : CodeUnit) : Bool := c = 9 || c = 10 || c = 13

/-- Without the controls and spaces at the end, and without tabs and newlines. -/
def cleanedEnd (text : JsString) : JsString :=
  (text.reverse.dropWhile isC0OrSpace).reverse.filter fun c => !isTabOrNewline c

def cleaned (input : JsString) : JsString := cleanedEnd (input.dropWhile isC0OrSpace)

/-! ### Schemes -/

def isAlpha (c : CodeUnit) : Bool := (65 ≤ c && c ≤ 90) || (97 ≤ c && c ≤ 122)

def isSchemeChar (c : CodeUnit) : Bool :=
  isAlpha c || (48 ≤ c && c ≤ 57) || c = 43 || c = 45 || c = 46

def lowerAscii (c : CodeUnit) : CodeUnit := if 65 ≤ c ∧ c ≤ 90 then c + 32 else c

/-- The word in front of the ":" where it can be a scheme, and what follows. -/
def splitScheme (text : JsString) : Option (JsString × JsString) :=
  if text.head?.any isAlpha then
    match text.dropWhile isSchemeChar with
    | [] => none
    | c :: rest => if c = 58 then some (text.takeWhile isSchemeChar, rest) else none
  else none

def defaultPort (scheme : JsString) : Option ℕ :=
  if scheme = js "http" ∨ scheme = js "ws" then some 80
  else if scheme = js "https" ∨ scheme = js "wss" then some 443
  else if scheme = js "ftp" then some 21
  else none

def isRemote (scheme : JsString) : Bool := (defaultPort scheme).isSome

/-! ### Authorities -/

def isSlash (c : CodeUnit) : Bool := c = 47 || c = 92

/-- What follows the last "@". -/
def hostAndPort (authority : JsString) : JsString :=
  (authority.reverse.takeWhile fun c => c ≠ 64).reverse

/-- Cut at the first ":" that is not between brackets. -/
def splitPort (inside : Bool) : JsString → JsString × Option JsString
  | [] => ([], none)
  | c :: text =>
      if c = 58 ∧ inside = false then ([], some text)
      else
        let (host, port) :=
          splitPort (if c = 91 then true else if c = 93 then false else inside) text
        (c :: host, port)

def portText (default : Option ℕ) : Option JsString → Option JsString
  | none => some []
  | some digits =>
      if digits.all fun c => 48 ≤ c && c ≤ 57 then
        let port := digits.foldl (fun n c => 10 * n + (c.toNat - 48)) 0
        if digits = [] then some []
        else if 65535 < port then none
        else if default = some port then some []
        else some (js ":" ++ js (toString port))
      else none

/-- The authority of a scheme with a remote host: any number of slashes, then
everything up to a slash, "?" or "#". -/
def authorityHost (hosts : HostParsers) (scheme text : JsString) : Option JsString :=
  let authority :=
    (text.dropWhile isSlash).takeWhile fun c => !(isSlash c || c = 63 || c = 35)
  let (name, port) := splitPort false (hostAndPort authority)
  if name = [] then none
  else (portText (defaultPort scheme) port).bind fun port =>
    (hosts.domain name).map fun host => host ++ port

/-- The authority of a scheme that is not special; its host may be empty. -/
def otherAuthority (hosts : HostParsers) (text : JsString) : Option JsString :=
  let authority := text.takeWhile fun c => !(c = 47 || c = 63 || c = 35)
  let (name, port) := splitPort false (hostAndPort authority)
  if name = [] then
    if (64 : CodeUnit) ∈ authority ∨ port.isSome then none else some []
  else (portText none port).bind fun port => (hosts.other name).map fun host => host ++ port

def isDriveLetter : JsString → Bool
  | [c, d] => isAlpha c && (d = 58 || d = 124)
  | _ => false

/-- The host of a file URL, behind two slashes. -/
def fileHost (hosts : HostParsers) : JsString → Option JsString
  | c :: d :: text =>
      if isSlash c && isSlash d then
        let name := text.takeWhile fun c => !(isSlash c || c = 63 || c = 35)
        if name = [] ∨ isDriveLetter name then some []
        else (hosts.domain name).map fun host => if host = js "localhost" then [] else host
      else some []
  | _ => some []

/-! ### Resolving -/

/-- A text without a scheme, or with the one of the base. -/
def resolveRelative (hosts : HostParsers) (base : Url) : JsString → Option Url
  | c :: d :: text =>
      if isSlash c && isSlash d then (authorityHost hosts base.scheme text).map (Url.mk base.scheme)
      else some base
  | _ => some base

/-- `new URL(input, base)`, where the base has a remote host. -/
def resolve (hosts : HostParsers) (base : Option Url) (input : JsString) : Option Url :=
  let text := cleaned input
  match splitScheme text with
  | none => base.bind fun base => resolveRelative hosts base text
  | some (word, rest) =>
      let scheme := word.map lowerAscii
      if scheme = js "file" then (fileHost hosts rest).map (Url.mk scheme)
      else if isRemote scheme then
        match base with
        | some base =>
            if base.scheme = scheme then resolveRelative hosts base rest
            else (authorityHost hosts scheme rest).map (Url.mk scheme)
        | none => (authorityHost hosts scheme rest).map (Url.mk scheme)
      else if startsWith rest (js "//") then
        (otherAuthority hosts (rest.drop 2)).map (Url.mk scheme)
      else some ⟨scheme, []⟩

/-! ### Texts and their cleaning -/

theorem splitScheme_eq_some {text word rest : JsString} (h : splitScheme text = some (word, rest)) :
    word.head?.any isAlpha = true ∧ word.all isSchemeChar = true ∧ text = word ++ 58 :: rest := by
  rw [splitScheme] at h
  obtain ⟨hhead, h⟩ := Option.ite_none_right_eq_some.mp h
  split at h
  · cases h
  · next c tail hdrop =>
      obtain ⟨rfl, h⟩ := Option.ite_none_right_eq_some.mp h
      obtain ⟨rfl, rfl⟩ := Prod.mk.inj (Option.some.inj h)
      have htext : text = text.takeWhile isSchemeChar ++ 58 :: tail := by
        rw [← hdrop, List.takeWhile_append_dropWhile]
      refine ⟨?_, List.all_takeWhile, htext⟩
      cases text with
      | nil => cases hhead
      | cons c text =>
          have hc : isAlpha c = true := hhead
          have hscheme : isSchemeChar c = true := by simp [isSchemeChar, hc]
          rw [List.takeWhile_cons_of_pos hscheme]
          exact hc

theorem splitScheme_append {word : JsString} (hhead : word.head?.any isAlpha = true)
    (hall : word.all isSchemeChar = true) (rest : JsString) :
    splitScheme (word ++ 58 :: rest) = some (word, rest) := by
  have hword := List.all_eq_true.mp hall
  have hfirst : (word ++ 58 :: rest).head?.any isAlpha = true := by
    cases word with
    | nil => cases hhead
    | cons c word => exact hhead
  have hdrop : (word ++ 58 :: rest).dropWhile isSchemeChar = 58 :: rest := by
    rw [List.dropWhile_append_of_pos hword]
    rfl
  have htake : (word ++ 58 :: rest).takeWhile isSchemeChar = word := by
    rw [List.takeWhile_append_of_pos hword]
    exact List.append_nil word
  rw [splitScheme, if_pos hfirst, hdrop, htake]
  rfl

/-- What is neither a control nor a space in front stays, and so does a text of such units. -/
theorem cleanedEnd_cons {c : CodeUnit} (hc : isC0OrSpace c = false) (text : JsString) :
    cleanedEnd (c :: text) = c :: cleanedEnd text := by
  have hkept : isTabOrNewline c = false := by
    simp only [isC0OrSpace, decide_eq_false_iff_not, UInt16.le_iff_toNat_le] at hc
    simp only [isTabOrNewline, Bool.or_eq_false_iff, decide_eq_false_iff_not]
    refine ⟨⟨?_, ?_⟩, ?_⟩
    all_goals
      rintro rfl
      exact hc (by decide)
  have hdrop : ((c :: text).reverse).dropWhile isC0OrSpace =
      text.reverse.dropWhile isC0OrSpace ++ [c] := by
    have hstop : [c].dropWhile isC0OrSpace = [c] := by simp [hc]
    rw [List.reverse_cons, List.dropWhile_append, hstop]
    split
    · next hempty => rw [List.isEmpty_iff.mp hempty, List.nil_append]
    · rfl
  rw [cleanedEnd, hdrop, List.reverse_append]
  exact List.filter_cons_of_pos (by simp [hkept])

theorem cleaned_cons {c : CodeUnit} (hc : isC0OrSpace c = false) (text : JsString) :
    cleaned (c :: text) = c :: cleanedEnd text := by
  rw [cleaned, List.dropWhile_cons_of_neg (by simp [hc]), cleanedEnd_cons hc]

theorem visible_of_any {word : JsString} (h : word.any isC0OrSpace = false) :
    ∀ c ∈ word, isC0OrSpace c = false :=
  fun c hc => Bool.eq_false_iff.mpr (List.any_eq_false.mp h c hc)

theorem cleanedEnd_append {word : JsString} (hword : ∀ c ∈ word, isC0OrSpace c = false)
    (text : JsString) : cleanedEnd (word ++ text) = word ++ cleanedEnd text := by
  induction word with
  | nil => rfl
  | cons c word ih =>
      rw [List.cons_append, cleanedEnd_cons (hword c List.mem_cons_self),
        ih fun c hc => hword c (List.mem_cons_of_mem _ hc), List.cons_append]

/-- Only what follows a visible start is cleaned. -/
theorem cleaned_append {word : JsString} (hne : word ≠ [])
    (hword : ∀ c ∈ word, isC0OrSpace c = false) (text : JsString) :
    cleaned (word ++ text) = word ++ cleanedEnd text := by
  cases word with
  | nil => exact absurd rfl hne
  | cons c word =>
      rw [List.cons_append, cleaned_cons (hword c List.mem_cons_self),
        cleanedEnd_append fun c hc => hword c (List.mem_cons_of_mem _ hc), List.cons_append]

theorem cleaned_of_visible {text : JsString} (h : ∀ c ∈ text, isC0OrSpace c = false) :
    cleaned text = text := by
  cases text with
  | nil => rfl
  | cons c text =>
      have hend := cleaned_append (List.cons_ne_nil c text) h []
      rw [List.append_nil] at hend
      rw [hend]
      exact List.append_nil _

/-- The scheme decides the default port only. -/
theorem authorityHost_isSome (hosts : HostParsers) (scheme other text : JsString) :
    (authorityHost hosts scheme text).isSome = (authorityHost hosts other text).isSome := by
  have hport : ∀ port, (portText (defaultPort scheme) port).isSome =
      (portText (defaultPort other) port).isSome := by
    intro port
    cases port with
    | none => rfl
    | some digits =>
        rw [portText, portText]
        split
        · split
          · rfl
          · dsimp only
            split
            · rfl
            · split <;> split <;> rfl
        · rfl
  rw [authorityHost, authorityHost]
  generalize splitPort false _ = parts
  obtain ⟨name, port⟩ := parts
  dsimp only
  split
  · rfl
  · have hsame := hport port
    cases hs : portText (defaultPort scheme) port with
    | none =>
        rw [hs] at hsame
        have ho : portText (defaultPort other) port = none :=
          Option.not_isSome_iff_eq_none.mp (Bool.eq_false_iff.mp hsame.symm)
        rw [ho]
    | some written =>
        rw [hs] at hsame
        obtain ⟨written', ho⟩ := Option.isSome_iff_exists.mp hsame.symm
        rw [ho]
        simp

theorem authorityHost_ne_nil {hosts : HostParsers} {scheme text : JsString} :
    authorityHost hosts scheme text ≠ some [] := by
  rw [authorityHost]
  generalize splitPort false _ = parts
  obtain ⟨name, port⟩ := parts
  dsimp only
  split
  · exact nofun
  · intro h
    obtain ⟨written, -, h⟩ := Option.bind_eq_some_iff.mp h
    obtain ⟨host, hhost, h⟩ := Option.map_eq_some_iff.mp h
    rw [(List.append_eq_nil_iff.mp h).1] at hhost
    exact hosts.domain_ne_nil name hhost

end Keala.Http
