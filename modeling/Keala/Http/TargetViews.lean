import Keala.Http.Target
import Keala.Js.Search

/-!
The URL views of a context (`src/core/request-url.ts` and the getters of
`src/core/context/request.ts`): the slots that `primeRequestUrl` fills in one
pass hold what the getters compute.
-/

namespace Keala.Http

open Keala.Js

/-! ### The slots and their readers -/

structure UrlSlots where
  /-- `sourceUrl(rawRequest)`. -/
  sourceUrl : JsString
  pathValue : Option JsString := none
  urlValue : Option JsString := none
  querystringValue : Option JsString := none
  deriving DecidableEq

def unitIndexFrom (url : JsString) (c : CodeUnit) (start : ℕ) : Option ℕ :=
  (indexOf (url.drop start) c).map (· + start)

def slice (url : JsString) (start stop : ℕ) : JsString := (url.take stop).drop start

/-- The path that is routed, and the slots with their path and URL. -/
def primeRequestUrl (c : UrlSlots) (url : JsString) : JsString × UrlSlots :=
  let start := getPathStart url
  let query := unitIndexFrom url 63 start
  let hash := unitIndexFrom url 35 start
  let sawQuery : Bool := query.any fun query => hash.all fun hash => query < hash
  let stop := if sawQuery then query else hash
  let rawPath := slice url start (stop.getD url.length)
  let path := if rawPath = [] then [slash] else rawPath
  let view := if sawQuery then slice url start (hash.getD url.length) else path
  let urlValue := if sawQuery && rawPath = [] then slash :: view else view
  (path, { c with pathValue := some path, urlValue := some urlValue })

namespace UrlSlots

def url (c : UrlSlots) : JsString × UrlSlots :=
  match c.urlValue with
  | some url => (url, c)
  | none =>
      let url := getPath c.sourceUrl ++ getSearch c.sourceUrl
      (url, { c with urlValue := some url })

def path (c : UrlSlots) : JsString × UrlSlots :=
  match c.pathValue with
  | some path => (path, c)
  | none =>
      let (url, c) := c.url
      let path := getPath url
      (path, { c with pathValue := some path })

def querystring (c : UrlSlots) : JsString × UrlSlots :=
  match c.querystringValue with
  | some cached => (cached, c)
  | none =>
      let found := contextQuerystring (c.urlValue.getD c.sourceUrl)
      (found, { c with querystringValue := some found })

def search (c : UrlSlots) : JsString × UrlSlots :=
  let (qs, c) := c.querystring
  (if qs = [] then [] else 63 :: qs, c)

end UrlSlots

inductive UrlGetter
  | url
  | path
  | querystring
  | search
  deriving DecidableEq

def UrlSlots.read (c : UrlSlots) : UrlGetter → JsString × UrlSlots
  | .url => c.url
  | .path => c.path
  | .querystring => c.querystring
  | .search => c.search

/-- One getter after the other: what each gives, and the slots at the end. -/
def UrlSlots.reads (c : UrlSlots) : List UrlGetter → List JsString × UrlSlots
  | [] => ([], c)
  | getter :: getters =>
      let (value, c) := c.read getter
      let (values, c) := c.reads getters
      (value :: values, c)

/-! ### What they show -/

/-- The view of a URL by `getPath` and `getSearch` alone. -/
def urlView (url : JsString) : UrlGetter → JsString
  | .url => getPath url ++ getSearch url
  | .path => getPath url
  | .querystring => (getSearch url).tail
  | .search => if (getSearch url).tail = [] then [] else 63 :: (getSearch url).tail

/-- A path, or an authority behind its scheme with anything behind it. -/
def IsRequestUrl (url : JsString) : Prop :=
  url.head? = some slash ∨
    ∃ scheme rest, url = scheme ++ colonSlashSlash ++ rest ∧
      ∀ c ∈ scheme, c ≠ 58 ∧ c ≠ 47 ∧ c ≠ 63 ∧ c ≠ 35

/-! ### A text in three pieces -/

theorem indexOf_append {front : JsString} {c : CodeUnit} (h : c ∉ front) (rest : JsString) :
    indexOf (front ++ rest) c = (indexOf rest c).map (· + front.length) := by
  have hfront : front.findIdx? (· == c) = none := indexOf_none h
  rw [indexOf, List.findIdx?_append, hfront, Option.none_or]
  rfl

/-- What stands in front of a query, the query with its question mark and the fragment. -/
structure Pieces (front search fragment : JsString) : Prop where
  plain : 63 ∉ front ∧ 35 ∉ front
  search_form : search = [] ∨ ∃ query, search = 63 :: query ∧ 35 ∉ query
  fragment_form : fragment = [] ∨ ∃ rest, fragment = 35 :: rest

theorem exists_pieces (text : JsString) :
    ∃ front search fragment, text = front ++ search ++ fragment ∧ Pieces front search fragment := by
  obtain ⟨head, fragment, rfl, hhead, hfragment⟩ : ∃ head fragment, text = head ++ fragment ∧
      35 ∉ head ∧ (fragment = [] ∨ ∃ rest, fragment = 35 :: rest) := by
    by_cases h : (35 : CodeUnit) ∈ text
    · obtain ⟨head, rest, rfl, hhead⟩ := List.eq_append_cons_of_mem h
      exact ⟨head, 35 :: rest, rfl, hhead, .inr ⟨rest, rfl⟩⟩
    · exact ⟨text, [], (List.append_nil text).symm, h, .inl rfl⟩
  by_cases h : (63 : CodeUnit) ∈ head
  · obtain ⟨front, query, rfl, hfront⟩ := List.eq_append_cons_of_mem h
    rw [List.mem_append, List.mem_cons, not_or, not_or] at hhead
    exact ⟨front, 63 :: query, fragment, rfl, ⟨hfront, hhead.1⟩, .inr ⟨query, rfl, hhead.2.2⟩,
      hfragment⟩
  · exact ⟨head, [], fragment, by rw [List.append_nil], ⟨h, hhead⟩, .inl rfl, hfragment⟩

namespace Pieces

variable {front search fragment : JsString}

theorem hash_not_mem (h : Pieces front search fragment) : 35 ∉ front ++ search := by
  rw [List.mem_append, not_or]
  refine ⟨h.plain.2, ?_⟩
  rcases h.search_form with rfl | ⟨query, rfl, hquery⟩
  · exact List.not_mem_nil
  · rw [List.mem_cons, not_or]
    exact ⟨by decide, hquery⟩

theorem hash (h : Pieces front search fragment) :
    indexOf (front ++ search ++ fragment) 35 =
      if fragment = [] then none else some (front ++ search).length := by
  rcases h.fragment_form with rfl | ⟨rest, rfl⟩
  · rw [List.append_nil, if_pos rfl]
    exact indexOf_none h.hash_not_mem
  · rw [if_neg (List.cons_ne_nil _ _)]
    exact indexOf_append_cons h.hash_not_mem rest

/-- The fragment begins at the hash, or at the end of the text. -/
theorem hash_getD (h : Pieces front search fragment) :
    (indexOf (front ++ search ++ fragment) 35).getD (front ++ search ++ fragment).length =
      (front ++ search).length := by
  rw [h.hash]
  split
  · next hnil => rw [hnil, List.append_nil, Option.getD_none]
  · rw [Option.getD_some]

theorem query (h : Pieces front search fragment) (hne : search ≠ []) :
    indexOf (front ++ search ++ fragment) 63 = some front.length := by
  rcases h.search_form with rfl | ⟨query, rfl, -⟩
  · exact absurd rfl hne
  · rw [List.append_assoc]
    exact indexOf_append_cons h.plain.1 (query ++ fragment)

/-- Without a query a question mark may still stand in the fragment. -/
theorem query_behind (h : Pieces front search fragment) (hnil : search = []) :
    indexOf (front ++ search ++ fragment) 63 = none ∨ ∃ k > (front ++ search).length,
      indexOf (front ++ search ++ fragment) 63 = some k ∧ fragment ≠ [] := by
  subst hnil
  rw [List.append_nil]
  rcases h.fragment_form with rfl | ⟨rest, rfl⟩
  · rw [List.append_nil]
    exact .inl (indexOf_none h.plain.1)
  · have hskip : indexOf (35 :: rest) 63 = (indexOf rest 63).map (· + 1) :=
      @indexOf_append [35] 63 (by decide) rest
    rw [indexOf_append h.plain.1, hskip]
    cases indexOf rest 63 with
    | none => exact .inl rfl
    | some k =>
        refine .inr ⟨k + 1 + front.length, ?_, rfl, List.cons_ne_nil _ _⟩
        omega

/-- `getSearch` gives the query. -/
theorem getSearch (h : Pieces front search fragment) :
    getSearch (front ++ search ++ fragment) = search := by
  rw [Http.getSearch, h.hash_getD]
  by_cases hnil : search = []
  · rcases h.query_behind hnil with hnone | ⟨k, hk, hsome, -⟩
    · rw [hnone, hnil]
    · rw [hsome]
      dsimp only
      rw [if_pos hk, hnil]
  · rw [h.query hnil]
    dsimp only
    rw [if_neg (by rw [List.length_append]; omega), List.take_left, List.drop_left]

/-- `c.querystring` of a text is the query without its question mark. -/
theorem querystring (h : Pieces front search fragment) :
    contextQuerystring (front ++ search ++ fragment) = search.tail := by
  rw [contextQuerystring, h.hash]
  by_cases hnil : search = []
  · rcases h.query_behind hnil with hnone | ⟨k, hk, hsome, hne⟩
    · rw [hnone, hnil]
      rfl
    · rw [hsome, if_neg hne]
      dsimp only
      rw [if_pos hk, hnil]
      rfl
  · rw [h.query hnil]
    have hsearch : ∀ rest : JsString, (front ++ search ++ rest).drop (front.length + 1) =
        search.tail ++ rest := by
      intro rest
      rw [← List.drop_drop, List.append_assoc, List.drop_left]
      obtain ⟨c, query, rfl⟩ := List.exists_cons_of_ne_nil hnil
      rfl
    by_cases hfragment : fragment = []
    · rw [if_pos hfragment, hfragment]
      dsimp only
      rw [hsearch, List.append_nil]
    · rw [if_neg hfragment]
      dsimp only
      have hdrop := hsearch []
      rw [List.append_nil, List.append_nil] at hdrop
      rw [if_neg (by rw [List.length_append]; omega), List.take_left, hdrop]

end Pieces

/-- The path is what stands in front of any question mark and hash. -/
theorem takeWhile_path {path search fragment : JsString} (h : Pieces path search fragment) :
    ((path ++ search ++ fragment).takeWhile fun c => !(c = 63 || c = 35)) = path := by
  have hkept : ∀ c ∈ path, (!(c = 63 || c = 35)) = true := by
    intro c hc
    simp only [Bool.not_eq_true', Bool.or_eq_false_iff, decide_eq_false_iff_not]
    constructor
    · rintro rfl
      exact h.plain.1 hc
    · rintro rfl
      exact h.plain.2 hc
  rw [List.append_assoc, List.takeWhile_append_of_pos hkept]
  rcases h.search_form with rfl | ⟨query, rfl, -⟩
  · rcases h.fragment_form with rfl | ⟨rest, rfl⟩
    · exact List.append_nil path
    · exact List.append_nil path
  · exact List.append_nil path

/-! ### A URL in its pieces -/

structure Cut (origin path search fragment : JsString) : Prop where
  start : getPathStart (origin ++ (path ++ search ++ fragment)) = origin.length
  origin_plain : 63 ∉ origin ∧ 35 ∉ origin
  rooted : path = [] ∨ path.head? = some slash
  pieces : Pieces path search fragment

theorem indexOfText_scheme {scheme : JsString} (h : 58 ∉ scheme) (rest : JsString) :
    indexOfText colonSlashSlash (scheme ++ colonSlashSlash ++ rest) = some scheme.length := by
  induction scheme with
  | nil => rfl
  | cons c scheme ih =>
      rw [List.mem_cons, not_or] at h
      have hhead : startsWith (c :: scheme ++ colonSlashSlash ++ rest) colonSlashSlash = false := by
        rw [startsWith, colonSlashSlash, Bool.eq_false_iff, ne_eq, List.isPrefixOf_iff_prefix]
        exact fun hpre => h.1 (List.cons_prefix_cons.mp hpre).1
      rw [List.cons_append, List.cons_append] at hhead ⊢
      rw [indexOfText, hhead, if_neg Bool.false_ne_true, ih h.2]
      rfl

/-- A path begins where the origin ends, unless there is none. -/
theorem rooted_of_head {path search fragment : JsString} (h : Pieces path search fragment)
    (hends : ∀ c ∈ (path ++ search ++ fragment).head?, endsAuthorityPart c = true) :
    path = [] ∨ path.head? = some slash := by
  cases path with
  | nil => exact .inl rfl
  | cons c path =>
      right
      have hc := hends c rfl
      obtain ⟨hquestion, hhash⟩ := h.plain
      rw [List.mem_cons, not_or] at hquestion hhash
      simp only [endsAuthorityPart, Bool.or_eq_true, decide_eq_true_eq] at hc
      rcases hc with (rfl | rfl) | rfl
      · rfl
      · exact absurd rfl hquestion.1
      · exact absurd rfl hhash.1

theorem takeWhile_authority {authority tail : JsString}
    (hauthority : ∀ c ∈ authority, endsAuthorityPart c = false)
    (htail : ∀ c ∈ tail.head?, endsAuthorityPart c = true) :
    ((authority ++ tail).takeWhile fun c => !endsAuthorityPart c) = authority := by
  rw [List.takeWhile_append_of_pos fun c hc => by rw [hauthority c hc]; rfl]
  cases tail with
  | nil => rw [List.takeWhile_nil, List.append_nil]
  | cons c tail =>
      rw [List.takeWhile_cons_of_neg (by rw [htail c rfl]; exact Bool.false_ne_true),
        List.append_nil]

/-- Behind a scheme the path begins where the authority ends. -/
theorem getPathStart_scheme {scheme authority tail : JsString}
    (hscheme : ∀ c ∈ scheme, c ≠ 58 ∧ c ≠ 47 ∧ c ≠ 63 ∧ c ≠ 35)
    (hauthority : ∀ c ∈ authority, endsAuthorityPart c = false)
    (htail : ∀ c ∈ tail.head?, endsAuthorityPart c = true) :
    getPathStart (scheme ++ colonSlashSlash ++ (authority ++ tail)) =
      (scheme ++ colonSlashSlash ++ authority).length := by
  have hhead : (scheme ++ colonSlashSlash ++ (authority ++ tail)).head? ≠ some slash := by
    cases scheme with
    | nil => exact fun h => absurd (Option.some.inj h) (by decide)
    | cons c scheme =>
        intro h
        exact (hscheme c List.mem_cons_self).2.1 (Option.some.inj h)
  have hdrop : (scheme ++ colonSlashSlash ++ (authority ++ tail)).drop (scheme.length + 3) =
      authority ++ tail := List.drop_left' (by rw [List.length_append]; rfl)
  rw [getPathStart, if_neg hhead, indexOfText_scheme fun h => (hscheme 58 h).1 rfl]
  dsimp only
  rw [hdrop, takeWhile_authority hauthority htail, List.length_append, List.length_append]
  rfl

theorem exists_authority (text : JsString) :
    ∃ authority tail, text = authority ++ tail ∧
      (∀ c ∈ authority, endsAuthorityPart c = false) ∧
        ∀ c ∈ tail.head?, endsAuthorityPart c = true := by
  refine ⟨text.takeWhile fun c => !endsAuthorityPart c,
    text.dropWhile fun c => !endsAuthorityPart c, List.takeWhile_append_dropWhile.symm, ?_, ?_⟩
  · intro c hc
    simpa using List.mem_takeWhile_imp hc
  · intro c hc
    have hkept := List.head?_dropWhile_not (fun c => !endsAuthorityPart c) text
    rw [hc] at hkept
    simpa using hkept

theorem exists_cut {url : JsString} (h : IsRequestUrl url) :
    ∃ origin path search fragment, url = origin ++ (path ++ search ++ fragment) ∧
      Cut origin path search fragment := by
  rcases h with hslash | ⟨scheme, rest, rfl, hscheme⟩
  · obtain ⟨path, search, fragment, rfl, hpieces⟩ := exists_pieces url
    refine ⟨[], path, search, fragment, rfl, ?_, ⟨List.not_mem_nil, List.not_mem_nil⟩, ?_, hpieces⟩
    · rw [List.nil_append, getPathStart, if_pos hslash]
      rfl
    · apply rooted_of_head hpieces
      intro c hc
      obtain rfl := Option.some.inj (hslash.symm.trans hc)
      rfl
  · obtain ⟨authority, tail, rfl, hauthority, htail⟩ := exists_authority rest
    obtain ⟨path, search, fragment, rfl, hpieces⟩ := exists_pieces tail
    have hplain : ∀ k, endsAuthorityPart k = true → k ∉ authority := fun k hk hmem => by
      rw [hauthority k hmem] at hk
      cases hk
    refine ⟨scheme ++ colonSlashSlash ++ authority, path, search, fragment, ?_, ⟨?_, ⟨?_, ?_⟩,
      rooted_of_head hpieces htail, hpieces⟩⟩
    · simp only [List.append_assoc]
    · rw [List.append_assoc (scheme ++ colonSlashSlash)]
      exact getPathStart_scheme hscheme hauthority htail
    · rw [List.mem_append, List.mem_append, not_or, not_or]
      exact ⟨⟨fun h => (hscheme 63 h).2.2.1 rfl, by decide⟩, hplain 63 rfl⟩
    · rw [List.mem_append, List.mem_append, not_or, not_or]
      exact ⟨⟨fun h => (hscheme 35 h).2.2.2 rfl, by decide⟩, hplain 35 rfl⟩

namespace Cut

variable {origin path search fragment : JsString}

/-- The pieces, with the origin in front of the path. -/
theorem joined (h : Cut origin path search fragment) :
    Pieces (origin ++ path) search fragment := by
  refine ⟨?_, h.pieces.search_form, h.pieces.fragment_form⟩
  rw [List.mem_append, List.mem_append, not_or, not_or]
  exact ⟨⟨h.origin_plain.1, h.pieces.plain.1⟩, h.origin_plain.2, h.pieces.plain.2⟩

theorem getSearch (h : Cut origin path search fragment) :
    getSearch (origin ++ (path ++ search ++ fragment)) = search := by
  have hsearch := h.joined.getSearch
  simpa only [List.append_assoc] using hsearch

theorem querystring (h : Cut origin path search fragment) :
    contextQuerystring (origin ++ (path ++ search ++ fragment)) = search.tail := by
  have hquerystring := h.joined.querystring
  simpa only [List.append_assoc] using hquerystring

theorem getPath (h : Cut origin path search fragment) :
    getPath (origin ++ (path ++ search ++ fragment)) = if path = [] then [slash] else path := by
  rw [Http.getPath, h.start, List.drop_left, takeWhile_path h.pieces]

/-- What `c.url` shows is a URL with the same path and query. -/
theorem shown (h : Cut origin path search fragment) :
    Cut [] (if path = [] then [slash] else path) search [] := by
  have hrooted : (if path = [] then [slash] else path).head? = some slash := by
    split
    · rfl
    · next hne => exact h.rooted.resolve_left hne
  have hpieces : Pieces (if path = [] then [slash] else path) search [] := by
    refine ⟨?_, h.pieces.search_form, .inl rfl⟩
    split
    · exact ⟨by decide, by decide⟩
    · exact h.pieces.plain
  refine ⟨?_, ⟨List.not_mem_nil, List.not_mem_nil⟩, .inr hrooted, hpieces⟩
  rw [List.nil_append, getPathStart, if_pos]
  · rfl
  · rw [List.append_nil, List.head?_append, hrooted]
    rfl

end Cut

/-! ### The one pass -/

theorem slice_origin (origin text : JsString) (k : ℕ) :
    slice (origin ++ text) origin.length (k + origin.length) = text.take k := by
  rw [slice, List.drop_take, List.drop_left, Nat.add_sub_cancel]

theorem getD_shift (found : Option ℕ) (origin text : JsString) :
    (found.map (· + origin.length)).getD (origin ++ text).length =
      found.getD text.length + origin.length := by
  cases found with
  | none => rw [Option.map_none, Option.getD_none, Option.getD_none, List.length_append,
      Nat.add_comm]
  | some k => rfl

/-- The pass sees a query just where there is one. -/
theorem sawQuery_eq {path search fragment : JsString} (h : Pieces path search fragment) (n : ℕ) :
    (((indexOf (path ++ search ++ fragment) 63).map (· + n)).any fun query =>
      ((indexOf (path ++ search ++ fragment) 35).map (· + n)).all fun hash => query < hash) =
        decide (search ≠ []) := by
  rw [h.hash]
  by_cases hnil : search = []
  · rw [decide_eq_false (not_not_intro hnil)]
    rcases h.query_behind hnil with hnone | ⟨k, hk, hsome, hne⟩
    · rw [hnone]
      rfl
    · rw [hsome, if_neg hne]
      simp only [Option.map_some, Option.any_some, Option.all_some, decide_eq_false_iff_not]
      omega
  · rw [decide_eq_true hnil, h.query hnil]
    have hpos := List.length_pos_iff.mpr hnil
    split
    · rfl
    · simp only [Option.map_some, Option.any_some, Option.all_some, decide_eq_true_eq,
        List.length_append]
      omega

/-- The pass fills the slots with what `getPath` and `getSearch` give. -/
theorem primeRequestUrl_eq {url : JsString} (h : IsRequestUrl url) (c : UrlSlots) :
    primeRequestUrl c url = (getPath url, { c with
      pathValue := some (getPath url), urlValue := some (getPath url ++ getSearch url) }) := by
  obtain ⟨origin, path, search, fragment, rfl, hcut⟩ := exists_cut h
  have hpath : (path ++ search ++ fragment).take path.length = path := by
    rw [List.append_assoc, List.take_left]
  have hview : (path ++ search ++ fragment).take (path ++ search).length = path ++ search :=
    List.take_left
  rw [primeRequestUrl, hcut.start, unitIndexFrom, unitIndexFrom, List.drop_left,
    sawQuery_eq hcut.pieces, hcut.getPath, hcut.getSearch]
  by_cases hnil : search = []
  · subst hnil
    rw [decide_eq_false (not_not_intro rfl)]
    simp only [Bool.false_eq_true, if_false, Bool.false_and, getD_shift, hcut.pieces.hash_getD,
      slice_origin, hview]
    simp only [List.append_nil]
  · rw [decide_eq_true hnil]
    simp only [if_true, Bool.true_and, decide_eq_true_eq, getD_shift, hcut.pieces.hash_getD,
      hcut.pieces.query hnil, Option.getD_some, slice_origin, hview, hpath]
    split
    · next hempty => rw [hempty]; rfl
    · rfl

/-! ### The readers -/

structure Shown (target : JsString) (c : UrlSlots) : Prop where
  source : c.sourceUrl = target
  path : ∀ value ∈ c.pathValue, value = urlView target .path
  url : ∀ value ∈ c.urlValue, value = urlView target .url
  querystring : ∀ value ∈ c.querystringValue, value = urlView target .querystring

theorem Shown.fresh (target : JsString) : Shown target { sourceUrl := target } :=
  ⟨rfl, fun _ h => absurd h (by simp), fun _ h => absurd h (by simp), fun _ h => absurd h (by simp)⟩

/-- The path and the query of what `c.url` shows are those of the URL itself. -/
theorem view_of_url {target : JsString} (h : IsRequestUrl target) :
    getPath (urlView target .url) = urlView target .path ∧
      contextQuerystring (urlView target .url) = urlView target .querystring ∧
        contextQuerystring target = urlView target .querystring := by
  obtain ⟨origin, path, search, fragment, rfl, hcut⟩ := exists_cut h
  have hne : (if path = [] then [slash] else path) ≠ [] := by
    split
    · exact List.cons_ne_nil _ _
    · next hne => exact hne
  have hpath := hcut.shown.getPath
  have hquerystring := hcut.shown.querystring
  rw [List.append_nil, List.nil_append, if_neg hne] at hpath
  rw [List.append_nil, List.nil_append] at hquerystring
  rw [urlView, urlView, urlView, hcut.getPath, hcut.getSearch]
  exact ⟨hpath, hquerystring, hcut.querystring⟩

namespace Shown

variable {target : JsString} {c : UrlSlots}

theorem primed (h : Shown target c) (htarget : IsRequestUrl target) :
    Shown target (primeRequestUrl c target).2 := by
  rw [primeRequestUrl_eq htarget]
  exact ⟨h.source, fun _ hvalue => (Option.some.inj hvalue).symm,
    fun _ hvalue => (Option.some.inj hvalue).symm, h.querystring⟩

theorem read_url (h : Shown target c) :
    c.url.1 = urlView target .url ∧ Shown target c.url.2 := by
  rw [UrlSlots.url]
  split
  · next value hvalue => exact ⟨h.url value hvalue, h⟩
  · have hview : getPath c.sourceUrl ++ getSearch c.sourceUrl = urlView target .url := by
      rw [h.source]
      rfl
    dsimp only
    rw [hview]
    exact ⟨rfl, h.source, h.path, fun _ hvalue => (Option.some.inj hvalue).symm, h.querystring⟩

theorem read_path (h : Shown target c) (htarget : IsRequestUrl target) :
    c.path.1 = urlView target .path ∧ Shown target c.path.2 := by
  rw [UrlSlots.path]
  split
  · next value hvalue => exact ⟨h.path value hvalue, h⟩
  · obtain ⟨hvalue, hnext⟩ := h.read_url
    dsimp only
    rw [hvalue, (view_of_url htarget).1]
    exact ⟨rfl, hnext.source, fun _ hvalue => (Option.some.inj hvalue).symm, hnext.url,
      hnext.querystring⟩

theorem read_querystring (h : Shown target c) (htarget : IsRequestUrl target) :
    c.querystring.1 = urlView target .querystring ∧ Shown target c.querystring.2 := by
  rw [UrlSlots.querystring]
  split
  · next value hvalue => exact ⟨h.querystring value hvalue, h⟩
  · have hview : contextQuerystring (c.urlValue.getD c.sourceUrl) =
        urlView target .querystring := by
      cases hurl : c.urlValue with
      | none =>
          rw [Option.getD_none, h.source]
          exact (view_of_url htarget).2.2
      | some value =>
          rw [Option.getD_some, h.url value hurl]
          exact (view_of_url htarget).2.1
    dsimp only
    rw [hview]
    exact ⟨rfl, h.source, h.path, h.url, fun _ hvalue => (Option.some.inj hvalue).symm⟩

/-- A getter gives its view, whatever is in the slots already. -/
theorem read (h : Shown target c) (htarget : IsRequestUrl target) (getter : UrlGetter) :
    (c.read getter).1 = urlView target getter ∧ Shown target (c.read getter).2 := by
  cases getter with
  | url => exact h.read_url
  | path => exact h.read_path htarget
  | querystring => exact h.read_querystring htarget
  | search =>
      obtain ⟨hvalue, hnext⟩ := h.read_querystring htarget
      refine ⟨?_, hnext⟩
      rw [UrlSlots.read, UrlSlots.search]
      dsimp only
      rw [hvalue]
      rfl

theorem reads (h : Shown target c) (htarget : IsRequestUrl target) (getters : List UrlGetter) :
    (c.reads getters).1 = getters.map (urlView target) ∧ Shown target (c.reads getters).2 := by
  induction getters generalizing c with
  | nil => exact ⟨rfl, h⟩
  | cons getter getters ih =>
      obtain ⟨hvalue, hnext⟩ := h.read htarget getter
      obtain ⟨hvalues, hend⟩ := ih hnext
      refine ⟨?_, hend⟩
      rw [UrlSlots.reads, List.map_cons]
      dsimp only
      rw [hvalue, hvalues]

end Shown

/-- Whatever was read before, a context that is primed shows the same views of its URL as one that
is not, and the path that is routed is one of them. -/
theorem primed_views {target : JsString} (h : IsRequestUrl target)
    (before getters : List UrlGetter) :
    let c := (UrlSlots.reads { sourceUrl := target } before).2
    ((primeRequestUrl c target).2.reads getters).1 = (c.reads getters).1 ∧
      (c.reads getters).1 = getters.map (urlView target) ∧
        (primeRequestUrl c target).1 = urlView target .path := by
  have hshown := ((Shown.fresh target).reads h before).2
  have hprimed := ((hshown.primed h).reads h getters).1
  have hunprimed := (hshown.reads h getters).1
  refine ⟨hprimed.trans hunprimed.symm, hunprimed, ?_⟩
  rw [primeRequestUrl_eq h]
  rfl

theorem primed_views_fragment :
    let target := js "http://host?#/a?b://c"
    let c := (UrlSlots.reads { sourceUrl := target } [.querystring]).2
    ((primeRequestUrl c target).2.reads [.path, .url, .search]).1 =
        (c.reads [.path, .url, .search]).1 ∧
      (c.reads [.path, .url, .search]).1 = [js "/", js "/?", js ""] ∧
        (primeRequestUrl c target).1 = js "/" :=
  primed_views (.inr ⟨js "http", js "host?#/a?b://c", rfl, fun c hc =>
    of_decide_eq_true (List.all_eq_true.mp
      (by decide : ((js "http").all fun c => c ≠ 58 ∧ c ≠ 47 ∧ c ≠ 63 ∧ c ≠ 35) = true) c hc)⟩)
    [.querystring] [.path, .url, .search]

end Keala.Http
