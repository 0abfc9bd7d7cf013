import Keala.Lib.Except
import Keala.Router.Overlap
import Keala.Router.Url

/-!
URLs read back by the router: a trie that holds one pattern captures from the
URL built for it what the URL was built from.
-/

namespace Keala.Router

open Keala.Js

/-! ### Splitting what was joined -/

theorem trailingSlash_join {parts : List JsString} (hne : parts ≠ [])
    (h : ∀ p ∈ parts, slash ∉ p) :
    trailingSlash (slash :: join slash parts) = true ↔ parts.getLast? = some [] := by
  have hsplit : split slash (slash :: join slash parts) = [] :: parts := by
    rw [split_cons_self, split_join h hne]
  have hends := getLast?_eq_sep_iff slash (List.cons_ne_nil slash (join slash parts))
  rw [hsplit, List.getLast?_cons_of_ne_nil hne] at hends
  rw [trailingSlash, decide_eq_true_eq]
  exact hends

theorem splitSegments_join {parts : List JsString} (hne : parts ≠ [])
    (h : ∀ p ∈ parts, slash ∉ p) (hlast : parts.getLast? ≠ some []) :
    splitSegments (slash :: join slash parts) = parts := by
  have hkeep : normalizePath (slash :: join slash parts) = slash :: join slash parts := by
    rw [normalizePath, if_neg]
    rintro ⟨-, hslash⟩
    exact hlast ((trailingSlash_join hne h).mp (decide_eq_true hslash))
  rw [splitSegments, hkeep, split_cons_self, split_join h hne, List.tail_cons, if_neg]
  rintro rfl
  exact hlast rfl

/-- The router drops one slash from the end. -/
theorem splitSegments_join_concat {parts : List JsString} (h : ∀ p ∈ parts, slash ∉ p) :
    splitSegments (slash :: join slash (parts ++ [[]])) = if parts = [[]] then [] else parts := by
  rcases eq_or_ne parts [] with rfl | hne
  · rfl
  · have hcut : normalizePath (slash :: join slash (parts ++ [[]])) =
        slash :: join slash parts := by
      rw [join_concat slash hne, ← List.cons_append, normalizePath,
        if_pos ⟨by simp, List.getLast?_concat⟩, List.dropLast_concat]
    rw [splitSegments, hcut, split_cons_self, split_join h hne]
    rfl

theorem join_eq_nil_iff {parts : List JsString} (hne : parts ≠ []) :
    join slash parts = [] ↔ parts = [[]] := by
  constructor
  · intro h
    match parts, hne with
    | [p], _ => rw [← h, join_singleton]
    | p :: q :: rest, _ =>
        rw [join_cons_cons] at h
        simp at h
  · rintro rfl
    rfl

/-- The parts of a wildcard value take their place among the others. -/
theorem join_concat_join {parts more : List JsString} (hparts : parts ≠ []) (hmore : more ≠ []) :
    join slash (parts ++ [join slash more]) = join slash (parts ++ more) := by
  rw [join_append slash hparts (List.cons_ne_nil _ _), join_append slash hparts hmore,
    join_singleton]

theorem head?_join {part : JsString} (h : part ≠ []) (parts : List JsString) :
    (join slash (part :: parts)).head? = part.head? := by
  obtain ⟨c, rest, rfl⟩ := List.exists_cons_of_ne_nil h
  cases parts with
  | nil => rw [join_singleton]
  | cons q parts =>
      rw [join_cons_cons]
      rfl

theorem head?_join_ne_slash {parts : List JsString} (h : ∀ p ∈ parts, p ≠ [] ∧ slash ∉ p)
    (hne : parts ≠ []) (more : List JsString) :
    (join slash (parts ++ more)).head? ≠ some slash := by
  obtain ⟨part, rest, rfl⟩ := List.exists_cons_of_ne_nil hne
  obtain ⟨hpart, hslash⟩ := h part List.mem_cons_self
  rw [List.cons_append, head?_join hpart]
  intro heq
  exact hslash (List.mem_of_head? heq)

theorem getLast?_map_decodeSegment (parts : List JsString) :
    (parts.map decodeSegment).getLast? = some [] ↔ parts.getLast? = some [] := by
  rw [List.getLast?_map, Option.map_eq_some_iff]
  constructor
  · rintro ⟨part, hpart, hnil⟩
    rw [hpart, (decodeSegment_eq_nil_iff part).mp hnil]
  · intro h
    exact ⟨[], h, rfl⟩

/-! ### What is written -/

/-- What a URL needs of an assignment: a value for every segment that the
router will read back there. -/
structure Assigns (host : Host) (params : JsString → Option JsString)
    (segments : List CompiledSegment) : Prop where
  required : ∀ segment ∈ segments, segment.optional = false
  statics : ∀ value, .static value ∈ segments → isWellFormed value = true
  values : ∀ name pattern optional, .param name pattern optional ∈ segments →
    ∃ value, params name = some value ∧ value ≠ [] ∧ isWellFormed value = true ∧
      satisfies host pattern value = true
  wildcard : .wildcard ∈ segments →
    ∃ value, params wildcardName = some value ∧ isWellFormed value = true

theorem Assigns.sublist {host : Host} {params : JsString → Option JsString}
    {segments front : List CompiledSegment} (h : Assigns host params segments)
    (hsub : ∀ segment ∈ front, segment ∈ segments) : Assigns host params front where
  required segment hmem := h.required segment (hsub segment hmem)
  statics value hmem := h.statics value (hsub _ hmem)
  values name pattern optional hmem := h.values name pattern optional (hsub _ hmem)
  wildcard hmem := h.wildcard (hsub _ hmem)

def given (params : JsString → Option JsString) (segments : List CompiledSegment) :
    List (JsString × JsString) :=
  segments.filterMap fun
    | .param name _ _ => (params name).map fun value => (name, value)
    | _ => none

theorem mem_given {params : JsString → Option JsString} {segments : List CompiledSegment}
    {p : JsString × JsString} (h : p ∈ given params segments) : params p.1 = some p.2 := by
  obtain ⟨segment, -, hp⟩ := List.mem_filterMap.mp h
  cases segment with
  | static value => cases hp
  | param name pattern optional =>
      obtain ⟨value, hvalue, rfl⟩ := Option.map_eq_some_iff.mp hp
      exact hvalue
  | wildcard => cases hp

theorem urlParts_append (params : JsString → Option JsString)
    {front rest : List CompiledSegment} {parts more : List JsString}
    (hfront : urlParts params front = .ok parts) (hrest : urlParts params rest = .ok more) :
    urlParts params (front ++ rest) = .ok (parts ++ more) := by
  induction front generalizing parts with
  | nil =>
      cases hfront
      exact hrest
  | cons segment front ih =>
      rw [urlParts] at hfront
      obtain ⟨part, hpart, hfront⟩ := Except.ok_of_bind hfront
      obtain ⟨parts, hparts, hfront⟩ := Except.ok_of_bind hfront
      cases hfront
      rw [List.cons_append, urlParts, hpart, ih hparts, List.append_assoc]
      rfl

/-- Ahead of the wildcard every segment is written as one part, which the
router reads back there. -/
theorem urlParts_front {host : Host} {params : JsString → Option JsString}
    {front : List CompiledSegment} (h : Assigns host params front)
    (hstatic : ∀ value, .static value ∈ front → value ≠ []) (hwild : .wildcard ∉ front) :
    ∃ parts, urlParts params front = .ok parts ∧ (∀ p ∈ parts, p ≠ [] ∧ slash ∉ p) ∧
      (parts = [] ↔ front = []) ∧
      ∀ trailing rest segments found, Matches host trailing rest segments found →
        Matches host trailing (front ++ rest) (parts.map decodeSegment ++ segments)
          (given params front ++ found) := by
  induction front with
  | nil => exact ⟨[], rfl, by simp, by simp, fun _ _ _ _ hrest => hrest⟩
  | cons segment front ih =>
      obtain ⟨parts, hparts, hkept, -, hmatches⟩ :=
        ih (h.sublist fun s hs => List.mem_cons_of_mem _ hs)
          (fun value hvalue => hstatic value (List.mem_cons_of_mem _ hvalue))
          fun hmem => hwild (List.mem_cons_of_mem _ hmem)
      cases segment with
      | static value =>
          have hne := hstatic value List.mem_cons_self
          obtain ⟨encoded, hencoded⟩ :=
            (exists_encodeComponent_iff value).mpr (h.statics value List.mem_cons_self)
          refine ⟨encoded :: parts, ?_, ?_, by simp, ?_⟩
          · rw [urlParts, urlPart, hencoded, hparts]
            rfl
          · rw [List.forall_mem_cons]
            exact ⟨⟨encoded_ne_nil hencoded hne, slash_not_mem_encoded hencoded⟩, hkept⟩
          · intro trailing rest segments found hrest
            rw [List.map_cons, decodeSegment_encoded hencoded]
            exact .static (hmatches trailing rest segments found hrest)
      | param name pattern optional =>
          obtain ⟨value, hvalue, hne, hformed, hsat⟩ :=
            h.values name pattern optional List.mem_cons_self
          obtain ⟨encoded, hencoded⟩ := (exists_encodeComponent_iff value).mpr hformed
          refine ⟨encoded :: parts, ?_, ?_, by simp, ?_⟩
          · have hpart : urlPart params (.param name pattern optional) = .ok (some encoded) := by
              rw [urlPart, hvalue, Option.filter_some, if_pos (by simpa using hne)]
              exact congrArg (Except.map some) hencoded
            rw [urlParts, hpart, hparts]
            rfl
          · rw [List.forall_mem_cons]
            exact ⟨⟨encoded_ne_nil hencoded hne, slash_not_mem_encoded hencoded⟩, hkept⟩
          · intro trailing rest segments found hrest
            have hgiven : given params (.param name pattern optional :: front) =
                (name, value) :: given params front := by
              rw [given, List.filterMap_cons_some (b := (name, value))]
              · rfl
              · dsimp only
                rw [hvalue]
                rfl
            rw [List.map_cons, decodeSegment_encoded hencoded, hgiven]
            exact .consume hne hsat (hmatches trailing rest segments found hrest)
      | wildcard => exact absurd List.mem_cons_self hwild

/-- A wildcard value is written part by part. -/
theorem encodePathValue_spec {value : JsString} (h : isWellFormed value = true) :
    ∃ parts, encodePathValue value = .ok (join slash parts) ∧ parts ≠ [] ∧
      (∀ p ∈ parts, slash ∉ p) ∧ parts.map decodeSegment = split slash value := by
  obtain ⟨parts, hparts⟩ : ∃ parts, (split slash value).mapM encodeComponent = .ok parts :=
    Except.exists_mapM fun part hpart =>
      (exists_encodeComponent_iff part).mpr (isWellFormed_of_mem_split h hpart)
  have hread := Except.forall₂_of_mapM hparts
  refine ⟨parts, ?_, ?_, ?_, ?_⟩
  · rw [encodePathValue, hparts]
    rfl
  · rintro rfl
    exact split_ne_nil slash value (List.forall₂_nil_right_iff.mp hread)
  · clear hparts
    generalize split slash value = values at hread
    induction hread with
    | nil => exact fun _ hp => absurd hp List.not_mem_nil
    | cons hpart _ ih =>
        rw [List.forall_mem_cons]
        exact ⟨slash_not_mem_encoded hpart, ih⟩
  · clear hparts
    generalize split slash value = values at hread
    induction hread with
    | nil => rfl
    | cons hpart _ ih => rw [List.map_cons, decodeSegment_encoded hpart, ih]

/-! ### What is read back -/

/-- What a wildcard captures from its parts: their text, unless it ends in the
slash that the router drops. -/
theorem wildcard_read (host : Host) {parts more : List JsString}
    (hparts : ∀ p ∈ parts, p ≠ [] ∧ slash ∉ p) (hmore : ∀ p ∈ more, slash ∉ p)
    (hne : more ≠ []) :
    ∃ segments found,
      decodedSegments (slash :: join slash (parts ++ more)) =
        parts.map decodeSegment ++ segments ∧
      Matches host (trailingSlash (slash :: join slash (parts ++ more))) [.wildcard] segments
        found ∧
      (∀ p ∈ found, p.1 = wildcardName) ∧
      ((join slash (more.map decodeSegment)).getLast? ≠ some slash →
        found = [(wildcardName, join slash (more.map decodeSegment))]) := by
  have hall : ∀ p ∈ parts ++ more, slash ∉ p := by
    intro p hp
    rcases List.mem_append.mp hp with hp | hp
    · exact (hparts p hp).2
    · exact hmore p hp
  have hlast : (parts ++ more).getLast? = more.getLast? := List.getLast?_append_of_ne_nil _ hne
  have htrailing := trailingSlash_join (by simp [hne]) hall
  rw [hlast] at htrailing
  by_cases hend : more.getLast? = some []
  · -- The last part is empty: the router reads a slash at the end, and drops it.
    rw [htrailing.mpr hend]
    obtain ⟨front, rfl⟩ := List.getLast?_eq_some_iff.mp hend
    have hfront : ∀ p ∈ parts ++ front, slash ∉ p := by
      intro p hp
      apply hall p
      rw [← List.append_assoc]
      exact List.mem_append_left _ hp
    have hsplit := splitSegments_join_concat hfront
    rw [List.append_assoc] at hsplit
    rcases eq_or_ne front [] with rfl | hfrontne
    · -- The empty value: the bare path with its slash.
      refine ⟨[], [(wildcardName, [])], ?_, .slash rfl, by simp, fun _ => rfl⟩
      rw [List.append_nil] at hsplit
      rw [decodedSegments, hsplit, if_neg, List.append_nil]
      rintro rfl
      exact (hparts [] List.mem_cons_self).1 rfl
    · have hslash : (join slash ((front ++ [[]]).map decodeSegment)).getLast? = some slash := by
        rw [List.map_append, List.map_singleton, (decodeSegment_eq_nil_iff []).mpr rfl,
          join_concat slash (by simp [hfrontne]), List.getLast?_concat]
      by_cases honly : parts ++ front = [[]]
      · -- Nothing but two slashes.
        obtain rfl : parts = [] := by
          cases parts with
          | nil => rfl
          | cons p parts =>
              have hp : p = [] := (List.cons.inj honly).1
              exact absurd hp (hparts p List.mem_cons_self).1
        rw [if_pos honly] at hsplit
        exact ⟨[], [(wildcardName, [])], by rw [decodedSegments, hsplit]; rfl, .slash rfl,
          by simp, fun h => absurd hslash h⟩
      · rw [if_neg honly] at hsplit
        have hdecoded : front.map decodeSegment ≠ [] := by simpa using hfrontne
        by_cases hrest : join slash (front.map decodeSegment) = []
        · exact ⟨_, [], by rw [decodedSegments, hsplit, List.map_append],
            .blank hdecoded hrest, by simp, fun h => absurd hslash h⟩
        · exact ⟨_, [(wildcardName, join slash (front.map decodeSegment))],
            by rw [decodedSegments, hsplit, List.map_append], .wildcard hdecoded hrest, by simp,
            fun h => absurd hslash h⟩
  · -- Without a slash at the end the parts are read as they are.
    have hsplit := splitSegments_join (by simp [hne]) hall (hlast ▸ hend)
    have hdecoded : more.map decodeSegment ≠ [] := by simpa using hne
    refine ⟨more.map decodeSegment, [(wildcardName, join slash (more.map decodeSegment))], ?_,
      .wildcard hdecoded ?_, by simp, fun _ => rfl⟩
    · rw [decodedSegments, hsplit, List.map_append]
    · rw [ne_eq, join_eq_nil_iff hdecoded]
      intro hblank
      have hnil : (more.map decodeSegment).getLast? = some [] := by rw [hblank]; rfl
      exact hend ((getLast?_map_decodeSegment more).mp hnil)

def rooted (parts : List JsString) : JsString :=
  if (join slash parts).head? = some slash then join slash parts else slash :: join slash parts

theorem buildURL_eq {params : JsString → Option JsString} {segments : List CompiledSegment}
    {parts : List JsString} (h : urlParts params segments = .ok parts) :
    buildURL segments params = .ok (rooted parts) := by
  rw [buildURL, h]
  cases parts with
  | nil => rfl
  | cons part parts => rfl

theorem rooted_front {parts : List JsString} (h : ∀ p ∈ parts, p ≠ [] ∧ slash ∉ p) :
    rooted parts = slash :: join slash parts := by
  rw [rooted, if_neg]
  cases parts with
  | nil => simp [join]
  | cons part parts =>
      have hhead := head?_join_ne_slash h (List.cons_ne_nil _ _) []
      rwa [List.append_nil] at hhead

/-- A wildcard value's slashes separate; one it starts with is the URL's own
when nothing stands ahead of it. -/
theorem rooted_wildcard {parts more : List JsString} (h : ∀ p ∈ parts, p ≠ [] ∧ slash ∉ p)
    (hmore : ∀ p ∈ more, slash ∉ p) (hne : more ≠ []) :
    ∃ written, written ≠ [] ∧ (∀ p ∈ written, p ∈ more) ∧
      rooted (parts ++ [join slash more]) = slash :: join slash (parts ++ written) ∧
      (written = more ∨ parts = [] ∧ more = [] :: written) := by
  rcases eq_or_ne parts [] with rfl | hparts
  · rw [List.nil_append, rooted, join_singleton]
    split
    · next hslash =>
        obtain ⟨part, rest, rfl⟩ := List.exists_cons_of_ne_nil hne
        have hblank : part = [] := by
          by_contra hpart
          rw [head?_join hpart] at hslash
          exact hmore part List.mem_cons_self (List.mem_of_head? hslash)
        subst hblank
        cases rest with
        | nil => cases hslash
        | cons next rest =>
            exact ⟨next :: rest, by simp, fun p hp => List.mem_cons_of_mem _ hp, rfl,
              .inr ⟨rfl, rfl⟩⟩
    · exact ⟨more, hne, fun _ hp => hp, rfl, .inl rfl⟩
  · refine ⟨more, hne, fun _ hp => hp, ?_, .inl rfl⟩
    have hhead := head?_join_ne_slash h hparts more
    rw [rooted, join_concat_join hparts hne, if_neg hhead]

/-! ### The trie of one pattern -/

theorem ensureVariant_createNode (name : JsString) (pattern : Option RegExp) :
    ensureVariant createNode name pattern =
      .ok (createNode.setVariants [⟨name, pattern, createNode, none⟩]) := rfl

/-- Nothing stands in the way of the first pattern. -/
theorem insertSegments_createNode (segments : List CompiledSegment) (names : List JsString) :
    (insertSegments segments names createNode).2 = .ok (shapesOf segments) := by
  induction segments generalizing names with
  | nil => rfl
  | cons segment rest ih =>
      cases segment with
      | static value =>
          have hrec : (insertSegments rest names createNode).2 = .ok (shapesOf rest) := ih names
          show (insertSegments rest names createNode).2.map _ = _
          rw [hrec]
          rfl
      | param name pattern optional =>
          have hfind : variantFor (createNode.setVariants [⟨name, pattern, createNode, none⟩])
              pattern = some ⟨name, pattern, createNode, none⟩ := by
            simp [variantFor, TrieNode.setVariants, TrieNode.variants, TrieNode.param,
              TrieNode.paramMore]
          have hconsume := ih (names ++ [name])
          have hskip := ih names
          rw [insertSegments, ensureVariant_createNode]
          simp only [hfind]
          rw [hconsume]
          cases optional with
          | false => simp [shapesOf]
          | true => simp [hskip, Except.map, shapesOf]
      | wildcard =>
          have hrec := ih (names ++ [wildcardName])
          show (insertSegments rest (names ++ [wildcardName]) createNode).2.map _ = _
          rw [hrec]
          rfl

theorem insertAll_single (segments : List CompiledSegment) :
    ∃ root assigned last, insertAll [segments] createNode 0 = .ok (root, assigned, last) := by
  have hins := insertSegments_createNode segments []
  rw [insertAll, insertPattern]
  cases hp : insertSegments segments [] createNode with
  | mk root outcome =>
      rw [hp] at hins
      simp only at hins
      subst hins
      exact ⟨_, _, _, rfl⟩

theorem shapesOf_required {segments : List CompiledSegment}
    (h : ∀ segment ∈ segments, segment.optional = false) : ∃ σ, shapesOf segments = [σ] := by
  induction segments with
  | nil => exact ⟨[], rfl⟩
  | cons segment rest ih =>
      obtain ⟨σ, hσ⟩ := ih fun s hs => h s (List.mem_cons_of_mem _ hs)
      cases segment with
      | static value => exact ⟨.static value :: σ, by simp [shapesOf, hσ]⟩
      | param name pattern optional =>
          obtain rfl : optional = false := h _ List.mem_cons_self
          exact ⟨.consume name pattern :: σ, by simp [shapesOf, hσ]⟩
      | wildcard => exact ⟨.wildcard :: σ, by simp [shapesOf, hσ]⟩

/-- A trie of one pattern without optional params captures what the pattern
does. -/
theorem matchPattern_single {host : Host} {path : JsString} {ir : PatternIR}
    (hir : compilePattern host path = .ok ir)
    (hrequired : ∀ segment ∈ ir.segments, segment.optional = false) {root : TrieNode}
    {assigned : List (List TargetRef)} {last : TargetRef}
    (hins : insertAll [ir.segments] createNode 0 = .ok (root, assigned, last)) {url : JsString}
    {found : List (JsString × JsString)}
    (hmatch : Matches host (trailingSlash url) ir.segments (decodedSegments url) found) :
    ∃ m, matchPattern host root url = some m ∧
      ∀ name, m.params name = lastCapture found name := by
  have hcompiled : ∀ p ∈ [ir], ∃ path, compilePattern host path = .ok p := by
    intro p hp
    rw [List.mem_singleton.mp hp]
    exact ⟨path, hir⟩
  obtain ⟨hnone, hsome⟩ := matchPattern_grammar host hcompiled hins url
  cases hm : matchPattern host root url with
  | none => exact absurd hmatch (hnone.mp hm ir (List.mem_singleton_self ir) found)
  | some m =>
      obtain ⟨σ, captured, hfirst⟩ := hsome m hm
      obtain ⟨τ, hτ, hcap⟩ := (matches_iff (compilePattern_wildcardLast hir) _ _).mp hmatch
      obtain ⟨only, honly⟩ := shapesOf_required hrequired
      have hσ : σ ∈ shapesOf ir.segments := by
        obtain ⟨e, he, hshape⟩ := hfirst.owns
        have hpattern := (List.of_mem_zip he).1
        rw [List.map_singleton, List.mem_singleton] at hpattern
        exact hpattern ▸ (List.of_mem_zip hshape).1
      rw [honly, List.mem_singleton] at hσ hτ
      subst hσ hτ
      obtain rfl : captured = found :=
        Option.some.inj (hfirst.captures.symm.trans hcap)
      exact ⟨m, rfl, hfirst.reads.params⟩

/-! ### The latest capture -/

theorem lastCapture_of_agree {found : List (JsString × JsString)}
    {params : JsString → Option JsString} {name : JsString}
    (hagree : ∀ p ∈ found, params p.1 = some p.2) (hmem : ∃ p ∈ found, p.1 = name) :
    lastCapture found name = params name := by
  rw [lastCapture]
  cases hfind : found.reverse.find? fun p => p.1 == name with
  | none =>
      obtain ⟨p, hp, rfl⟩ := hmem
      have hmiss := List.find?_eq_none.mp hfind p (List.mem_reverse.mpr hp)
      simp at hmiss
  | some q =>
      have hname : q.1 = name := by simpa using List.find?_some hfind
      have hq := hagree q (List.mem_reverse.mp (List.mem_of_find?_eq_some hfind))
      rw [← hname, hq]
      rfl

theorem lastCapture_append_other {found more : List (JsString × JsString)} {name : JsString}
    (h : ∀ p ∈ more, p.1 ≠ name) : lastCapture (found ++ more) name = lastCapture found name := by
  have hmiss : more.reverse.find? (fun p => p.1 == name) = none := by
    rw [List.find?_eq_none]
    intro p hp
    simpa using h p (List.mem_reverse.mp hp)
  rw [lastCapture, lastCapture, List.reverse_append, List.find?_append, hmiss]
  rfl

/-! ### The round trip -/

theorem static_ne_nil {host : Host} {path : JsString} {ir : PatternIR}
    (h : compilePattern host path = .ok ir) {value : JsString}
    (hmem : .static value ∈ ir.segments) : value ≠ [] := by
  have hparts : ∀ {parts : List JsString} {segments : List CompiledSegment},
      compileParts host path parts = .ok segments → .static value ∈ segments → value ≠ [] := by
    intro parts
    induction parts with
    | nil =>
        intro segments hsegments hmem
        cases hsegments
        exact absurd hmem List.not_mem_nil
    | cons raw parts ih =>
        intro segments hsegments hmem
        obtain ⟨segment, rest, rfl, hne, hsegment, hrest⟩ := compileParts_cons hsegments
        rcases List.mem_cons.mp hmem with rfl | hmem
        · rw [compileSegment_static hsegment, ne_eq, decodeSegment_eq_nil_iff]
          exact hne
        · exact ih hrest hmem
  exact hparts (compilePattern_parts h).2.1 hmem

theorem WildcardLast.split {segments : List CompiledSegment} (h : WildcardLast segments) :
    ∃ front, .wildcard ∉ front ∧ (segments = front ∨ segments = front ++ [.wildcard]) := by
  induction segments with
  | nil => exact ⟨[], List.not_mem_nil, .inl rfl⟩
  | cons segment rest ih =>
      cases segment with
      | static value =>
          obtain ⟨front, hfront, hrest⟩ := ih h
          refine ⟨.static value :: front, by simpa using hfront, ?_⟩
          rcases hrest with rfl | rfl
          · exact .inl rfl
          · exact .inr rfl
      | param name pattern optional =>
          obtain ⟨front, hfront, hrest⟩ := ih h
          refine ⟨.param name pattern optional :: front, by simpa using hfront, ?_⟩
          rcases hrest with rfl | rfl
          · exact .inl rfl
          · exact .inr rfl
      | wildcard =>
          obtain rfl : rest = [] := h
          exact ⟨[], List.not_mem_nil, .inr rfl⟩

/-- What a trie that holds only this pattern makes of the URL built for it. -/
def roundTrip (host : Host) (segments : List CompiledSegment)
    (params : JsString → Option JsString) : Option RouteMatch :=
  match insertAll [segments] createNode 0, buildURL segments params with
  | .ok (root, _), .ok url => matchPattern host root url
  | _, _ => none

/-- The wildcard's value has no slash where the router drops one or the URL
starts with its own. -/
def WildcardKept (params : JsString → Option JsString) (segments : List CompiledSegment) : Prop :=
  .wildcard ∈ segments → ∀ value, params wildcardName = some value →
    value.getLast? ≠ some slash ∧ (segments = [.wildcard] → value.head? ≠ some slash)

/-- The pattern matches the URL built for it, and captures what was given. -/
theorem buildURL_matches {host : Host} {params : JsString → Option JsString} {path : JsString}
    {ir : PatternIR} (hir : compilePattern host path = .ok ir)
    (hassigns : Assigns host params ir.segments) :
    ∃ url found, buildURL ir.segments params = .ok url ∧
      Matches host (trailingSlash url) ir.segments (decodedSegments url)
        (given params ir.segments ++ found) ∧
      (∀ p ∈ found, p.1 = wildcardName) ∧ (.wildcard ∉ ir.segments → found = []) ∧
      (WildcardKept params ir.segments → .wildcard ∈ ir.segments →
        ∃ value, params wildcardName = some value ∧ found = [(wildcardName, value)]) := by
  have hstatic : ∀ value, .static value ∈ ir.segments → value ≠ [] :=
    fun _ => static_ne_nil hir
  obtain ⟨front, hwild, hsegments⟩ := (compilePattern_wildcardLast hir).split
  have hsub : ∀ segment ∈ front, segment ∈ ir.segments := by
    intro segment hsegment
    rcases hsegments with h | h
    · exact h ▸ hsegment
    · exact h ▸ List.mem_append_left _ hsegment
  obtain ⟨parts, hparts, hkept, hnil, hmatches⟩ := urlParts_front (hassigns.sublist hsub)
    (fun value hvalue => hstatic value (hsub _ hvalue)) hwild
  rcases hsegments with hsegments | hsegments
  · -- No wildcard: the URL is read part by part.
    refine ⟨slash :: join slash parts, [], ?_, ?_, by simp, fun _ => rfl, ?_⟩
    · rw [hsegments, buildURL_eq hparts, rooted_front hkept]
    · have hdecoded : decodedSegments (slash :: join slash parts) =
          parts.map decodeSegment ++ [] := by
        rw [List.append_nil, decodedSegments]
        rcases eq_or_ne parts [] with rfl | hne
        · rfl
        · rw [splitSegments_join hne fun p hp => (hkept p hp).2]
          intro hlast
          exact (hkept [] (List.mem_of_getLast? hlast)).1 rfl
      rw [hdecoded, hsegments]
      have hdone := hmatches (trailingSlash (slash :: join slash parts)) [] [] [] .done
      rwa [List.append_nil front] at hdone
    · intro _ hmem
      exact absurd (hsegments ▸ hmem) hwild
  · -- The value of the wildcard is written behind the other parts, and read there with its
    -- slashes.
    have hmem : .wildcard ∈ ir.segments := by simp [hsegments]
    obtain ⟨value, hvalue, hformed⟩ := hassigns.wildcard hmem
    obtain ⟨more, hmore, hne, hslash, hdecoded⟩ := encodePathValue_spec hformed
    obtain ⟨written, hwritten, hfrom, hrooted, hsame⟩ := rooted_wildcard hkept hslash hne
    obtain ⟨segments, found, hread, hwildcard, hnames, hexact⟩ :=
      wildcard_read host hkept (fun p hp => hslash p (hfrom p hp)) hwritten
    refine ⟨slash :: join slash (parts ++ written), found, ?_, ?_, hnames,
      fun hnone => absurd hmem hnone, ?_⟩
    · have hpart : urlParts params [.wildcard] = .ok [join slash more] := by
        rw [urlParts, urlPart, hvalue]
        simp only [hmore]
        rfl
      rw [hsegments, buildURL_eq (urlParts_append params hparts hpart), hrooted]
    · rw [hread]
      have hgiven : given params ir.segments = given params front := by
        rw [hsegments, given, List.filterMap_append]
        exact List.append_nil _
      rw [hgiven, hsegments]
      exact hmatches _ _ _ _ hwildcard
    · intro hkeep _
      obtain ⟨hend, hstart⟩ := hkeep hmem value hvalue
      refine ⟨value, hvalue, ?_⟩
      obtain rfl : written = more := by
        rcases hsame with hsame | ⟨hfront, rfl⟩
        · exact hsame
        · -- A value that starts with an empty part starts with the slash.
          have hhead : value.head? = some slash := by
            obtain ⟨part, rest, rfl⟩ := List.exists_cons_of_ne_nil hwritten
            rw [← join_split slash value, ← hdecoded, List.map_cons, List.map_cons,
              join_cons_cons, (decodeSegment_eq_nil_iff []).mpr rfl]
            rfl
          have honly : ir.segments = [.wildcard] := by rw [hsegments, hnil.mp hfront]; rfl
          exact absurd hhead (hstart honly)
      rw [hdecoded, join_split] at hexact
      exact hexact hend

theorem mem_paramNamesOf {segments : List CompiledSegment} {name : JsString} :
    name ∈ paramNamesOf segments ↔
      (∃ pattern optional, .param name pattern optional ∈ segments) ∨
        .wildcard ∈ segments ∧ name = wildcardName := by
  rw [paramNamesOf, List.mem_map]
  constructor
  · rintro ⟨segment, hmem, rfl⟩
    obtain ⟨hmem, hdynamic⟩ := List.mem_filter.mp hmem
    cases segment with
    | static value => cases hdynamic
    | param name pattern optional => exact .inl ⟨pattern, optional, hmem⟩
    | wildcard => exact .inr ⟨hmem, rfl⟩
  · rintro (⟨pattern, optional, hmem⟩ | ⟨hmem, rfl⟩)
    · exact ⟨_, List.mem_filter.mpr ⟨hmem, rfl⟩, rfl⟩
    · exact ⟨.wildcard, List.mem_filter.mpr ⟨hmem, rfl⟩, rfl⟩

theorem exists_mem_given {host : Host} {params : JsString → Option JsString}
    {segments : List CompiledSegment} (h : Assigns host params segments) {name : JsString}
    {pattern : Option RegExp} {optional : Bool} (hmem : .param name pattern optional ∈ segments) :
    ∃ p ∈ given params segments, p.1 = name := by
  obtain ⟨value, hvalue, -⟩ := h.values name pattern optional hmem
  refine ⟨(name, value), List.mem_filterMap.mpr ⟨_, hmem, ?_⟩, rfl⟩
  simp [hvalue]

/-- A URL built from values is matched by its own pattern, which captures them
again; only a wildcard's value may lose a slash at its ends. -/
theorem buildURL_round_trip {host : Host} {params : JsString → Option JsString} {path : JsString}
    {ir : PatternIR} (hir : compilePattern host path = .ok ir)
    (hassigns : Assigns host params ir.segments) :
    ∃ m, roundTrip host ir.segments params = some m ∧
      (∀ name ∈ paramNamesOf ir.segments, name ≠ wildcardName → m.params name = params name) ∧
      (WildcardKept params ir.segments →
        ∀ name ∈ paramNamesOf ir.segments, m.params name = params name) := by
  obtain ⟨root, assigned, last, hins⟩ := insertAll_single ir.segments
  obtain ⟨url, found, hurl, hmatch, hnames, hbare, hexact⟩ := buildURL_matches hir hassigns
  obtain ⟨m, hm, hparams⟩ := matchPattern_single hir hassigns.required hins hmatch
  have hothers : ∀ name ∈ paramNamesOf ir.segments, name ≠ wildcardName →
      m.params name = params name := by
    intro name hname hne
    rw [hparams, lastCapture_append_other fun p hp => hnames p hp ▸ Ne.symm hne]
    rcases mem_paramNamesOf.mp hname with ⟨pattern, optional, hmem⟩ | ⟨-, rfl⟩
    · exact lastCapture_of_agree (fun p hp => mem_given hp) (exists_mem_given hassigns hmem)
    · exact absurd rfl hne
  refine ⟨m, ?_, hothers, ?_⟩
  · simp only [roundTrip, hins, hurl]
    exact hm
  · intro hkept name hname
    by_cases hwild : .wildcard ∈ ir.segments
    · obtain ⟨value, hvalue, rfl⟩ := hexact hkept hwild
      rw [hparams]
      apply lastCapture_of_agree
      · intro p hp
        rcases List.mem_append.mp hp with hp | hp
        · exact mem_given hp
        · rw [List.mem_singleton.mp hp]
          exact hvalue
      · rcases mem_paramNamesOf.mp hname with ⟨pattern, optional, hmem⟩ | ⟨-, rfl⟩
        · obtain ⟨p, hp, heq⟩ := exists_mem_given hassigns hmem
          exact ⟨p, List.mem_append_left _ hp, heq⟩
        · exact ⟨(wildcardName, value), by simp, rfl⟩
    · obtain rfl := hbare hwild
      rw [hparams, List.append_nil]
      rcases mem_paramNamesOf.mp hname with ⟨pattern, optional, hmem⟩ | ⟨hmem, -⟩
      · exact lastCapture_of_agree (fun p hp => mem_given hp) (exists_mem_given hassigns hmem)
      · exact absurd hmem hwild

def itemParams (name : JsString) : Option JsString :=
  if name = js "id" then some (js "7")
  else if name = wildcardName then some (js "a b/c")
  else none

theorem buildURL_round_trip_item :
    ∃ ir m, compilePattern digitsHost (js "/w/:id(\\d+)/*") = .ok ir ∧
      roundTrip digitsHost ir.segments itemParams = some m ∧
      ∀ name ∈ paramNamesOf ir.segments, m.params name = itemParams name := by
  have hir : compilePattern digitsHost (js "/w/:id(\\d+)/*") =
      .ok ⟨[.static (js "w"), .param (js "id") (some digits) false, .wildcard], false, false⟩ := by
    decide +kernel
  have hassigns : Assigns digitsHost itemParams
      [.static (js "w"), .param (js "id") (some digits) false, .wildcard] := by
    refine ⟨by decide, ?_, ?_, fun _ => ⟨js "a b/c", by decide⟩⟩
    · intro value hvalue
      obtain rfl : value = js "w" := by simpa using hvalue
      decide
    · intro name pattern optional hmem
      obtain ⟨rfl, rfl, rfl⟩ : name = js "id" ∧ pattern = some digits ∧ optional = false := by
        simpa using hmem
      exact ⟨js "7", by decide⟩
  obtain ⟨m, hm, -, hall⟩ := buildURL_round_trip hir hassigns
  refine ⟨_, m, hir, hm, hall ?_⟩
  intro _ value hvalue
  obtain rfl : js "a b/c" = value := Option.some.inj hvalue
  exact ⟨by decide, by decide⟩

/-- Values that are not captured again: one that ends in the slash, one that
starts with it and stands alone. And a static segment that cannot be written. -/
theorem round_trip_loses :
    (roundTrip digitsHost [.static (js "w"), .wildcard] fun _ => some (js "a/")).map
        (·.params wildcardName) = some (some (js "a")) ∧
      (roundTrip digitsHost [.wildcard] fun _ => some (js "/a")).map
        (·.params wildcardName) = some (some (js "a")) ∧
      buildURL [.static [0xD800], .param (js "id") none false] (fun _ => some (js "7")) =
        .error .uriMalformed ∧
      (compilePattern digitsHost (js "/w/*")).toOption.map PatternIR.segments =
        some [.static (js "w"), .wildcard] ∧
      (compilePattern digitsHost (js "/*")).toOption.map PatternIR.segments = some [.wildcard] ∧
      (compilePattern digitsHost (slash :: 0xD800 :: js "/:id")).toOption.map
        PatternIR.segments = some [.static [0xD800], .param (js "id") none false] := by
  decide +kernel

end Keala.Router
