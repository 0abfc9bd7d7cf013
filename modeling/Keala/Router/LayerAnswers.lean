import Keala.Js.Search
import Keala.Router.IndexLayers

/-!
The answers of the fast layers against the trie. A pattern that a fast layer
answers with stands first among the patterns that match the path, so the trie
answers with its target and its captures too.
-/

namespace Keala.Router

open Keala.Js

/-- Products that a handler cannot tell apart. -/
structure RouteMatch.Same (m m' : RouteMatch) : Prop where
  target : m.target = m'.target
  params : ∀ name, m.params name = m'.params name

theorem RouteMatch.Same.refl (m : RouteMatch) : m.Same m := ⟨rfl, fun _ => rfl⟩

variable {host : Host} {path : JsString}

/-! ### The trie -/

section
variable {root : TrieNode} {shapes : List (List Edge)} {targets : List Edge → Option TargetRef}
  {next : TargetRef}

/-- The trie answers with the first shape that captures the path. -/
theorem matchPattern_of_first (h : Holds root shapes targets []) (ha : Assigned shapes targets next)
    {σ : List Edge} (hσ : σ ∈ shapes) {found : List (JsString × JsString)}
    (hcap : capturesPath host path σ = some found)
    (hfirst : ∀ τ ∈ shapes, capturesPath host path τ ≠ none → τ = σ ∨ Precedes shapes σ τ) :
    ∃ m, matchPattern host root path = some m ∧ targets σ = some m.target ∧
      ∀ name, m.params name = lastCapture found name := by
  obtain ⟨m, hm⟩ : ∃ m, matchPattern host root path = some m := by
    apply Option.ne_none_iff_exists'.mp
    intro hnone
    have hall := (matchPattern_none_iff h ha).mp hnone σ hσ
    rw [hcap] at hall
    cases hall
  obtain ⟨τ, hτ, foundτ, hcapτ, htarget, hmatch, hbefore⟩ := matchPattern_some h ha hm
  have heq : τ = σ := by
    rcases hfirst τ hτ (by simp [hcapτ]) with heq | hprecedes
    · exact heq
    · rcases hbefore σ hσ (by simp [hcap]) with heq | hback
      · exact heq.symm
      · exact absurd hback hprecedes.asymm
  subst heq
  obtain rfl : foundτ = found := Option.some.inj (hcapτ.symm.trans hcap)
  refine ⟨m, hm, htarget, fun name => ?_⟩
  rw [hmatch]
  exact (reads_matchAt m.target (h.ends τ hτ) hcapτ).params name

end

/-! ### Values behind an offset -/

/-- A product whose values stand behind its offset reads them by name. -/
theorem params_of_values {m : RouteMatch} {texts : List JsString}
    (hlength : texts.length = m.names.length)
    (hvalues : ∀ i text, texts[i]? = some text → m.values[i + m.offset]? = some (some text))
    (name : JsString) : m.params name = lastCapture (m.names.zip texts) name := by
  have hfst : (m.names.zip texts).map Prod.fst = m.names := List.map_fst_zip hlength.ge
  have hsnd : (m.names.zip texts).map Prod.snd = texts := List.map_snd_zip hlength.le
  have haligned := params_aligned m.target (m.names.zip texts) name
  rw [← haligned, RouteMatch.params, RouteMatch.params, hfst]
  cases hindex : m.names.reverse.findIdx? (· == name) with
  | none => rfl
  | some i =>
      have hlt : i < m.names.length := by
        have hle := List.findIdx?_eq_some_iff_getElem.mp hindex
        simpa using hle.1
      have hin : m.names.length - 1 - i < texts.length := by omega
      have htext : texts[m.names.length - 1 - i]? = some texts[m.names.length - 1 - i] :=
        List.getElem?_eq_getElem hin
      have hmap : ((m.names.zip texts).map fun p => some p.2) = texts.map some := by
        have hvalue := congrArg (List.map some) hsnd
        rwa [List.map_map] at hvalue
      dsimp only
      rw [hvalues _ _ htext, hmap, List.getElem?_map, add_zero, htext]
      rfl

/-! ### Answers read from the parts of a path -/

/-- The shape of a pattern of the fast layers captures from a path what its
alternative captures from the parts. -/
theorem capturesPath_plainShape {parts : List JsString} (hraw : Raw path parts)
    (hsettled : SettledParts parts) {segments : List CompiledSegment} (hfast : Fast segments)
    (hstatic : CompiledSegment.static [] ∉ segments) :
    capturesPath host path (plainShape segments) =
      (rawCaptures segments parts).map (namedCaptures segments (endsEmpty parts)) := by
  rw [capturesPath, hraw.trailing, hraw.decodedSegments hsettled]
  exact captures_plainShape host hfast hstatic
    (fun part hpart => (hraw.readable part hpart).no_slash) hsettled

theorem trimmed_length (segments : List CompiledSegment) (path : JsString)
    (texts : List JsString) : (trimmed segments path texts).length = texts.length := by
  rw [trimmed]
  split
  · exact List.length_modify ..
  · rfl

/-- The values that the fast layers trim are the captures of the grammar. -/
theorem namedCaptures_eq_trimmed {parts : List JsString} (hraw : Raw path parts)
    {first : JsString} {rest : List CompiledSegment} (hne : first ≠ []) {texts : List JsString}
    (hcap : rawCaptures (.static first :: rest) parts = some texts) :
    namedCaptures (.static first :: rest) (endsEmpty parts) texts =
      (paramNamesOf (.static first :: rest)).zip
        (trimmed (.static first :: rest) path texts) := by
  have hlong : 1 < path.length := by
    obtain ⟨part, more, rfl⟩ := List.exists_cons_of_ne_nil hraw.nonempty
    rw [rawCaptures] at hcap
    split at hcap
    · next hpart =>
        have hpos := List.length_pos_of_ne_nil hne
        rw [hraw.text, routeText_cons, ← hpart, List.length_cons, List.length_append]
        omega
    · cases hcap
  have htrailing : endsEmpty parts = true ↔ path.getLast? = some slash := by
    rw [← hraw.trailing]
    exact decide_eq_true_iff
  rw [namedCaptures, trimmed]
  simp only [htrailing, hlong, and_true]

variable {bound : List (Bound host)} {targets : List Edge → Option TargetRef} {index : RouteIndex}

/-- What a fast layer reads from the parts of a path is what the trie answers,
if no other shape comes first. -/
theorem TrieLayer.answers (h : TrieLayer bound targets index) {parts : List JsString}
    (hraw : Raw path parts) (hsettled : SettledParts parts) {first : JsString}
    {rest : List CompiledSegment} (hfast : Fast (.static first :: rest))
    (hstatic : CompiledSegment.static [] ∉ CompiledSegment.static first :: rest)
    {texts : List JsString} (hcap : rawCaptures (.static first :: rest) parts = some texts)
    (hfirst : ∀ τ ∈ dynamicShapes bound, capturesPath host path τ ≠ none →
      τ = plainShape (.static first :: rest) ∨
        Precedes (dynamicShapes bound) (plainShape (.static first :: rest)) τ)
    {m : RouteMatch} (htarget : targets (plainShape (.static first :: rest)) = some m.target)
    (hnames : m.names = paramNamesOf (.static first :: rest))
    (hvalues : ∀ i text, (trimmed (.static first :: rest) path texts)[i]? = some text →
      m.values[i + m.offset]? = some (some text)) :
    ∃ m', matchPattern host index.trieRoot path = some m' ∧ m.Same m' := by
  have hne : first ≠ [] := by
    rintro rfl
    exact hstatic List.mem_cons_self
  have hfound : capturesPath host path (plainShape (.static first :: rest)) =
      some (namedCaptures (.static first :: rest) (endsEmpty parts) texts) := by
    rw [capturesPath_plainShape hraw hsettled hfast hstatic, hcap]
    rfl
  have hmem : plainShape (.static first :: rest) ∈ dynamicShapes bound :=
    h.holds.within _ (by simp [htarget])
  obtain ⟨m', hm', htarget', hparams⟩ :=
    matchPattern_of_first h.holds h.assigned hmem hfound hfirst
  refine ⟨m', hm', Option.some.inj (htarget.symm.trans htarget'), fun name => ?_⟩
  have hlength : (trimmed (.static first :: rest) path texts).length = m.names.length := by
    rw [trimmed_length, hnames, rawCaptures_length hfast hcap]
  rw [hparams, namedCaptures_eq_trimmed hraw hne hcap, ← hnames]
  exact params_of_values hlength hvalues name

/-! ### The table regex -/

theorem rank_pos_of_mem_edgesOf {x : CompiledSegment} {e : Edge} (he : e ∈ edgesOf x)
    (hx : x.isStatic = false) : 0 < e.rank := by
  cases x with
  | static value => cases hx
  | param name pattern optional =>
      rcases List.mem_cons.mp he with rfl | hskip
      · exact Nat.one_pos
      · cases optional with
        | false => cases hskip
        | true =>
            obtain rfl := List.mem_singleton.mp hskip
            exact Nat.one_pos
  | wildcard =>
      obtain rfl := List.mem_singleton.mp he
      exact Nat.two_pos

theorem before_of_rank_pos {shapes : List (List Edge)} {value : JsString} {e : Edge}
    (h : 0 < e.rank) : Edge.static value ≠ e ∧ (Edge.static value).before shapes e := by
  cases e with
  | static other => cases h
  | consume name pattern => exact ⟨by simp, Nat.one_pos⟩
  | skip name pattern => exact ⟨by simp, Nat.one_pos⟩
  | wildcard => exact ⟨by simp, Nat.two_pos⟩

/-- Only the patterns of its own bucket come before a pattern that starts with
a literal. -/
theorem precedes_of_bucket {first : JsString} {σ : List Edge}
    (hcap : capturesPath host path (.static first :: σ) ≠ none)
    (hbucket : ∀ b ∈ bucketOf bound first, ∀ τ ∈ shapesOf b.ir.segments,
      capturesPath host path τ ≠ none → τ = .static first :: σ ∨
        Precedes (dynamicShapes bound) (.static first :: σ) τ) :
    ∀ τ ∈ dynamicShapes bound, capturesPath host path τ ≠ none →
      τ = .static first :: σ ∨ Precedes (dynamicShapes bound) (.static first :: σ) τ := by
  intro τ hτ hcapτ
  obtain ⟨b, hb, hdyn, hshape⟩ := mem_dynamicShapes.mp hτ
  obtain ⟨x, rest, hsegments⟩ := Bound.exists_cons hdyn
  have hforall := mem_shapesOf_iff.mp hshape
  rw [hsegments, List.forall₂_cons_right_iff] at hforall
  obtain ⟨e, τ', he, -, rfl⟩ := hforall
  cases hx : x.isStatic with
  | true =>
      -- Two literals match one path only if they are one.
      cases x with
      | static value =>
          obtain rfl := List.mem_singleton.mp he
          obtain ⟨left, hleft⟩ := captures_static_ne_none hcap
          obtain ⟨other, hother⟩ := captures_static_ne_none hcapτ
          obtain rfl : first = value := (List.cons.inj (hleft.symm.trans hother)).1
          refine hbucket b (mem_bucketOf.mpr ⟨hb, hdyn, ?_⟩) _ hshape hcapτ
          rw [hsegments]
          rfl
      | param name pattern optional => cases hx
      | wildcard => cases hx
  | false =>
      obtain ⟨hne, hbefore⟩ : Edge.static first ≠ e ∧
          (Edge.static first).before (dynamicShapes bound) e :=
        before_of_rank_pos (rank_pos_of_mem_edgesOf he hx)
      right
      rw [Precedes, if_neg hne]
      exact hbefore

/-- The patterns of the table are the ones of the index outside impure buckets. -/
theorem mem_collectPatterns {patterns : List (JsString × EligiblePattern)}
    {impureFirst : List JsString} {entry : EligiblePattern} (hfits : FitsFast entry.segments)
    {first : JsString} (hfirst : entry.segments.head? = some (.static first)) :
    entry ∈ collectPatterns patterns impureFirst ↔
      entry ∈ patterns.map Prod.snd ∧ first ∉ impureFirst := by
  have hcapture : entry.segments.any (fun segment => !segment.isStatic) = true := by
    by_contra hnone
    have hstatic : entry.segments.all CompiledSegment.isStatic = true := by
      rw [List.all_eq_true]
      intro x hx
      by_contra hdyn
      exact hnone (List.any_eq_true.mpr ⟨x, hx, by simpa using hdyn⟩)
    have hnot := not_isRegexEligible_of_static hstatic
    rw [hfits.1] at hnot
    cases hnot
  rw [collectPatterns, List.mem_filter, hcapture, hfirst]
  simp [CompiledSegment.value]

theorem TableLayer.exists_entry (h : TableLayer bound targets index) {b : Bound host}
    (hb : b ∈ bound) (hfits : FitsFast b.ir.segments) :
    ∃ entry ∈ index.regexIndex.map Prod.snd, entry.segments = b.ir.segments := by
  obtain ⟨entry, hentry⟩ := Option.ne_none_iff_exists'.mp (h.kept b hb hfits)
  obtain ⟨c, hc, hpath, hsegments, -⟩ := h.entries b.path entry hentry
  refine ⟨entry, List.mem_map.mpr ⟨_, OrderedMap.mem_of_get? hentry, rfl⟩, ?_⟩
  rw [hsegments, Bound.ir_eq hpath]

theorem TableLayer.bound_of_entry (h : TableLayer bound targets index) {entry : EligiblePattern}
    (hentry : entry ∈ index.regexIndex.map Prod.snd) :
    ∃ b ∈ bound, entry.segments = b.ir.segments ∧ FitsFast entry.segments ∧
      targets (plainShape entry.segments) = some entry.target := by
  obtain ⟨⟨path, e⟩, hmem, rfl⟩ := List.mem_map.mp hentry
  obtain ⟨b, hb, -, hrest⟩ :=
    h.entries path e ((OrderedMap.get?_eq_some_iff h.nodup path e).mpr hmem)
  exact ⟨b, hb, hrest⟩

theorem mem_sortPatterns {entries : List EligiblePattern} {entry : EligiblePattern} :
    entry ∈ sortPatterns entries ↔ entry ∈ entries := by
  rw [sortPatterns, List.mem_mergeSort]

theorem sortPatterns_ne_nil {entries : List EligiblePattern} (h : entries ≠ []) :
    sortPatterns entries ≠ [] := by
  obtain ⟨entry, rest, rfl⟩ := List.exists_cons_of_ne_nil h
  exact List.ne_nil_of_mem (mem_sortPatterns.mpr List.mem_cons_self)

theorem mem_regexIndex_of_mem_sort {index : RouteIndex} {entry : EligiblePattern}
    (h : entry ∈ sortPatterns (collectPatterns index.regexIndex index.impureFirst)) :
    entry ∈ index.regexIndex.map Prod.snd :=
  List.mem_of_mem_filter (mem_sortPatterns.mp h)

/-- Every dynamic pattern of a pure bucket is in the table. -/
theorem TableLayer.exists_sorted (h : TableLayer bound targets index) {first : JsString}
    (hpure : first ∉ index.impureFirst) {b : Bound host} (hb : b ∈ bucketOf bound first) :
    FitsFast b.ir.segments ∧
      ∃ entry ∈ sortPatterns (collectPatterns index.regexIndex index.impureFirst),
        entry.segments = b.ir.segments := by
  obtain ⟨hbound, hdyn, hhead⟩ := mem_bucketOf.mp hb
  have hfits : FitsFast b.ir.segments := by
    by_contra hunfit
    exact hpure (h.impure b hbound hdyn hunfit first hhead)
  obtain ⟨entry, hentry, hsame⟩ := h.exists_entry hbound hfits
  refine ⟨hfits, entry, mem_sortPatterns.mpr ?_, hsame⟩
  exact (mem_collectPatterns (hsame ▸ hfits) (hsame ▸ hhead)).mpr ⟨hentry, hpure⟩

theorem TableLayer.wildcardLast (h : TableLayer bound targets index) :
    ∀ entry ∈ collectPatterns index.regexIndex index.impureFirst,
      WildcardLast entry.segments := by
  intro entry hentry
  obtain ⟨b, -, hsegments, -⟩ := h.bound_of_entry (List.mem_of_mem_filter hentry)
  exact hsegments ▸ b.wildcardLast

/-- The first alternative that captures is the first shape of its bucket. -/
theorem Layered.sorted_first (h : Layered bound targets index) {parts : List JsString}
    (hraw : Raw path parts) (hsettled : SettledParts parts)
    {before behind : List EligiblePattern} {entry : EligiblePattern}
    (hsplit : sortPatterns (collectPatterns index.regexIndex index.impureFirst) =
      before ++ entry :: behind)
    (hbefore : ∀ e ∈ before, rawCaptures e.segments parts = none)
    (hcap : rawCaptures entry.segments parts ≠ none) {first : JsString}
    (hfirst : entry.segments.head? = some (.static first)) :
    ∀ b ∈ bucketOf bound first, ∀ τ ∈ shapesOf b.ir.segments, capturesPath host path τ ≠ none →
      τ = plainShape entry.segments ∨
        Precedes (dynamicShapes bound) (plainShape entry.segments) τ := by
  intro b hb τ hτ hcapτ
  obtain ⟨hbound, hdyn, hhead⟩ := mem_bucketOf.mp hb
  have hmem : entry ∈ sortPatterns (collectPatterns index.regexIndex index.impureFirst) := by
    rw [hsplit]
    simp
  obtain ⟨c, hc, hsegments, hfits, htarget⟩ :=
    h.table.bound_of_entry (mem_regexIndex_of_mem_sort hmem)
  have hpure : first ∉ index.impureFirst :=
    ((mem_collectPatterns hfits hfirst).mp (mem_sortPatterns.mp hmem)).2
  obtain ⟨hbfits, other, hsorted, hsame⟩ := h.table.exists_sorted hpure hb
  obtain rfl : τ = plainShape other.segments := by
    rw [hbfits.fast.shapesOf] at hτ
    rw [hsame]
    exact List.mem_singleton.mp hτ
  have hcapother : rawCaptures other.segments parts ≠ none := by
    intro hnone
    rw [hsame, capturesPath_plainShape hraw hsettled hbfits.fast b.static_nil, ← hsame, hnone]
      at hcapτ
    exact hcapτ rfl
  rw [hsplit, List.mem_append, List.mem_cons] at hsorted
  rcases hsorted with hin | rfl | hin
  · exact absurd (hbefore other hin) hcapother
  · exact .inl rfl
  · -- A later alternative has the greater word, and both match the path.
    have hpairwise := pairwise_sortPatterns h.table.wildcardLast
    rw [hsplit, List.pairwise_append] at hpairwise
    have hle := (List.pairwise_cons.mp hpairwise.2.1).1 other hin
    have hcapentry : capturesPath host path (plainShape entry.segments) ≠ none := by
      rw [hsegments, capturesPath_plainShape hraw hsettled (hsegments ▸ hfits.fast) c.static_nil,
        ← hsegments]
      exact fun hnone => hcap (Option.map_eq_none_iff.mp hnone)
    have hmementry : plainShape entry.segments ∈ dynamicShapes bound :=
      h.trie.holds.within _ (by simp [htarget])
    have hmemother : plainShape other.segments ∈ dynamicShapes bound :=
      mem_dynamicShapes.mpr ⟨b, hbound, hdyn, hτ⟩
    have hprecedes := precedes_of_searchWord h.trie.holds hfits.fast (hsame ▸ hbfits.fast)
      hmementry hmemother hcapentry hcapτ hle
    exact hprecedes.imp_left Eq.symm

theorem Layered.fits_of_mem_sort (h : Layered bound targets index) {entry : EligiblePattern}
    (hentry : entry ∈ sortPatterns (collectPatterns index.regexIndex index.impureFirst)) :
    isRegexEligible entry.segments = true ∧ Fast entry.segments ∧
      0 < (routeNames entry.segments).length := by
  obtain ⟨b, -, -, hfits, -⟩ := h.table.bound_of_entry (mem_regexIndex_of_mem_sort hentry)
  exact ⟨hfits.1, hfits.fast, hfits.names_pos⟩

/-- The route that the table answers with answers in the trie too. -/
theorem Layered.answers_of_tableAnswer (h : Layered bound targets index) {parts : List JsString}
    (hraw : Raw path parts) {m : RouteMatch} {before behind : List EligiblePattern}
    {entry : EligiblePattern} {values : List JsString}
    (hanswer : TableAnswer (sortPatterns (collectPatterns index.regexIndex index.impureFirst))
      path parts m before entry behind values) :
    ∃ m', matchPattern host index.trieRoot path = some m' ∧ m.Same m' := by
  have hmem : entry ∈ sortPatterns (collectPatterns index.regexIndex index.impureFirst) := by
    rw [hanswer.split]
    simp
  obtain ⟨b, hb, hsegments, hfits, htarget⟩ :=
    h.table.bound_of_entry (mem_regexIndex_of_mem_sort hmem)
  obtain ⟨first, rest, hhead⟩ := exists_static hfits.1
  have hsettled : SettledParts parts := hraw.settled hanswer.once
  have hstatic : CompiledSegment.static [] ∉ entry.segments := hsegments ▸ b.static_nil
  have hcap : rawCaptures entry.segments parts ≠ none := by simp [hanswer.captured]
  have hbucket := h.sorted_first hraw hsettled hanswer.split hanswer.first hcap (by rw [hhead]; rfl)
  have hcappath : capturesPath host path (plainShape entry.segments) ≠ none := by
    rw [capturesPath_plainShape hraw hsettled hfits.fast hstatic, hanswer.captured]
    simp
  obtain ⟨segments, target⟩ := entry
  obtain rfl : segments = .static first :: rest := hhead
  apply h.trie.answers hraw hsettled hfits.fast hstatic hanswer.captured
  · exact precedes_of_bucket hcappath hbucket
  · exact hanswer.target ▸ htarget
  · exact hanswer.names.trans (paramNamesOf_eligible hfits.1).symm
  · exact hanswer.reads

/-- The table regex answers as the trie does. -/
theorem Layered.table_answers (h : Layered bound targets index) {parts : List JsString}
    (hraw : Raw path parts) {table : TableRegex}
    (htable : compileTableRegex index.regexIndex index.impureFirst = .ok (some table))
    {m : RouteMatch} (hm : matchTableRegex table path = some m) :
    ∃ m', matchPattern host index.trieRoot path = some m' ∧ m.Same m' := by
  rw [compileTableRegex] at htable
  dsimp only at htable
  split at htable
  · cases htable
  · next hne =>
      split at htable
      · cases htable
      · next regex hregex =>
          cases htable
          have htext := hraw.text
          rw [htext] at hm
          obtain ⟨before, entry, behind, values, hanswer⟩ :=
            matchTableRegex_some (sortPatterns_ne_nil hne) (fun e he => h.fits_of_mem_sort he)
              hregex hraw.readable hm
          rw [← htext] at hanswer
          exact h.answers_of_tableAnswer hraw hanswer

/-- The table regex always compiles. -/
theorem Layered.exists_table (h : Layered bound targets index) :
    ∃ table, compileTableRegex index.regexIndex index.impureFirst = .ok table := by
  rw [compileTableRegex]
  dsimp only
  split
  · exact ⟨none, rfl⟩
  · next hne =>
      rw [compileRegExp_tableSource (sortPatterns_ne_nil hne) fun e he => (h.fits_of_mem_sort he).1]
      exact ⟨_, rfl⟩

/-! ### The slice matchers -/

def simpleSegments (values names : List JsString) : List CompiledSegment :=
  values.map .static ++ names.map fun name => .param name none false

theorem exists_simple {segments : List CompiledSegment} {sawDynamic : Bool} {i : ℕ}
    (h : simpleFrom sawDynamic i segments = true) :
    ∃ values names, segments = simpleSegments values names ∧
      (sawDynamic = true → values = []) := by
  induction segments generalizing sawDynamic i with
  | nil => exact ⟨[], [], rfl, fun _ => rfl⟩
  | cons x rest ih =>
      cases x with
      | static value =>
          rw [simpleFrom, Bool.and_eq_true, Bool.not_eq_true'] at h
          obtain ⟨values, names, rfl, -⟩ := ih h.2
          exact ⟨value :: values, names, rfl, fun hsaw => absurd hsaw (by simp [h.1])⟩
      | param name pattern optional =>
          rw [simpleFrom, Bool.and_eq_true] at h
          obtain ⟨values, names, rfl, hvalues⟩ := ih h.2
          obtain rfl := hvalues rfl
          obtain ⟨⟨rfl, rfl⟩, -⟩ : (optional = false ∧ pattern = none) ∧ i ≠ 0 := by
            simpa using h.1
          exact ⟨[], name :: names, rfl, fun _ => rfl⟩
      | wildcard => cases h

theorem staticHeadOf_simple (values names : List JsString) :
    staticHeadOf (simpleSegments values names) = routeText values := by
  induction values with
  | nil => cases names <;> rfl
  | cons value values ih =>
      show slash :: value ++ staticHeadOf (simpleSegments values names) = _
      rw [ih, routeText_cons, List.cons_append]

theorem paramNamesOf_simple (values names : List JsString) :
    paramNamesOf (simpleSegments values names) = names := by
  induction values with
  | nil =>
      induction names with
      | nil => rfl
      | cons name names ih => exact congrArg (name :: ·) ih
  | cons value values ih => exact ih

/-- A simple pattern captures the parts behind its literals. -/
theorem rawCaptures_simple (values : List JsString) {names texts : List JsString}
    (hlength : texts.length = names.length) (hne : [] ∉ texts) :
    rawCaptures (simpleSegments values names) (values ++ texts) = some texts := by
  induction values with
  | nil =>
      induction texts generalizing names with
      | nil =>
          obtain rfl : names = [] := List.length_eq_zero_iff.mp hlength.symm
          rfl
      | cons text texts ih =>
          obtain ⟨name, names, rfl⟩ : ∃ name rest, names = name :: rest :=
            List.exists_cons_of_length_pos (by rw [← hlength]; simp)
          rw [List.mem_cons, not_or] at hne
          have hrest : rawCaptures (simpleSegments [] names) texts = some texts :=
            ih (by simpa using hlength) hne.2
          show (if text = [] then none else
            (rawCaptures (simpleSegments [] names) texts).map (text :: ·)) = _
          rw [if_neg (Ne.symm hne.1), hrest]
          rfl
  | cons value values ih =>
      show (if value = value then rawCaptures (simpleSegments values names) (values ++ texts)
        else none) = _
      rw [if_pos rfl]
      exact ih

/-- What a slice matcher accepts: its literals, then a part for each name. -/
theorem fastMatch_some {fast : FastMatcher} {path : JsString} {m : RouteMatch}
    (h : fastMatch fast path = some m) :
    ∃ texts, path = fast.head ++ routeText texts ∧ texts ≠ [] ∧ (∀ t ∈ texts, slash ∉ t) ∧
      [] ∉ texts ∧ texts.length = fast.names.length ∧
      m = ⟨fast.target, fast.names, texts.map some, 0⟩ := by
  rw [fastMatch] at h
  split at h
  · cases h
  · next hstarts =>
      rw [Bool.not_eq_true', Bool.not_eq_false] at hstarts
      obtain ⟨rest, rfl⟩ := startsWith_iff.mp hstarts
      rw [List.drop_left] at h
      dsimp only at h
      split at h
      · cases h
      · next hslash =>
          obtain ⟨value, rfl⟩ := List.head?_eq_some_iff.mp (not_not.mp hslash)
          split at h
          · cases h
          · next hlong =>
              rw [List.drop_one, List.tail_cons] at h
              split at h
              · next hone =>
                  split at h
                  · cases h
                  · next hvalue =>
                      cases h
                      have hne : value ≠ [] := by
                        rintro rfl
                        exact hlong (by simp)
                      refine ⟨[value], ?_, by simp, by simpa using hvalue, ?_, hone.symm, rfl⟩
                      · simp [routeText]
                      · simpa using hne.symm
              · split at h
                · cases h
                · next hlength =>
                    split at h
                    · cases h
                    · next hempty =>
                        cases h
                        refine ⟨split slash value, ?_, split_ne_nil slash value, ?_, hempty,
                          not_not.mp hlength, rfl⟩
                        · rw [routeText_split]
                        · exact fun t ht => not_mem_of_mem_split ht

/-- A path splits into its parts in one way. -/
theorem Raw.parts_eq {path : JsString} {parts others : List JsString} (h : Raw path parts)
    (hne : others ≠ []) (hslash : ∀ p ∈ others, slash ∉ p) (htext : path = routeText others) :
    parts = others := by
  obtain ⟨rest, hrest, hparts⟩ := h.rest
  obtain ⟨part, more, rfl⟩ := List.exists_cons_of_ne_nil hne
  rw [routeText_cons, routeText_eq_join, hrest] at htext
  rw [hparts, (List.cons.inj htext).2]
  exact split_join hslash (by simp)

theorem routeText_append (parts more : List JsString) :
    routeText (parts ++ more) = routeText parts ++ routeText more := List.flatMap_append

/-- A slice matcher reads from the parts of a path what the alternative of its
pattern would. -/
theorem MatcherOf.reads {b : Bound host} {fast : FastMatcher} (h : MatcherOf b targets fast)
    {parts : List JsString} (hraw : Raw path parts) {m : RouteMatch}
    (hm : fastMatch fast path = some m) :
    ∃ texts, SettledParts parts ∧ rawCaptures b.ir.segments parts = some texts ∧
      trimmed b.ir.segments path texts = texts ∧
      m = ⟨fast.target, fast.names, texts.map some, 0⟩ := by
  obtain ⟨texts, hpath, hne, hslash, hempty, hlength, hproduct⟩ := fastMatch_some hm
  have hsimple := h.simple
  rw [b.isSimple_eq, Bool.and_eq_true] at hsimple
  obtain ⟨values, names, hsegments, -⟩ := exists_simple hsimple.2
  rw [h.head, hsegments, staticHeadOf_simple, ← routeText_append] at hpath
  rw [h.names, hsegments, paramNamesOf_simple] at hlength
  have hvalues : ∀ value ∈ values, slash ∉ value := by
    intro value hvalue
    have hmem : CompiledSegment.static value ∈ b.ir.segments := by
      rw [hsegments]
      exact List.mem_append_left _ (List.mem_map_of_mem hvalue)
    simpa using List.all_eq_true.mp h.comparable _ hmem
  have hparts : parts = values ++ texts := by
    apply hraw.parts_eq (by simp [hne]) ?_ hpath
    intro p hp
    rcases List.mem_append.mp hp with hp | hp
    · exact hvalues p hp
    · exact hslash p hp
  refine ⟨texts, ?_, ?_, ?_, hproduct⟩
  · -- The last part is one of the texts, and none of them is empty.
    intro front hfront
    have hlast := congrArg List.getLast? (hparts.symm.trans hfront)
    rw [List.getLast?_append_of_ne_nil _ hne] at hlast
    apply hempty
    apply List.mem_of_getLast?
    rw [hlast]
    simp
  · rw [hsegments, hparts]
    exact rawCaptures_simple values hlength hempty
  · have hwild : ¬wildLast b.ir.segments = true := by
      intro hlast
      have hmem := List.mem_of_getLast? (of_decide_eq_true hlast)
      rw [hsegments, simpleSegments] at hmem
      simp at hmem
    rw [trimmed, if_neg fun hall => hwild hall.1]

/-- A slice matcher answers as the trie does. -/
theorem Layered.slice_answers (h : Layered bound targets index) {parts : List JsString}
    (hraw : Raw path parts) {first : JsString} {bucket : Bucket}
    (hbucket : OrderedMap.get? index.buckets first = some bucket) {fast : FastMatcher}
    (hfast : bucket.fast = some fast) {m : RouteMatch} (hm : fastMatch fast path = some m) :
    ∃ m', matchPattern host index.trieRoot path = some m' ∧ m.Same m' := by
  obtain ⟨b, hbucketOf, hmatcher⟩ := h.buckets.fast first bucket hbucket fast hfast
  obtain ⟨texts, hsettled, hcap, htrimmed, rfl⟩ := hmatcher.reads hraw hm
  obtain ⟨-, -, hhead⟩ := mem_bucketOf.mp (hbucketOf ▸ List.mem_singleton_self b)
  have hfits : Fast b.ir.segments := Bound.fast_of_simple hmatcher.simple hmatcher.comparable
  have hstatic := b.static_nil
  have hshapes := hfits.shapesOf
  have htarget := hmatcher.target
  have hnames := hmatcher.names
  have hcappath : capturesPath host path (plainShape b.ir.segments) ≠ none := by
    rw [capturesPath_plainShape hraw hsettled hfits hstatic, hcap]
    simp
  -- The pattern is alone in its bucket.
  have honly : ∀ c ∈ bucketOf bound first, ∀ τ ∈ shapesOf c.ir.segments,
      capturesPath host path τ ≠ none → τ = plainShape b.ir.segments ∨
        Precedes (dynamicShapes bound) (plainShape b.ir.segments) τ := by
    intro c hc τ hτ _
    rw [hbucketOf, List.mem_singleton] at hc
    subst hc
    rw [hshapes, List.mem_singleton] at hτ
    exact .inl hτ
  obtain ⟨rest, hcons⟩ := List.head?_eq_some_iff.mp hhead
  rw [hcons] at hfits hstatic hcap htrimmed hcappath honly htarget hnames
  apply h.trie.answers hraw hsettled hfits hstatic hcap
  · exact precedes_of_bucket hcappath honly
  · exact htarget
  · exact hnames
  · intro i text htext
    rw [htrimmed] at htext
    simp [htext]

end Keala.Router
