import Keala.Router.SearchOrder
import Keala.Router.Rebuild

/-!
What the layers of an index hold of the patterns bound so far: the trie the
dynamic ones, the static table the others, and the fast layers those they can
read, each with the target that the trie gives it.
-/

namespace Keala.Router

open Keala.Js

/-- A path that was bound, and what it compiles to. -/
structure Bound (host : Host) where
  path : JsString
  ir : PatternIR
  compiled : compilePattern host path = .ok ir

variable {host : Host}

def FitsFast (segments : List CompiledSegment) : Prop :=
  isRegexEligible segments = true ∧ fastComparable segments = true

namespace Bound

theorem ir_eq {b c : Bound host} (h : b.path = c.path) : b.ir = c.ir := by
  have hb := b.compiled
  rw [h, c.compiled] at hb
  exact (Except.ok.inj hb).symm

theorem isStatic_eq (b : Bound host) : b.ir.isStatic = b.ir.segments.all CompiledSegment.isStatic :=
  (compilePattern_parts b.compiled).2.2

theorem isSimple_eq (b : Bound host) :
    b.ir.isSimple = (!b.ir.isStatic && simpleFrom false 0 b.ir.segments) := by
  have h := b.compiled
  rw [compilePattern] at h
  split at h
  · cases h
  · obtain ⟨segments, hsegments⟩ : ∃ segments,
        compileParts host b.path (splitSegments b.path) = .ok segments := by
      cases hparts : compileParts host b.path (splitSegments b.path) with
      | error e =>
          rw [hparts] at h
          cases h
      | ok segments => exact ⟨segments, rfl⟩
    rw [hsegments] at h
    rw [← Except.ok.inj h]

theorem wildcardLast (b : Bound host) : WildcardLast b.ir.segments :=
  compilePattern_wildcardLast b.compiled

theorem static_nil (b : Bound host) : CompiledSegment.static [] ∉ b.ir.segments :=
  compileParts_static_ne_nil (compilePattern_parts b.compiled).2.1

theorem exists_cons {b : Bound host} (h : b.ir.isStatic = false) :
    ∃ x rest, b.ir.segments = x :: rest := by
  apply List.exists_cons_of_ne_nil
  intro hnil
  rw [b.isStatic_eq, hnil] at h
  cases h

end Bound

/-- A static pattern captures nothing, so the fast layers have no use for it. -/
theorem not_isRegexEligible_of_static {segments : List CompiledSegment}
    (h : segments.all CompiledSegment.isStatic = true) : isRegexEligible segments = false := by
  have hnone : ∀ rest : List CompiledSegment, rest.all CompiledSegment.isStatic = true →
      eligibleCaptures rest = some 0 := by
    intro rest hrest
    induction rest with
    | nil => rfl
    | cons x rest ih =>
        rw [List.all_cons, Bool.and_eq_true] at hrest
        cases x with
        | static value => exact ih hrest.2
        | param name pattern optional => cases hrest.1
        | wildcard => cases hrest.1
  cases segments with
  | nil => rfl
  | cons x rest =>
      rw [List.all_cons, Bool.and_eq_true] at h
      cases x with
      | static value =>
          rw [isRegexEligible, hnone rest h.2]
          rfl
      | param name pattern optional => rfl
      | wildcard => rfl

theorem FitsFast.fast {segments : List CompiledSegment} (h : FitsFast segments) :
    Fast segments := by
  obtain ⟨value, rest, rfl⟩ := exists_static h.1
  refine ⟨?_, h.2⟩
  intro hnone
  have helig := h.1
  rw [isRegexEligible] at helig
  have hrest : eligibleCaptures rest = none := hnone
  rw [hrest] at helig
  cases helig

theorem eligibleCaptures_eq {segments : List CompiledSegment} {captures : ℕ}
    (h : eligibleCaptures segments = some captures) :
    captures = (paramNamesOf segments).length := by
  induction segments generalizing captures with
  | nil =>
      cases h
      rfl
  | cons x rest ih =>
      cases x with
      | static value => exact ih h
      | param name pattern optional =>
          rw [eligibleCaptures] at h
          split at h
          · cases h
          · obtain ⟨c, hc, rfl⟩ := Option.map_eq_some_iff.mp h
            rw [paramNamesOf_cons, ih hc, List.length_append, add_comm]
            rfl
      | wildcard =>
          rw [eligibleCaptures] at h
          split at h
          · next hrest =>
              subst hrest
              cases h
              rfl
          · cases h

theorem FitsFast.names_pos {segments : List CompiledSegment} (h : FitsFast segments) :
    0 < (routeNames segments).length := by
  obtain ⟨value, rest, rfl⟩ := exists_static h.1
  have helig := h.1
  rw [isRegexEligible] at helig
  cases hc : eligibleCaptures rest with
  | none =>
      rw [hc] at helig
      cases helig
  | some captures =>
      rw [hc] at helig
      have hnames : captures = (routeNames (.static value :: rest)).length := eligibleCaptures_eq hc
      rw [← hnames]
      exact of_decide_eq_true helig

/-! ### The patterns behind the layers -/

def dynamics (bound : List (Bound host)) : List (Bound host) :=
  bound.filter fun b => !b.ir.isStatic

/-- The shapes of the dynamic patterns, in the order in which they were bound. -/
def dynamicShapes (bound : List (Bound host)) : List (List Edge) :=
  (dynamics bound).flatMap fun b => shapesOf b.ir.segments

theorem mem_dynamicShapes {bound : List (Bound host)} {σ : List Edge} :
    σ ∈ dynamicShapes bound ↔
      ∃ b ∈ bound, b.ir.isStatic = false ∧ σ ∈ shapesOf b.ir.segments := by
  rw [dynamicShapes, List.mem_flatMap]
  simp only [dynamics, List.mem_filter, Bool.not_eq_true', and_assoc]

theorem dynamicShapes_concat_static {b : Bound host} (h : b.ir.isStatic = true)
    (bound : List (Bound host)) : dynamicShapes (bound ++ [b]) = dynamicShapes bound := by
  simp [dynamicShapes, dynamics, List.filter_append, h]

theorem dynamicShapes_concat_dynamic {b : Bound host} (h : b.ir.isStatic = false)
    (bound : List (Bound host)) :
    dynamicShapes (bound ++ [b]) = dynamicShapes bound ++ shapesOf b.ir.segments := by
  simp [dynamicShapes, dynamics, List.filter_append, h]

def bucketOf (bound : List (Bound host)) (first : JsString) : List (Bound host) :=
  (dynamics bound).filter fun b => b.ir.segments.head? == some (.static first)

theorem mem_bucketOf {bound : List (Bound host)} {first : JsString} {b : Bound host} :
    b ∈ bucketOf bound first ↔
      b ∈ bound ∧ b.ir.isStatic = false ∧ b.ir.segments.head? = some (.static first) := by
  simp only [bucketOf, dynamics, List.mem_filter, Bool.not_eq_true', beq_iff_eq, and_assoc]

/-! ### The layers -/

structure TrieLayer (bound : List (Bound host)) (targets : List Edge → Option TargetRef)
    (index : RouteIndex) : Prop where
  holds : Holds index.trieRoot (dynamicShapes bound) targets []
  assigned : Assigned (dynamicShapes bound) targets index.created
  hasDynamic : index.hasDynamic = true ↔ ∃ b ∈ bound, b.ir.isStatic = false

def StaticLayer (bound : List (Bound host)) (index : RouteIndex) : Prop :=
  ∀ key, OrderedMap.get? index.staticMap key ≠ none ↔
    ∃ b ∈ bound, b.ir.isStatic = true ∧ staticKey b.path = key

/-- The fast layers know every pattern that fits them, and the literals in
front of the ones that do not. -/
structure TableLayer (bound : List (Bound host)) (targets : List Edge → Option TargetRef)
    (index : RouteIndex) : Prop where
  nodup : (OrderedMap.keys index.regexIndex).Nodup
  entries : ∀ path entry, OrderedMap.get? index.regexIndex path = some entry →
    ∃ b ∈ bound, b.path = path ∧ entry.segments = b.ir.segments ∧ FitsFast entry.segments ∧
      targets (plainShape entry.segments) = some entry.target
  kept : ∀ b ∈ bound, FitsFast b.ir.segments →
    OrderedMap.get? index.regexIndex b.path ≠ none
  impure : ∀ b ∈ bound, b.ir.isStatic = false → ¬FitsFast b.ir.segments →
    ∀ first, b.ir.segments.head? = some (.static first) → first ∈ index.impureFirst

structure MatcherOf (b : Bound host) (targets : List Edge → Option TargetRef)
    (fast : FastMatcher) : Prop where
  simple : b.ir.isSimple = true
  comparable : fastComparable b.ir.segments = true
  head : fast.head = staticHeadOf b.ir.segments
  names : fast.names = paramNamesOf b.ir.segments
  target : targets (plainShape b.ir.segments) = some fast.target

/-- A bucket counts its patterns, and has a slice matcher only for a single one. -/
structure BucketLayer (bound : List (Bound host)) (targets : List Edge → Option TargetRef)
    (index : RouteIndex) : Prop where
  nodup : (OrderedMap.keys index.buckets).Nodup
  count : ∀ first, ((OrderedMap.get? index.buckets first).getD ⟨none, 0⟩).count =
    (bucketOf bound first).length
  fast : ∀ first bucket, OrderedMap.get? index.buckets first = some bucket →
    ∀ fast, bucket.fast = some fast → ∃ b, bucketOf bound first = [b] ∧ MatcherOf b targets fast

structure Layered (bound : List (Bound host)) (targets : List Edge → Option TargetRef)
    (index : RouteIndex) : Prop where
  trie : TrieLayer bound targets index
  static : StaticLayer bound index
  table : TableLayer bound targets index
  buckets : BucketLayer bound targets index

theorem layered_createRouteIndex :
    Layered ([] : List (Bound host)) (fun _ => none) createRouteIndex where
  trie := ⟨holds_createNode, assigned_nil, by simp [createRouteIndex]⟩
  static := by simp [StaticLayer, createRouteIndex]
  table := ⟨List.nodup_nil, by simp [createRouteIndex], by simp, by simp⟩
  buckets := ⟨List.nodup_nil, fun _ => rfl, by simp [createRouteIndex]⟩

/-! ### Binding one more pattern -/

variable {bound : List (Bound host)} {targets targets' : List Edge → Option TargetRef}
  {index : RouteIndex}

theorem not_fitsFast_of_static {b : Bound host} (h : b.ir.isStatic = true) :
    ¬FitsFast b.ir.segments := by
  intro hfits
  have hnot := not_isRegexEligible_of_static (b.isStatic_eq ▸ h)
  rw [hfits.1] at hnot
  cases hnot

theorem noteEligible_static {b : Bound host} (h : b.ir.isStatic = true) (index : RouteIndex)
    (target : TargetRef) : noteEligible index b.ir b.path target = index := by
  have hnot := not_isRegexEligible_of_static (b.isStatic_eq ▸ h)
  rw [noteEligible, hnot, h]
  rfl

/-- A static pattern goes to the static table, under a key of its own or not. -/
theorem bindRoute_static {b : Bound host} (h : b.ir.isStatic = true) (index : RouteIndex) :
    (∃ target, OrderedMap.get? index.staticMap (staticKey b.path) = some target ∧
      bindRoute index b.ir b.path =
        ({ index with mutations := index.mutations + 1 }, .ok [target])) ∨
    (OrderedMap.get? index.staticMap (staticKey b.path) = none ∧
      bindRoute index b.ir b.path =
        ({ index with
            staticMap := OrderedMap.set index.staticMap (staticKey b.path) index.created
            created := index.created + 1
            mutations := index.mutations + 1 }, .ok [index.created])) := by
  rw [bindRoute, indexPattern, if_pos h]
  dsimp only
  cases hget : OrderedMap.get? index.staticMap (staticKey b.path) with
  | some target =>
      left
      refine ⟨target, rfl, ?_⟩
      dsimp only
      rw [noteEligible_static h]
  | none =>
      right
      refine ⟨rfl, ?_⟩
      dsimp only
      rw [noteEligible_static h]

theorem Assigned.mono {shapes : List (List Edge)} {next last : TargetRef}
    (h : Assigned shapes targets next) (hle : next ≤ last) : Assigned shapes targets last :=
  ⟨h.total, fun σ t ht => (h.created σ t ht).trans_le hle, h.injective⟩

theorem bucketOf_concat_static {b : Bound host} (h : b.ir.isStatic = true)
    (bound : List (Bound host)) (first : JsString) :
    bucketOf (bound ++ [b]) first = bucketOf bound first := by
  simp [bucketOf, dynamics, List.filter_append, h]

/-- A static pattern changes nothing of the layers for dynamic ones. -/
theorem Layered.concat_static (h : Layered bound targets index) {b : Bound host}
    (hstatic : b.ir.isStatic = true) {next : RouteIndex} (htrie : next.trieRoot = index.trieRoot)
    (hdynamic : next.hasDynamic = index.hasDynamic) (htable : next.regexIndex = index.regexIndex)
    (himpure : next.impureFirst = index.impureFirst) (hbuckets : next.buckets = index.buckets)
    (hcreated : index.created ≤ next.created) (hnext : StaticLayer (bound ++ [b]) next) :
    Layered (bound ++ [b]) targets next where
  trie := by
    refine ⟨?_, ?_, ?_⟩
    · rw [dynamicShapes_concat_static hstatic, htrie]
      exact h.trie.holds
    · rw [dynamicShapes_concat_static hstatic]
      exact h.trie.assigned.mono hcreated
    · rw [hdynamic, h.trie.hasDynamic]
      simp [or_and_right, exists_or, hstatic]
  static := hnext
  table := by
    refine ⟨htable ▸ h.table.nodup, ?_, ?_, ?_⟩
    · intro path entry hentry
      rw [htable] at hentry
      obtain ⟨c, hc, hrest⟩ := h.table.entries path entry hentry
      exact ⟨c, List.mem_append_left _ hc, hrest⟩
    · intro c hc hfits
      rw [htable]
      rcases List.mem_append.mp hc with hc | hc
      · exact h.table.kept c hc hfits
      · obtain rfl := List.mem_singleton.mp hc
        exact absurd hfits (not_fitsFast_of_static hstatic)
    · intro c hc hdyn hfits first hfirst
      rw [himpure]
      rcases List.mem_append.mp hc with hc | hc
      · exact h.table.impure c hc hdyn hfits first hfirst
      · obtain rfl := List.mem_singleton.mp hc
        rw [hstatic] at hdyn
        cases hdyn
  buckets := by
    refine ⟨hbuckets ▸ h.buckets.nodup, fun first => ?_, fun first => ?_⟩
    · rw [hbuckets, bucketOf_concat_static hstatic]
      exact h.buckets.count first
    · rw [hbuckets, bucketOf_concat_static hstatic]
      exact h.buckets.fast first

theorem Layered.bind_static (h : Layered bound targets index) {b : Bound host}
    (hstatic : b.ir.isStatic = true) {next : RouteIndex} {found : List TargetRef}
    (hok : bindRoute index b.ir b.path = (next, .ok found)) :
    Layered (bound ++ [b]) targets next := by
  have hkeys : ∀ key, (∃ c ∈ bound ++ [b], c.ir.isStatic = true ∧ staticKey c.path = key) ↔
      (∃ c ∈ bound, c.ir.isStatic = true ∧ staticKey c.path = key) ∨ staticKey b.path = key := by
    intro key
    simp [or_and_right, exists_or, hstatic]
  rcases bindRoute_static hstatic index with ⟨target, hget, hbind⟩ | ⟨hget, hbind⟩
  · -- The key is in the table already: the pattern shares its target.
    rw [hbind] at hok
    cases hok
    refine h.concat_static hstatic rfl rfl rfl rfl rfl le_rfl fun key => ?_
    rw [hkeys, ← h.static key]
    constructor
    · exact .inl
    · rintro (hsome | rfl)
      · exact hsome
      · simp [hget]
  · rw [hbind] at hok
    cases hok
    refine h.concat_static hstatic rfl rfl rfl rfl rfl (Nat.le_succ _) fun key => ?_
    rw [hkeys, ← h.static key, OrderedMap.get?_set]
    by_cases hkey : staticKey b.path = key
    · simp [hkey]
    · simp [hkey]

theorem eligibleCaptures_of_simple {segments : List CompiledSegment} {sawDynamic : Bool} {i : ℕ}
    (h : simpleFrom sawDynamic i segments = true) : eligibleCaptures segments ≠ none := by
  induction segments generalizing sawDynamic i with
  | nil => simp [eligibleCaptures]
  | cons x rest ih =>
      cases x with
      | static value =>
          rw [simpleFrom, Bool.and_eq_true] at h
          exact ih h.2
      | param name pattern optional =>
          rw [simpleFrom, Bool.and_eq_true] at h
          have hplain : ¬(optional || pattern.isSome) = true := by
            intro hset
            rw [hset] at h
            exact absurd h.1 (by simp)
          rw [eligibleCaptures, if_neg hplain]
          intro hnone
          exact ih h.2 (Option.map_eq_none_iff.mp hnone)
      | wildcard => cases h

theorem Bound.fast_of_simple {b : Bound host} (hsimple : b.ir.isSimple = true)
    (hcomparable : fastComparable b.ir.segments = true) : Fast b.ir.segments := by
  rw [b.isSimple_eq, Bool.and_eq_true] at hsimple
  exact ⟨eligibleCaptures_of_simple hsimple.2, hcomparable⟩

theorem noteEligible_fits {b : Bound host} (h : FitsFast b.ir.segments) (index : RouteIndex)
    (target : TargetRef) : noteEligible index b.ir b.path target =
      { index with
        regexIndex := OrderedMap.set index.regexIndex b.path ⟨b.ir.segments, target⟩ } := by
  rw [noteEligible, if_pos (by rw [h.1, h.2]; rfl)]

/-- A dynamic pattern that does not fit keeps its bucket on the trie. -/
theorem noteEligible_unfit {b : Bound host} (hdyn : b.ir.isStatic = false)
    (h : ¬FitsFast b.ir.segments) (index : RouteIndex) (target : TargetRef) :
    ∃ impure, noteEligible index b.ir b.path target = { index with impureFirst := impure } ∧
      (∀ first ∈ index.impureFirst, first ∈ impure) ∧
      ∀ first, b.ir.segments.head? = some (.static first) → first ∈ impure := by
  have hnot : ¬(isRegexEligible b.ir.segments && fastComparable b.ir.segments) = true := by
    rw [Bool.and_eq_true]
    exact h
  rw [noteEligible, if_neg hnot, hdyn]
  obtain ⟨x, rest, hsegments⟩ := Bound.exists_cons hdyn
  rw [hsegments]
  cases x with
  | static first =>
      refine ⟨index.impureFirst.insert first, rfl, ?_, ?_⟩
      · intro other hother
        exact List.mem_insert_of_mem hother
      · intro other hother
        cases hother
        exact List.mem_insert_self
  | param name pattern optional => exact ⟨index.impureFirst, rfl, fun _ hmem => hmem, by simp⟩
  | wildcard => exact ⟨index.impureFirst, rfl, fun _ hmem => hmem, by simp⟩

/-- The index between the trie and the fast layers: what `indexPattern` makes of
a dynamic pattern. -/
structure Inserted (index : RouteIndex) (b : Bound host) (found : List TargetRef)
    (mid : RouteIndex) (root : TrieNode) (addresses : List (List Edge)) : Prop where
  inserted : insertPattern index.trieRoot b.ir.segments = (root, .ok addresses)
  targets : found = (assignTargets addresses root index.created).2.1.eraseDups
  trieRoot : mid.trieRoot = (assignTargets addresses root index.created).1
  created : mid.created = (assignTargets addresses root index.created).2.2
  hasDynamic : mid.hasDynamic = true
  buckets : mid.buckets = addToBucket index.buckets b.ir (found.head?.getD 0)
  staticMap : mid.staticMap = index.staticMap
  regexIndex : mid.regexIndex = index.regexIndex
  impureFirst : mid.impureFirst = index.impureFirst

/-- A dynamic pattern goes to the trie, to its bucket and to the fast layers. -/
theorem bindRoute_dynamic {b : Bound host} (h : b.ir.isStatic = false) {next : RouteIndex}
    {found : List TargetRef} (hok : bindRoute index b.ir b.path = (next, .ok found)) :
    ∃ mid root addresses, Inserted index b found mid root addresses ∧
      next = noteEligible mid b.ir b.path (found.head?.getD 0) := by
  have hnot : ¬b.ir.isStatic = true := by simp [h]
  rw [bindRoute, indexPattern, if_neg hnot] at hok
  generalize hins : insertPattern index.trieRoot b.ir.segments = inserted at hok
  obtain ⟨root, result⟩ := inserted
  cases result with
  | error e => cases hok
  | ok addresses =>
      cases hok
      refine ⟨_, root, addresses, ?_, rfl⟩
      exact ⟨hins, rfl, rfl, rfl, rfl, rfl, rfl, rfl, rfl⟩

/-- What a dynamic pattern leaves of the tables, whether it fits or not. -/
theorem noteEligible_frame {b : Bound host} (hdyn : b.ir.isStatic = false) (index : RouteIndex)
    (target : TargetRef) :
    (noteEligible index b.ir b.path target).trieRoot = index.trieRoot ∧
      (noteEligible index b.ir b.path target).created = index.created ∧
      (noteEligible index b.ir b.path target).hasDynamic = index.hasDynamic ∧
      (noteEligible index b.ir b.path target).staticMap = index.staticMap ∧
      (noteEligible index b.ir b.path target).buckets = index.buckets := by
  by_cases h : FitsFast b.ir.segments
  · rw [noteEligible_fits h]
    exact ⟨rfl, rfl, rfl, rfl, rfl⟩
  · obtain ⟨impure, hnote, -⟩ := noteEligible_unfit hdyn h index target
    rw [hnote]
    exact ⟨rfl, rfl, rfl, rfl, rfl⟩

def Extends (targets targets' : List Edge → Option TargetRef) : Prop :=
  ∀ σ t, targets σ = some t → targets' σ = some t

theorem TableLayer.concat (h : TableLayer bound targets index) {b : Bound host}
    (hdyn : b.ir.isStatic = false) (hext : Extends targets targets') {mid : RouteIndex}
    (htable : mid.regexIndex = index.regexIndex) (himpure : mid.impureFirst = index.impureFirst)
    {target : TargetRef}
    (htarget : Fast b.ir.segments → targets' (plainShape b.ir.segments) = some target) :
    TableLayer (bound ++ [b]) targets' (noteEligible mid b.ir b.path target) := by
  by_cases hfits : FitsFast b.ir.segments
  · rw [noteEligible_fits hfits]
    refine ⟨?_, ?_, ?_, ?_⟩
    · rw [htable]
      exact OrderedMap.nodup_set h.nodup _ _
    · intro path entry hentry
      rw [htable, OrderedMap.get?_set] at hentry
      split at hentry
      · next hpath =>
          -- A path that was bound before is written over.
          cases hentry
          exact ⟨b, by simp, hpath, rfl, hfits, htarget hfits.fast⟩
      · obtain ⟨c, hc, hpath, hsegments, hfast, ht⟩ := h.entries path entry hentry
        exact ⟨c, List.mem_append_left _ hc, hpath, hsegments, hfast, hext _ _ ht⟩
    · intro c hc hcfits
      rw [htable, OrderedMap.get?_set]
      split
      · simp
      · next hpath =>
          rcases List.mem_append.mp hc with hc | hc
          · exact h.kept c hc hcfits
          · obtain rfl := List.mem_singleton.mp hc
            exact absurd rfl hpath
    · intro c hc hcdyn hcfits first hfirst
      rcases List.mem_append.mp hc with hc | hc
      · exact himpure ▸ h.impure c hc hcdyn hcfits first hfirst
      · obtain rfl := List.mem_singleton.mp hc
        exact absurd hfits hcfits
  · obtain ⟨impure, hnote, hkept, hnew⟩ := noteEligible_unfit hdyn hfits mid target
    rw [hnote]
    refine ⟨htable ▸ h.nodup, ?_, ?_, ?_⟩
    · intro path entry hentry
      obtain ⟨c, hc, hpath, hsegments, hfast, ht⟩ := h.entries path entry (htable ▸ hentry)
      exact ⟨c, List.mem_append_left _ hc, hpath, hsegments, hfast, hext _ _ ht⟩
    · intro c hc hcfits
      rcases List.mem_append.mp hc with hc | hc
      · exact htable ▸ h.kept c hc hcfits
      · obtain rfl := List.mem_singleton.mp hc
        exact absurd hcfits hfits
    · intro c hc hcdyn hcfits first hfirst
      rcases List.mem_append.mp hc with hc | hc
      · exact hkept first (himpure ▸ h.impure c hc hcdyn hcfits first hfirst)
      · obtain rfl := List.mem_singleton.mp hc
        exact hnew first hfirst

theorem bucketOf_concat_dynamic {b : Bound host} (h : b.ir.isStatic = false)
    (bound : List (Bound host)) (first : JsString) :
    bucketOf (bound ++ [b]) first = bucketOf bound first ++
      if b.ir.segments.head? = some (.static first) then [b] else [] := by
  by_cases hfirst : b.ir.segments.head? = some (.static first)
  · simp [bucketOf, dynamics, List.filter_append, h, hfirst]
  · simp [bucketOf, dynamics, List.filter_append, h, hfirst]

theorem addToBucket_static (buckets : List (JsString × Bucket)) {ir : PatternIR} {first : JsString}
    (h : ir.segments.head? = some (.static first)) (target : TargetRef) :
    addToBucket buckets ir target = OrderedMap.set buckets first
      { fast :=
          if ((OrderedMap.get? buckets first).getD ⟨none, 0⟩).count + 1 = 1 ∧ ir.isSimple ∧
              fastComparable ir.segments then
            some ⟨staticHeadOf ir.segments, paramNamesOf ir.segments, target⟩
          else none
        count := ((OrderedMap.get? buckets first).getD ⟨none, 0⟩).count + 1 } := by
  obtain ⟨rest, hsegments⟩ := List.head?_eq_some_iff.mp h
  rw [addToBucket, hsegments]

theorem addToBucket_other (buckets : List (JsString × Bucket)) {ir : PatternIR}
    (h : ∀ first, ir.segments.head? ≠ some (.static first)) (target : TargetRef) :
    addToBucket buckets ir target = buckets := by
  rw [addToBucket]
  split
  · next first rest hsegments => exact absurd (by rw [hsegments]; rfl) (h first)
  · rfl

theorem BucketLayer.concat (h : BucketLayer bound targets index) {b : Bound host}
    (hdyn : b.ir.isStatic = false) (hext : Extends targets targets') {next : RouteIndex}
    {target : TargetRef} (hnext : next.buckets = addToBucket index.buckets b.ir target)
    (htarget : Fast b.ir.segments → targets' (plainShape b.ir.segments) = some target) :
    BucketLayer (bound ++ [b]) targets' next := by
  -- The buckets that `b` does not go to are as before.
  have hold : ∀ first bucket, OrderedMap.get? index.buckets first = some bucket →
      ∀ fast, bucket.fast = some fast →
        ∃ c, bucketOf bound first = [c] ∧ MatcherOf c targets' fast := by
    intro first bucket hbucket fast hfast
    obtain ⟨c, hc, hmatcher⟩ := h.fast first bucket hbucket fast hfast
    exact ⟨c, hc, { hmatcher with target := hext _ _ hmatcher.target }⟩
  by_cases hhead : ∃ first, b.ir.segments.head? = some (.static first)
  · obtain ⟨first, hfirst⟩ := hhead
    rw [addToBucket_static _ hfirst] at hnext
    refine ⟨?_, ?_, ?_⟩
    · rw [hnext]
      exact OrderedMap.nodup_set h.nodup _ _
    · intro other
      have hcount := h.count other
      rw [hnext, OrderedMap.get?_set, bucketOf_concat_dynamic hdyn, hfirst]
      by_cases hother : first = other
      · subst hother
        simp [hcount]
      · simp [hother, hcount]
    · intro other bucket hbucket fast hfast
      rw [hnext, OrderedMap.get?_set] at hbucket
      rw [bucketOf_concat_dynamic hdyn, hfirst]
      by_cases hother : first = other
      · subst hother
        rw [if_pos rfl] at hbucket ⊢
        obtain rfl := Option.some.inj hbucket
        dsimp only at hfast
        split at hfast
        · next hone =>
            obtain ⟨hcount, hsimple, hcomparable⟩ := hone
            -- The count says that the bucket was empty, so `b` is alone in it.
            rw [h.count first] at hcount
            have hempty : bucketOf bound first = [] := List.length_eq_zero_iff.mp (by omega)
            obtain rfl := Option.some.inj hfast
            refine ⟨b, by rw [hempty]; rfl, hsimple, hcomparable, rfl, rfl, ?_⟩
            exact htarget (Bound.fast_of_simple hsimple hcomparable)
        · cases hfast
      · rw [if_neg hother] at hbucket
        have hne : (some (CompiledSegment.static first)) ≠ some (.static other) := by
          simpa using hother
        rw [if_neg hne, List.append_nil]
        exact hold other bucket hbucket fast hfast
  · rw [not_exists] at hhead
    rw [addToBucket_other _ hhead] at hnext
    refine ⟨hnext ▸ h.nodup, fun first => ?_, fun first bucket hbucket => ?_⟩
    · rw [hnext, bucketOf_concat_dynamic hdyn, if_neg (hhead first), List.append_nil]
      exact h.count first
    · rw [bucketOf_concat_dynamic hdyn, if_neg (hhead first), List.append_nil]
      exact hold first bucket (hnext ▸ hbucket)

/-- What fits the fast layers has one terminal, and its target. -/
theorem target_of_fast {segments : List CompiledSegment} (h : Fast segments)
    {assigned : List TargetRef}
    (hassigned : (shapesOf segments).map targets = assigned.map some) :
    targets (plainShape segments) = some (assigned.eraseDups.head?.getD 0) := by
  rw [h.shapesOf] at hassigned
  cases assigned with
  | nil => cases hassigned
  | cons target rest =>
      rw [List.map_singleton, List.map_cons] at hassigned
      rw [(List.cons.inj hassigned).1]
      simp [List.eraseDups_cons]

theorem Layered.bind_dynamic (h : Layered bound targets index) {b : Bound host}
    (hdyn : b.ir.isStatic = false) {next : RouteIndex} {found : List TargetRef}
    (hok : bindRoute index b.ir b.path = (next, .ok found)) :
    ∃ targets', Layered (bound ++ [b]) targets' next := by
  obtain ⟨mid, root, addresses, hmid, rfl⟩ := bindRoute_dynamic hdyn hok
  obtain ⟨targets', hholds, hassigned, hext, -, hfound⟩ :=
    insertPattern_spec h.trie.holds h.trie.assigned b.wildcardLast hmid.inserted
  obtain ⟨htrie, hcreated, hdynamic, hstatic, hbuckets⟩ :=
    noteEligible_frame hdyn mid (found.head?.getD 0)
  have htarget : Fast b.ir.segments →
      targets' (plainShape b.ir.segments) = some (found.head?.getD 0) := by
    intro hfast
    rw [hmid.targets]
    exact target_of_fast hfast hfound
  refine ⟨targets', ⟨?_, ?_, ?_⟩, ?_, ?_, ?_⟩
  · rw [dynamicShapes_concat_dynamic hdyn, htrie, hmid.trieRoot]
    exact hholds
  · rw [dynamicShapes_concat_dynamic hdyn, hcreated, hmid.created]
    exact hassigned
  · rw [hdynamic, hmid.hasDynamic]
    exact iff_of_true rfl ⟨b, by simp, hdyn⟩
  · intro key
    rw [hstatic, hmid.staticMap, h.static key]
    simp [or_and_right, exists_or, hdyn]
  · exact h.table.concat hdyn hext hmid.regexIndex hmid.impureFirst htarget
  · exact h.buckets.concat hdyn hext (hbuckets.trans hmid.buckets) htarget

/-- Binding a pattern keeps the layers in step. -/
theorem Layered.bind (h : Layered bound targets index) (b : Bound host) {next : RouteIndex}
    {found : List TargetRef} (hok : bindRoute index b.ir b.path = (next, .ok found)) :
    ∃ targets', Layered (bound ++ [b]) targets' next := by
  cases hstatic : b.ir.isStatic with
  | true => exact ⟨targets, h.bind_static hstatic hok⟩
  | false => exact h.bind_dynamic hstatic hok

/-- The layers of an index that was made by binding paths hold their patterns. -/
theorem Layered.bindRoutes {paths : List JsString} (h : Layered bound targets index)
    {next : RouteIndex} (hok : bindRoutes host paths index = (next, .ok ())) :
    ∃ more targets', more.map Bound.path = paths ∧ Layered (bound ++ more) targets' next := by
  induction paths generalizing bound targets index with
  | nil =>
      cases hok
      exact ⟨[], targets, rfl, by rwa [List.append_nil]⟩
  | cons path paths ih =>
      rw [Router.bindRoutes] at hok
      generalize hcompiled : compilePattern host path = compiled at hok
      cases compiled with
      | error e => cases hok
      | ok ir =>
          dsimp only at hok
          generalize hbind : bindRoute index ir path = bound' at hok
          obtain ⟨mid, result⟩ := bound'
          cases result with
          | error e => cases hok
          | ok found =>
              obtain ⟨targets', hmid⟩ := h.bind ⟨path, ir, hcompiled⟩ hbind
              obtain ⟨more, targets'', hmore, hnext⟩ := ih hmid hok
              refine ⟨⟨path, ir, hcompiled⟩ :: more, targets'', by rw [List.map_cons, hmore], ?_⟩
              rwa [List.append_assoc] at hnext

theorem layered_tables_iff : Layered bound targets index.tables ↔ Layered bound targets index := by
  constructor
  · intro h
    exact ⟨⟨h.trie.holds, h.trie.assigned, h.trie.hasDynamic⟩, h.static,
      ⟨h.table.nodup, h.table.entries, h.table.kept, h.table.impure⟩,
      ⟨h.buckets.nodup, h.buckets.count, h.buckets.fast⟩⟩
  · intro h
    exact ⟨⟨h.trie.holds, h.trie.assigned, h.trie.hasDynamic⟩, h.static,
      ⟨h.table.nodup, h.table.entries, h.table.kept, h.table.impure⟩,
      ⟨h.buckets.nodup, h.buckets.count, h.buckets.fast⟩⟩

/-- The epoch and the memo say nothing about the layers. -/
theorem Layered.of_tables {other : RouteIndex} (h : Layered bound targets index)
    (heq : index.tables = other.tables) : Layered bound targets other := by
  rw [← layered_tables_iff] at h ⊢
  exact heq ▸ h

end Keala.Router
