import Keala.Lib.Except
import Keala.Lib.Lts
import Keala.Router.LayerAnswers
import Keala.Router.Transaction

/-!
`matchRoute` against its reference: a request that decodes like a static route
is answered with its entry of the static table, and every other one as the trie
answers it, whichever layer was asked. The one exception are static routes that
were stored with a slash at their end.
-/

namespace Keala.Router

open Keala.Js Keala.Core

variable {host : Host} {path : JsString}

/-! ### Keys of the static table -/

theorem reescape_of_plain {value : JsString} (hpercent : percent ∉ value) (hslash : slash ∉ value) :
    reescape value = value := by
  induction value with
  | nil => rfl
  | cons c value ih =>
      rw [List.mem_cons, not_or] at hpercent hslash
      rw [reescape, List.flatMap_cons, if_neg (Ne.symm hpercent.1), if_neg (Ne.symm hslash.1)]
      exact congrArg (c :: ·) (ih hpercent.2 hslash.2)

/-- A path without escapes is its canonical key. -/
theorem canonicalKey_of_plain (h : percent ∉ path) : canonicalKey path = path := by
  have hid : (split slash path).map (fun segment => reescape (decodeSegment segment)) =
      split slash path := by
    refine (List.map_congr_left fun part hpart => ?_).trans (List.map_id _)
    have hplain : percent ∉ part := fun hmem => h (mem_of_mem_split hpart hmem)
    rw [decodeSegment, if_neg hplain]
    exact reescape_of_plain hplain (not_mem_of_mem_split hpart)
  rw [canonicalKey, hid, join_split]

theorem staticKey_eq_canonicalKey (path : JsString) : staticKey path = canonicalKey path := by
  rw [staticKey]
  split
  · rfl
  · next h => exact (canonicalKey_of_plain h).symm

theorem percent_not_mem_normalizePath (h : percent ∉ path) : percent ∉ normalizePath path := by
  rw [normalizePath]
  split
  · exact fun hmem => h (List.mem_of_mem_dropLast hmem)
  · exact h

theorem rawSegments_normalized (hroot : path.head? = some slash) :
    rawSegments (normalizePath path) =
      [] :: if decodedSegments path = [] then [[]] else decodedSegments path := by
  obtain ⟨tail, hne, htail⟩ := rawSegments_of_rooted (normalizePath_rooted hroot)
  rw [decodedSegments_eq, htail, List.tail_cons]
  by_cases hblank : tail = [[]]
  · simp [hblank]
  · simp [hblank, hne]

/-- Paths that decode alike have one key, once a slash is taken off their ends. -/
theorem canonicalKey_normalized {other : JsString} (hroot : path.head? = some slash)
    (hother : other.head? = some slash) (h : decodedSegments path = decodedSegments other) :
    canonicalKey (normalizePath path) = canonicalKey (normalizePath other) := by
  rw [canonicalKey_eq_iff, rawSegments_normalized hroot, rawSegments_normalized hother, h]

/-- The static table is looked up by the key of a path once a slash is taken
off its end. -/
theorem static_hit_of_key {index : RouteIndex}
    (h : OrderedMap.get? index.staticMap (canonicalKey (normalizePath path)) ≠ none) :
    (OrderedMap.get? index.staticMap path).or (staticCandidate index path) ≠ none := by
  have hor : staticCandidate index path ≠ none →
      (OrderedMap.get? index.staticMap path).or (staticCandidate index path) ≠ none :=
    fun hcandidate hnone => hcandidate (Option.or_eq_none_iff.mp hnone).2
  by_cases hpercent : percent ∈ path
  · -- An escaped path is looked up by its canonical key last.
    apply hor
    by_cases hsame : normalizePath path = path
    · rw [hsame] at h
      obtain ⟨target, htarget⟩ := Option.ne_none_iff_exists'.mp h
      simp [staticCandidate, hsame, hpercent, htarget]
    · rw [staticCandidate, if_pos hsame]
      split
      · split
        · simp
        · exact h
      · next hfound => exact fun hnone => hfound ⟨hnone, hpercent⟩
  · -- A plain path is its key, so the raw and the stripped text decide.
    rw [canonicalKey_of_plain (percent_not_mem_normalizePath hpercent)] at h
    by_cases hsame : normalizePath path = path
    · rw [hsame] at h
      exact fun hnone => h (Option.or_eq_none_iff.mp hnone).1
    · apply hor
      rw [staticCandidate, if_pos hsame, if_neg fun hboth => hpercent hboth.2]
      exact h

/-! ### Static routes -/

/-- A path that is static and was stored with a slash at its end. -/
def keepsSlash (host : Host) (path : JsString) : Bool :=
  match compilePattern host path with
  | .ok ir => ir.isStatic && normalizePath path != path
  | .error _ => false

theorem normalizePath_of_not_keepsSlash {b : Bound host} (hstatic : b.ir.isStatic = true)
    (h : keepsSlash host b.path = false) : normalizePath b.path = b.path := by
  rw [keepsSlash, b.compiled] at h
  simpa [hstatic] using h

variable {bound : List (Bound host)} {targets : List Edge → Option TargetRef} {index : RouteIndex}

theorem Bound.rooted (b : Bound host) : b.path.head? = some slash :=
  (compilePattern_parts b.compiled).1

/-- What the static table has for a path belongs to a static route that decodes
like it. -/
theorem Layered.static_of_hit (h : Layered bound targets index)
    (hplain : ∀ b ∈ bound, keepsSlash host b.path = false) {target : TargetRef}
    (hhit : (OrderedMap.get? index.staticMap path).or (staticCandidate index path) =
      some target) :
    ∃ b ∈ bound, b.ir.isStatic = true ∧ decodedSegments path = decodedSegments b.path ∧
      OrderedMap.get? index.staticMap (staticKey b.path) = some target := by
  obtain ⟨key, hkey, hget⟩ : ∃ key ∈ staticKeys path,
      OrderedMap.get? index.staticMap key = some target := by
    rcases Option.or_eq_some_iff.mp hhit with hraw | ⟨-, hcandidate⟩
    · exact ⟨path, List.mem_cons_self, hraw⟩
    · exact staticCandidate_key hcandidate
  obtain ⟨b, hb, hstatic, rfl⟩ := (h.static key).mp (by simp [hget])
  have hnormal := normalizePath_of_not_keepsSlash hstatic (hplain b hb)
  exact ⟨b, hb, hstatic, decodedSegments_of_key b.rooted hnormal hkey, hget⟩

/-- A path that decodes like a static route is answered with its entry. -/
theorem Layered.hit_of_static (h : Layered bound targets index)
    (hplain : ∀ b ∈ bound, keepsSlash host b.path = false) (hroot : path.head? = some slash)
    {b : Bound host} (hb : b ∈ bound) (hstatic : b.ir.isStatic = true)
    (hsame : decodedSegments path = decodedSegments b.path) :
    ∃ target, OrderedMap.get? index.staticMap (staticKey b.path) = some target ∧
      (OrderedMap.get? index.staticMap path).or (staticCandidate index path) = some target := by
  -- All static routes that decode like the path share one key.
  have hkeyOf : ∀ c ∈ bound, c.ir.isStatic = true → decodedSegments path = decodedSegments c.path →
      staticKey c.path = canonicalKey (normalizePath path) := by
    intro c hc hcstatic hcsame
    rw [canonicalKey_normalized hroot c.rooted hcsame,
      normalizePath_of_not_keepsSlash hcstatic (hplain c hc), staticKey_eq_canonicalKey]
  have hkey := hkeyOf b hb hstatic hsame
  have hentry : OrderedMap.get? index.staticMap (staticKey b.path) ≠ none :=
    (h.static _).mpr ⟨b, hb, hstatic, rfl⟩
  obtain ⟨target, htarget⟩ :=
    Option.ne_none_iff_exists'.mp (static_hit_of_key (hkey ▸ hentry))
  obtain ⟨c, hc, hcstatic, hcsame, hget⟩ := h.static_of_hit hplain htarget
  refine ⟨target, ?_, htarget⟩
  rw [hkey, ← hkeyOf c hc hcstatic hcsame]
  exact hget

/-! ### Every other request -/

theorem TrieLayer.matchPattern_eq_none (h : TrieLayer bound targets index)
    (hdynamic : index.hasDynamic = false) : matchPattern host index.trieRoot path = none := by
  rw [matchPattern_none_iff h.holds h.assigned]
  intro σ hσ
  obtain ⟨b, hb, hdyn, -⟩ := mem_dynamicShapes.mp hσ
  rw [h.hasDynamic.mpr ⟨b, hb, hdyn⟩] at hdynamic
  cases hdynamic

theorem option_rel_same (found : Option RouteMatch) : Option.Rel RouteMatch.Same found found := by
  cases found with
  | none => exact .none
  | some m => exact .some (.refl m)

/-- Whichever layer answers, it answers as the trie does. -/
theorem Layered.layers_answer (h : Layered bound targets index) {parts : List JsString}
    (hraw : Raw path parts) {matchers : List FastMatcher} {table : Option TableRegex}
    (hlayers : fastLayers index = .ok (matchers, table)) :
    Option.Rel RouteMatch.Same
      (((matchers.findSome? (fastMatch · path)).or (table.bind (matchTableRegex · path))).or
        (matchPattern host index.trieRoot path))
      (matchPattern host index.trieRoot path) := by
  obtain ⟨compiled, htable, hmap⟩ := Except.ok_of_map hlayers
  obtain ⟨hmatchers, rfl⟩ := Prod.mk.inj hmap
  have hbuckets : ∀ fast ∈ matchers, ∃ first bucket,
      OrderedMap.get? index.buckets first = some bucket ∧ bucket.fast = some fast := by
    intro fast hfast
    rw [← hmatchers] at hfast
    split at hfast
    · obtain ⟨⟨first, bucket⟩, hmem, hbucket⟩ := List.mem_filterMap.mp hfast
      exact ⟨first, bucket, (OrderedMap.get?_eq_some_iff h.buckets.nodup _ _).mpr hmem, hbucket⟩
    · cases hfast
  cases hslice : matchers.findSome? (fastMatch · path) with
  | some m =>
      obtain ⟨fast, hfast, hm⟩ := List.exists_of_findSome?_eq_some hslice
      obtain ⟨first, bucket, hbucket, hof⟩ := hbuckets fast hfast
      obtain ⟨m', hm', hsame⟩ := h.slice_answers hraw hbucket hof hm
      rw [hm']
      exact .some hsame
  | none =>
      cases hregex : compiled.bind (matchTableRegex · path) with
      | some m =>
          obtain ⟨table, rfl, hm⟩ := Option.bind_eq_some_iff.mp hregex
          obtain ⟨m', hm', hsame⟩ := h.table_answers hraw htable hm
          rw [hm']
          exact .some hsame
      | none => exact option_rel_same _

theorem Layered.answers_as_trie (h : Layered bound targets index)
    (hroot : path.head? = some slash) (hline : ∀ c ∈ path, isLineTerminator c = false)
    (hmiss : (OrderedMap.get? index.staticMap path).or (staticCandidate index path) = none) :
    ∃ found, answerOf host index path = .ok found ∧
      Option.Rel RouteMatch.Same found (matchPattern host index.trieRoot path) := by
  rw [answerOf, hmiss]
  dsimp only
  cases hdynamic : index.hasDynamic with
  | false => exact ⟨none, rfl, h.trie.matchPattern_eq_none hdynamic ▸ option_rel_same none⟩
  | true =>
      by_cases hpercent : percent ∈ path
      · -- Escaped paths skip the fast layers.
        rw [if_pos hpercent]
        exact ⟨_, rfl, option_rel_same _⟩
      · rw [if_neg hpercent]
        obtain ⟨parts, hraw⟩ := exists_raw hroot hpercent hline
        obtain ⟨table, htable⟩ := h.exists_table
        have hlayers : ∃ matchers, fastLayers index = .ok (matchers, table) := by
          rw [fastLayers, htable]
          exact ⟨_, rfl⟩
        obtain ⟨matchers, hlayers⟩ := hlayers
        rw [hlayers]
        exact ⟨_, rfl, h.layers_answer hraw hlayers⟩

/-! ### Runs of a router -/

variable {η : Type}

def StaticFor (host : Host) (d : RouteDef η) (path : JsString) : Prop :=
  ∃ ir, compilePattern host d.path = .ok ir ∧ ir.isStatic = true ∧
    decodedSegments path = decodedSegments d.path

/-- `matchRoute` answers with the entry of a static route that decodes like the
path, and as the trie does when there is none. -/
def MatchesReference (host : Host) (state : RouterState η) (path : JsString) : Prop :=
  ∃ next found, matchRoute host state.index path = .ok (next, found) ∧
    (∀ d ∈ state.defs, StaticFor host d path →
      ∃ target, OrderedMap.get? state.index.staticMap (staticKey d.path) = some target ∧
        found = some (staticMatch target)) ∧
    ((∀ d ∈ state.defs, ¬StaticFor host d path) →
      Option.Rel RouteMatch.Same found (matchPattern host state.index.trieRoot path))

/-- The definitions of a router in sync are what its layers hold. -/
theorem Indexed.layered {state : RouterState η} (h : Indexed host state) :
    ∃ (bound : List (Bound host)) (targets : List Edge → Option TargetRef),
      bound.map Bound.path = state.defs.map RouteDef.path ∧ Layered bound targets state.index := by
  have hreplays := h.replays
  have htables := h.tables
  rw [Replays] at hreplays
  generalize hfresh : bindRoutes host (state.defs.map RouteDef.path) createRouteIndex = built
    at hreplays htables
  obtain ⟨fresh, result⟩ := built
  change result = .ok () at hreplays
  subst hreplays
  obtain ⟨bound, targets, hpaths, hlayered⟩ := layered_createRouteIndex.bindRoutes hfresh
  exact ⟨bound, targets, hpaths, hlayered.of_tables htables⟩

theorem StaticFor.isStatic {d : RouteDef η} {b : Bound host} (hpath : b.path = d.path)
    (h : StaticFor host d path) :
    b.ir.isStatic = true ∧ decodedSegments path = decodedSegments b.path := by
  obtain ⟨ir, hir, hstatic, hsame⟩ := h
  have hcompiled := b.compiled
  rw [hpath, hir] at hcompiled
  rw [← Except.ok.inj hcompiled, hpath]
  exact ⟨hstatic, hsame⟩

theorem Indexed.matchesReference {state : RouterState η} (h : Indexed host state)
    (hplain : ∀ d ∈ state.defs, keepsSlash host d.path = false)
    (hroot : path.head? = some slash) (hline : ∀ c ∈ path, isLineTerminator c = false) :
    MatchesReference host state path := by
  obtain ⟨bound, targets, hpaths, hlayered⟩ := h.layered
  have hbound : ∀ b ∈ bound, ∃ d ∈ state.defs, d.path = b.path := fun b hb =>
    List.mem_map.mp (hpaths ▸ List.mem_map_of_mem hb)
  have hplainBound : ∀ b ∈ bound, keepsSlash host b.path = false := by
    intro b hb
    obtain ⟨d, hd, hpath⟩ := hbound b hb
    exact hpath ▸ hplain d hd
  have hentry : ∀ d ∈ state.defs, StaticFor host d path → ∃ target,
      OrderedMap.get? state.index.staticMap (staticKey d.path) = some target ∧
        (OrderedMap.get? state.index.staticMap path).or (staticCandidate state.index path) =
          some target := by
    intro d hd hfor
    obtain ⟨b, hb, hpath⟩ : ∃ b ∈ bound, b.path = d.path :=
      List.mem_map.mp (hpaths.symm ▸ List.mem_map_of_mem hd)
    obtain ⟨hstatic, hsame⟩ := hfor.isStatic hpath
    exact hpath ▸ hlayered.hit_of_static hplainBound hroot hb hstatic hsame
  cases hhit : (OrderedMap.get? state.index.staticMap path).or
      (staticCandidate state.index path) with
  | some target =>
      have hfound : answer host state.index path = .ok (some (staticMatch target)) := by
        rw [answer_eq host h.coherent, answerOf, hhit]
      obtain ⟨⟨next, found⟩, hmatch, rfl⟩ := Except.ok_of_map hfound
      refine ⟨next, _, hmatch, fun d hd hfor => ?_, fun hnone => ?_⟩
      · obtain ⟨other, hget, hother⟩ := hentry d hd hfor
        obtain rfl : target = other := Option.some.inj (hhit.symm.trans hother)
        exact ⟨target, hget, rfl⟩
      · obtain ⟨b, hb, hstatic, hsame, -⟩ := hlayered.static_of_hit hplainBound hhit
        obtain ⟨d, hd, hpath⟩ := hbound b hb
        exact absurd ⟨b.ir, hpath ▸ b.compiled, hstatic, hpath ▸ hsame⟩ (hnone d hd)
  | none =>
      obtain ⟨found, hfound, hrel⟩ := hlayered.answers_as_trie hroot hline hhit
      obtain ⟨⟨next, found⟩, hmatch, rfl⟩ :=
        Except.ok_of_map ((answer_eq host h.coherent path).trans hfound)
      refine ⟨next, found, hmatch, fun d hd hfor => ?_, fun _ => hrel⟩
      obtain ⟨other, -, hother⟩ := hentry d hd hfor
      rw [hhit] at hother
      cases hother

/-- A router in sync whose static routes have no slash at their end. -/
structure StoredPlain (host : Host) (state : RouterState η) : Prop where
  indexed : Indexed host state
  plain : ∀ d ∈ state.defs, keepsSlash host d.path = false

theorem createRouterState_storedPlain (pathPrefix : JsString) :
    StoredPlain host (createRouterState pathPrefix : RouterState η) where
  indexed := ⟨RouteIndex.coherent_of_fastIndex_eq_none rfl, rfl, rfl⟩
  plain := by simp [createRouterState]

variable [DecidableEq η]

inductive RouterCall (η : Type)
  | register (r : Registration η) (middleware : MiddlewareStack η)
  | rebuild (middleware : MiddlewareStack η)
  | route (path : JsString)

def RouterCall.run (host : Host) (state : RouterState η) : RouterCall η → RouterState η
  | register r middleware => (registerDef host state r middleware).1
  | rebuild middleware => (rebuildChains host state middleware).1
  | route path =>
      match matchRoute host state.index path with
      | .ok (index, _) => { state with index }
      | .error _ => state

def routing (host : Host) (pathPrefix : JsString) : Lts (RouterState η) (RouterCall η) where
  start := createRouterState pathPrefix
  step state call := some (call.run host state)

def RouterCall.storesPlain (host : Host) (state : RouterState η) : RouterCall η → Bool
  | register r _ =>
      match checkedDef host state r with
      | .ok d => !keepsSlash host d.path
      | .error _ => true
  | _ => true

theorem registerDef_checked {state : RouterState η} {r : Registration η}
    {middleware : MiddlewareStack η} {d : RouteDef η}
    (h : (registerDef host state r middleware).2 = .ok d) : checkedDef host state r = .ok d := by
  rw [registerDef] at h
  cases hchecked : checkedDef host state r with
  | error e =>
      rw [hchecked] at h
      cases h
  | ok checked =>
      rw [hchecked] at h
      dsimp only at h
      split at h
      · cases h
        rfl
      · split at h
        · cases h
        · cases h

/-- A registration adds the definition it asks for, or none. -/
theorem registerDef_defs {state : RouterState η} (h : Replays host state.defs)
    (r : Registration η) (middleware : MiddlewareStack η) :
    (registerDef host state r middleware).1.defs = state.defs ∨
      ∃ d, checkedDef host state r = .ok d ∧
        (registerDef host state r middleware).1.defs = state.defs ++ [d] := by
  rcases registerDef_cases host state r middleware h with
    ⟨d, hok, hbind⟩ | ⟨e, heq⟩ | ⟨e, mid, heq, hdefs, -⟩
  · have hframe := bindDef_framed host (pushDef state d) d middleware
    rw [hbind] at hframe
    exact .inr ⟨d, registerDef_checked hok, hframe.defs⟩
  · rw [heq]
    exact .inl rfl
  · rw [heq]
    exact .inl ((rebuildChains_framed host mid middleware).defs.trans hdefs)

theorem StoredPlain.run {state : RouterState η} (h : StoredPlain host state)
    {call : RouterCall η} (hcall : call.storesPlain host state = true) :
    StoredPlain host (call.run host state) := by
  cases call with
  | register r middleware =>
      refine ⟨registerDef_indexed h.indexed r middleware, ?_⟩
      intro d hd
      rcases registerDef_defs h.indexed.replays r middleware with hdefs | ⟨new, hnew, hdefs⟩
      · exact h.plain d (hdefs ▸ hd)
      · rw [RouterCall.run, hdefs, List.mem_append, List.mem_singleton] at hd
        rcases hd with hd | rfl
        · exact h.plain d hd
        · simpa [RouterCall.storesPlain, hnew] using hcall
  | rebuild middleware =>
      refine ⟨(rebuildChains_synced h.indexed.replays middleware).2.indexed, ?_⟩
      rw [RouterCall.run, (rebuildChains_framed host state middleware).defs]
      exact h.plain
  | route path =>
      rw [RouterCall.run]
      split
      · next index found hmatch =>
          obtain ⟨htables, hcoherent⟩ := matchRoute_ok h.indexed.coherent hmatch
          exact ⟨⟨hcoherent, h.indexed.replays, h.indexed.tables.trans htables.symm⟩, h.plain⟩
      · exact h

/-- Along every run that stores no static route with a slash at its end, every
request is answered by the reference. -/
theorem matchRoute_matchesReference (host : Host) (pathPrefix : JsString)
    {state : RouterState η}
    (h : (routing host pathPrefix).Reach
      (fun state call => call.storesPlain host state = true) state)
    {path : JsString} (hroot : path.head? = some slash)
    (hline : ∀ c ∈ path, isLineTerminator c = false) : MatchesReference host state path := by
  have hinv : StoredPlain host state :=
    h.invariant (createRouterState_storedPlain pathPrefix) fun s call t hs hcall hstep => by
      cases hstep
      exact hs.run hcall
  exact hinv.indexed.matchesReference hinv.plain hroot hline

theorem oneLine_of_any {path : JsString} (h : path.any isLineTerminator = false) :
    ∀ c ∈ path, isLineTerminator c = false := by
  intro c hc
  simpa using List.any_eq_false.mp h c hc

def getCall (path : JsString) : RouterCall ℕ :=
  .register ⟨js "GET", path, [.user 0], none, []⟩ createMiddlewareStack

/-- "/a/:id" and its siblings answer through the table regex. -/
theorem matchRoute_matchesReference_table :
    ∃ state : RouterState ℕ,
      state.defs.map RouteDef.path = [js "/a/:id", js "/a/*", js "/a/b"] ∧
      state.index.regexIndex.map Prod.fst = [js "/a/:id", js "/a/*"] ∧
      MatchesReference digitsHost state (js "/a/7") :=
  ⟨(getCall (js "/a/b")).run digitsHost ((getCall (js "/a/*")).run digitsHost
      ((getCall (js "/a/:id")).run digitsHost (createRouterState []))),
    by decide +kernel, by decide +kernel,
    matchRoute_matchesReference digitsHost []
      (.step (.step (.step .start (by decide +kernel) rfl) (by decide +kernel) rfl)
        (by decide +kernel) rfl)
      rfl (oneLine_of_any (by decide +kernel))⟩

/-- "/a///" is stored as "/a/": the request "/a", which decodes like it, finds
nothing. -/
theorem not_matchesReference_slashed :
    ∃ state : RouterState ℕ, (routing digitsHost []).Reachable state ∧
      (js "/a").head? = some slash ∧ (∀ c ∈ js "/a", isLineTerminator c = false) ∧
      ¬MatchesReference digitsHost state (js "/a") := by
  refine ⟨(getCall (js "/a///")).run digitsHost (createRouterState []),
    Lts.reachable_of_run [getCall (js "/a///")] rfl, rfl, oneLine_of_any (by decide +kernel), ?_⟩
  rintro ⟨next, found, hmatch, hstatic, -⟩
  have hnone : (matchRoute digitsHost
      ((getCall (js "/a///")).run digitsHost (createRouterState [])).index (js "/a")).map
        Prod.snd = .ok none := by decide +kernel
  rw [hmatch] at hnone
  obtain rfl : found = none := Except.ok.inj hnone
  have hdefs : ((getCall (js "/a///")).run digitsHost (createRouterState [])).defs.map
      RouteDef.path = [js "/a/"] := by decide +kernel
  obtain ⟨d, hd, hpath⟩ := List.mem_map.mp (hdefs ▸ List.mem_singleton_self (js "/a/"))
  have hfor : StaticFor digitsHost d (js "/a") := by
    refine ⟨⟨[.static (js "a")], true, false⟩, ?_, rfl, ?_⟩
    · rw [hpath]
      decide +kernel
    · rw [hpath]
      decide +kernel
  obtain ⟨target, -, hfound⟩ := hstatic d hd hfor
  cases hfound

end Keala.Router
