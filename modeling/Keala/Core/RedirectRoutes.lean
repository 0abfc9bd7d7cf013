import Keala.Core.MountPaths
import Keala.Router.RedirectCaptures

/-!
Redirect routes (`registerRedirect` in `src/core/registration.ts`, `redirect`
in `src/router/group.ts`): the paths they are registered under, and when the
destination that an accepted one rebuilds at request time can be written.
-/

namespace Keala.Core

open Keala.Js Keala.Router

variable {η : Type} {host : Host}

/-! ### Registered paths -/

/-- The path of a definition that a router group makes (`#add`). -/
def groupPath (pathPrefix path : JsString) : Except RouteError JsString :=
  if path ≠ [] ∧ path.head? ≠ some slash then .error (.notRooted path)
  else .ok (normalizePath (orRoot (normalizePrefix pathPrefix ++ path)))

/-- The paths that the route of a redirect is registered under: by an
application, by a router group, and wherever these are mounted. -/
inductive RegisteredPath (host : Host) (source : JsString) : JsString → Prop
  | app {η : Type} {state : RouterState η} {r : Registration η} {d : RouteDef η}
      (hsource : r.path = source) (h : checkedDef host state r = .ok d) :
      RegisteredPath host source d.path
  | group {pathPrefix path : JsString} (h : groupPath pathPrefix source = .ok path) :
      RegisteredPath host source path
  | mount {η : Type} {state : RouterState η} {r : Registration η} {d : RouteDef η}
      {base path : JsString} (hsub : RegisteredPath host source path)
      (hpath : r.path = orRoot (base ++ path)) (h : checkedDef host state r = .ok d) :
      RegisteredPath host source d.path

theorem checkedDef_path {state : RouterState η} {r : Registration η} {d : RouteDef η}
    (h : checkedDef host state r = .ok d) :
    d.path = normalizePath (orRoot (state.routerPrefix ++ normalizePrefix r.path)) := by
  have hroot : ∀ path : JsString, (if path.length = 0 then js "/" else path) = orRoot path := by
    intro path
    simp only [orRoot, List.length_eq_zero_iff]
    rfl
  rw [checkedDef] at h
  dsimp only at h
  split at h
  · cases h
  · split at h
    · cases h
    · split at h
      · cases h
      · cases h
        rw [hroot]

/-- A source with segments is its parts behind slashes; a slash at its end is
dropped wherever it is registered. -/
theorem source_normalized {source : JsString} {ir : PatternIR}
    (h : compilePattern host source = .ok ir) (hne : ir.segments ≠ []) :
    normalizePrefix source = normalizePath source ∧
      (source = normalizePath source ∨ source = normalizePath source ++ [slash]) ∧
      ∃ rest, normalizePath source = slash :: rest ∧ splitSegments source = split slash rest ∧
        (slash :: rest).getLast? ≠ some slash := by
  obtain ⟨hroot, hparts, -⟩ := compilePattern_parts h
  have hempty := compileParts_nil_not_mem hparts
  have hsome : splitSegments source ≠ [] := by
    intro hnil
    rw [hnil] at hparts
    exact hne (Except.ok.inj hparts).symm
  -- The parts leave no room for a further slash at the end.
  have hkept : ∀ rest, normalizePath source = slash :: rest →
      splitSegments source = split slash rest ∧ (slash :: rest).getLast? ≠ some slash := by
    intro rest hnorm
    have hsplit := splitSegments_of_normalizePath hnorm
    have hmany : split slash rest ≠ [[]] := by
      intro hone
      exact hsome (hsplit.trans (if_pos hone))
    rw [if_neg hmany] at hsplit
    refine ⟨hsplit, ?_⟩
    rw [ne_eq, getLast?_eq_sep_iff slash (List.cons_ne_nil _ _), split_cons_self,
      List.getLast?_cons_of_ne_nil (split_ne_nil slash rest)]
    intro hlast
    exact hempty (hsplit ▸ List.mem_of_getLast? hlast)
  obtain ⟨tail, rfl⟩ := List.head?_eq_some_iff.mp hroot
  have htail : tail ≠ [] := by
    rintro rfl
    exact hsome rfl
  have hlong : 1 < (slash :: tail).length := by
    have hpos := List.length_pos_of_ne_nil htail
    rw [List.length_cons]
    omega
  have hpre : normalizePrefix (slash :: tail) =
      if (slash :: tail).getLast? = some slash then (slash :: tail).dropLast
        else slash :: tail := by
    rw [normalizePrefix, if_neg]
    rintro (hlen | hslash)
    · cases hlen
    · exact htail (List.cons.inj hslash).2
  by_cases hlast : (slash :: tail).getLast? = some slash
  · have hnorm : normalizePath (slash :: tail) = slash :: tail.dropLast := by
      rw [normalizePath, if_pos ⟨hlong, hlast⟩, List.dropLast_cons_of_ne_nil htail]
    refine ⟨?_, .inr ?_, tail.dropLast, hnorm, hkept _ hnorm⟩
    · rw [hpre, if_pos hlast, hnorm, List.dropLast_cons_of_ne_nil htail]
    · rw [hnorm, ← List.dropLast_cons_of_ne_nil htail]
      exact (List.dropLast_append_getLast? slash hlast).symm
  · have hnorm : normalizePath (slash :: tail) = slash :: tail := by
      rw [normalizePath, if_neg fun heq => hlast heq.2]
    refine ⟨?_, .inl hnorm.symm, tail, hnorm, hkept _ hnorm⟩
    rw [hpre, if_neg hlast, hnorm]

/-- The source ends the path of its route. -/
theorem RegisteredPath.ends {source path : JsString} {ir : PatternIR}
    (h : RegisteredPath host source path) (hir : compilePattern host source = .ok ir)
    (hne : ir.segments ≠ []) : ∃ base, path = base ++ normalizePath source := by
  obtain ⟨hpre, hsource, rest, hrest, -, hlast⟩ := source_normalized hir hne
  generalize normalizePath source = kept at hpre hsource hrest ⊢
  have hlast' : ∀ base : JsString, (base ++ kept).getLast? ≠ some slash := by
    intro base
    rwa [hrest, List.getLast?_append_of_ne_nil _ (List.cons_ne_nil _ _)]
  have hkeep := fun base : JsString =>
    kept_of_getLast? (base ++ kept) (by simp [hrest]) (hlast' base)
  have hgiven : ∀ base : JsString, normalizePath (orRoot (base ++ source)) = base ++ kept := by
    intro base
    rcases hsource with rfl | rfl
    · rw [(hkeep base).2.2, (hkeep base).1]
    · rw [orRoot, if_neg (by simp), ← List.append_assoc, normalizePath,
        if_pos ⟨by simp [hrest]; omega, List.getLast?_concat⟩, List.dropLast_concat]
  induction h with
  | @app _ state _ _ hpath hd =>
      refine ⟨state.routerPrefix, ?_⟩
      rw [checkedDef_path hd, hpath, hpre, (hkeep _).2.2, (hkeep _).1]
  | @group pathPrefix path hgroup =>
      rw [groupPath] at hgroup
      split at hgroup
      · cases hgroup
      · cases hgroup
        exact ⟨normalizePrefix pathPrefix, hgiven _⟩
  | mount _ hpath hd ih =>
      obtain ⟨base, rfl⟩ := ih
      rw [checkedDef_path hd, hpath, ← List.append_assoc, (hkeep _).2.2, (hkeep _).2.1,
        ← List.append_assoc, (hkeep _).2.2, (hkeep _).1]
      exact ⟨_, rfl⟩

theorem compileParts_append {path : JsString} (path' : JsString) {front parts : List JsString}
    {segments : List CompiledSegment}
    (h : compileParts host path (front ++ parts) = .ok segments) :
    ∃ ahead rest, segments = ahead ++ rest ∧ compileParts host path' parts = .ok rest := by
  induction front generalizing segments with
  | nil => exact ⟨[], segments, rfl, compileParts_ok_congr path' h⟩
  | cons raw front ih =>
      rw [List.cons_append] at h
      obtain ⟨segment, others, rfl, -, -, hothers⟩ := compileParts_cons h
      obtain ⟨ahead, rest, rfl, hrest⟩ := ih hothers
      exact ⟨segment :: ahead, rest, rfl, hrest⟩

/-- A route has the segments of its source, behind those it is mounted under. -/
theorem RegisteredPath.segments {source path : JsString} {src ir : PatternIR}
    (h : RegisteredPath host source path) (hsrc : compilePattern host source = .ok src)
    (hir : compilePattern host path = .ok ir) :
    ∃ ahead, ir.segments = ahead ++ src.segments := by
  by_cases hne : src.segments = []
  · exact ⟨ir.segments, by rw [hne, List.append_nil]⟩
  · obtain ⟨base, rfl⟩ := h.ends hsrc hne
    obtain ⟨-, -, rest, hrest, hsplit, hlast⟩ := source_normalized hsrc hne
    obtain ⟨-, hparts, -⟩ := compilePattern_parts hsrc
    obtain ⟨-, hfull, -⟩ := compilePattern_parts hir
    rw [hrest] at hfull
    have hnorm : normalizePath (base ++ slash :: rest) = base ++ slash :: rest := by
      rw [normalizePath, if_neg]
      rintro ⟨-, heq⟩
      rw [List.getLast?_append_of_ne_nil _ (List.cons_ne_nil _ _)] at heq
      exact hlast heq
    obtain ⟨first, front, hbase⟩ := List.exists_cons_of_ne_nil (split_ne_nil slash base)
    have hmany : front ++ split slash rest ≠ [[]] := by
      intro heq
      have hempty := compileParts_nil_not_mem hparts
      have hmem : ∀ part ∈ split slash rest, part = [] := by
        intro part hpart
        have hin : part ∈ ([[]] : List JsString) := heq ▸ List.mem_append_right _ hpart
        exact List.mem_singleton.mp hin
      obtain ⟨part, more, hcons⟩ := List.exists_cons_of_ne_nil (split_ne_nil slash rest)
      have hpart : part ∈ split slash rest := hcons ▸ List.mem_cons_self
      rw [hsplit] at hempty
      exact hempty (hmem part hpart ▸ hpart)
    have hfullsplit : splitSegments (base ++ slash :: rest) = front ++ split slash rest := by
      rw [splitSegments, hnorm, split_append_cons, hbase, List.cons_append, List.tail_cons,
        if_neg hmany]
    rw [hfullsplit] at hfull
    obtain ⟨ahead, more, hsegments, hmore⟩ := compileParts_append source hfull
    rw [hsplit, hmore] at hparts
    exact ⟨ahead, by rw [hsegments, Except.ok.inj hparts]⟩

/-! ### Requests -/

/-- A request reaches the route of a pattern through the static table, or by a
shape of the pattern that answers in the trie. -/
inductive Reached (host : Host) (patterns : List PatternIR) (assigned : List (List TargetRef))
    (root : TrieNode) (path : JsString) (ir : PatternIR) : RouteMatch → List Edge → Prop
  | static {target : TargetRef} {σ : List Edge} (h : ir.isStatic = true)
      (hσ : σ ∈ shapesOf ir.segments) :
      Reached host patterns assigned root path ir (staticMatch target) σ
  | dynamic {m : RouteMatch} {σ : List Edge} (hmatch : matchPattern host root path = some m)
      (hσ : σ ∈ shapesOf ir.segments)
      (howns : Owns (patterns.map PatternIR.segments) assigned σ m.target) :
      Reached host patterns assigned root path ir m σ

theorem static_of_mem_shape {segments : List CompiledSegment}
    (h : segments.all CompiledSegment.isStatic = true) {σ : List Edge}
    (hσ : σ ∈ shapesOf segments) {e : Edge} (he : e ∈ σ) : ∃ value, e = .static value := by
  induction segments generalizing σ with
  | nil =>
      rw [shapesOf, List.mem_singleton] at hσ
      subst hσ
      cases he
  | cons segment rest ih =>
      rw [List.all_cons, Bool.and_eq_true] at h
      cases segment with
      | static value =>
          obtain ⟨τ, hτ, rfl⟩ := List.mem_map.mp hσ
          rcases List.mem_cons.mp he with rfl | he
          · exact ⟨value, rfl⟩
          · exact ih h.2 hτ he
      | param name pattern optional => cases h.1
      | wildcard => cases h.1

/-- Whatever layer answers, the match reads the captures of its shape. -/
theorem Reached.caught {patterns : List PatternIR} {assigned : List (List TargetRef)}
    {root : TrieNode} {last : TargetRef} {request : RequestPath} {path : JsString} {ir : PatternIR}
    {m : RouteMatch} {σ : List Edge}
    (h : Reached host patterns assigned root request.text ir m σ)
    (hir : compilePattern host path = .ok ir)
    (hcompiled : ∀ p ∈ patterns, ∃ path, compilePattern host path = .ok p)
    (hins : insertAll (patterns.map PatternIR.segments) createNode 0 =
      .ok (root, assigned, last)) :
    ∃ params found,
      Caught σ (wildcardRest σ (decodedSegments request.text)) params found ∧
      m.params = lastCapture found ∧ ∀ p ∈ found, isWellFormed p.2 = true := by
  cases h with
  | static hstatic hσ =>
      have hall := (compilePattern_parts hir).2.2.symm.trans hstatic
      have hnone : ∀ e ∈ σ, ∃ value, e = .static value :=
        fun e he => static_of_mem_shape hall hσ he
      refine ⟨[], [], ⟨by simp, ?_, ?_⟩, rfl, by simp⟩
      · intro name pattern hmem
        obtain ⟨value, heq⟩ := hnone _ hmem
        cases heq
      · rw [if_neg]
        · rfl
        · intro hmem
          obtain ⟨value, heq⟩ := hnone _ hmem
          cases heq
  | dynamic hmatch hσ howns =>
      obtain ⟨τ, found, hfirst⟩ := (matchPattern_grammar host hcompiled hins _).2 m hmatch
      obtain rfl : σ = τ := hfirst.only σ howns
      have hends := (compilePattern_wildcardLast hir).ends σ hσ
      obtain ⟨params, hcaught⟩ := captures_caught hends hfirst.captures
      exact ⟨params, found, hcaught, funext hfirst.reads.params,
        isWellFormed_captures (fun _ hs => request.isWellFormed_of_mem hs) hfirst.captures⟩

/-- An accepted redirect builds its location exactly when its destination can
be written and does not require the wildcard where the request stops at it. -/
theorem redirect_builds_iff {source destination : JsString} {code : Option ℤ}
    {dest : Option RedirectTarget}
    (haccepted : checkRedirect host source destination code = .ok dest) {path : JsString}
    (hregistered : RegisteredPath host source path) {ir : PatternIR}
    (hir : compilePattern host path = .ok ir) {patterns : List PatternIR}
    (hcompiled : ∀ p ∈ patterns, ∃ path, compilePattern host path = .ok p) {root : TrieNode}
    {assigned : List (List TargetRef)} {last : TargetRef}
    (hins : insertAll (patterns.map PatternIR.segments) createNode 0 = .ok (root, assigned, last))
    (request : RequestPath) {m : RouteMatch} {σ : List Edge}
    (hreached : Reached host patterns assigned root request.text ir m σ) :
    (∃ url, redirectLocation destination dest m.params = .ok url) ↔
      ∀ target, dest = some target →
        Rebuildable σ (wildcardRest σ (decodedSegments request.text)) target.segments := by
  obtain ⟨params, found, hcaught, hparams, hformed⟩ := hreached.caught hir hcompiled hins
  have htexts : ∀ name value, m.params name = some value → isWellFormed value = true := by
    intro name value hvalue
    rw [hparams] at hvalue
    exact hformed _ (lastCapture_mem hvalue)
  rw [exists_redirectLocation_iff htexts, hparams]
  have hσ : σ ∈ shapesOf ir.segments := by
    cases hreached with
    | static _ hσ => exact hσ
    | dynamic _ hσ _ => exact hσ
  refine forall_congr' fun target => forall_congr' fun hdest => ?_
  subst hdest
  obtain ⟨src, hsrc, hguaranteed⟩ := assertRedirectCaptures_ok (checkRedirect_ok haccepted)
  obtain ⟨ahead, hsegments⟩ := hregistered.segments hsrc hir
  have hcaptures : Captures src.segments σ := by
    refine ⟨fun name pattern hmem => ?_, fun hmem => ?_⟩
    · exact consume_mem_of_required (hsegments ▸ List.mem_append_right _ hmem) hσ
    · exact wildcard_mem_of_mem (hsegments ▸ List.mem_append_right _ hmem) hσ
  exact written_iff_rebuildable hcaught hcaptures hguaranteed

def treePattern : PatternIR := ⟨[.static (js "w"), .wildcard], false, false⟩

def treeTarget : RedirectTarget := ⟨[.static (js "x"), .param wildcardName none false], []⟩

theorem redirect_builds_tree : ∃ root assigned last m,
    insertAll [treePattern.segments] createNode 0 = .ok (root, assigned, last) ∧
    matchPattern digitsHost root (js "/w/a") = some m ∧
    ∃ url, redirectLocation (js "/x/:wildcard") (some treeTarget) m.params = .ok url := by
  have hir : compilePattern digitsHost (js "/w/*") = .ok treePattern := by decide +kernel
  have hgroup : groupPath [] (js "/w/*") = .ok (js "/w/*") := by decide +kernel
  have haccepted : checkRedirect digitsHost (js "/w/*") (js "/x/:wildcard") (some 301) =
      .ok (some treeTarget) := by decide +kernel
  have hmatch : ((insertAll [treePattern.segments] createNode 0).map fun r =>
      (r.2.1, (matchPattern digitsHost r.1 (js "/w/a")).map RouteMatch.target)).toOption =
      some ([[0]], some 0) := by decide +kernel
  have hcompiled : ∀ p ∈ [treePattern], ∃ path, compilePattern digitsHost path = .ok p := by
    intro p hp
    exact ⟨js "/w/*", (List.mem_singleton.mp hp) ▸ hir⟩
  cases hins : insertAll [treePattern.segments] createNode 0 with
  | error e => simp [hins, Except.map, Except.toOption] at hmatch
  | ok result =>
      obtain ⟨root, assigned, last⟩ := result
      simp only [hins, Except.map, Except.toOption, Option.some.injEq, Prod.mk.injEq,
        Option.map_eq_some_iff] at hmatch
      obtain ⟨rfl, m, hm, htarget⟩ := hmatch
      refine ⟨root, _, last, m, rfl, hm, ?_⟩
      have hreached : Reached digitsHost [treePattern] [[0]] root (js "/w/a") treePattern m
          [.static (js "w"), .wildcard] := by
        refine .dynamic hm (by decide) ⟨(treePattern.segments, [0]), by simp, ?_⟩
        rw [htarget]
        decide
      have hplain : (js "/w/a").all (fun c => !isSurrogate c.toNat) = true := by decide
      have hiff := redirect_builds_iff haccepted (.group hgroup) hir hcompiled hins
        ⟨js "/w/a", by simpa using hplain⟩ hreached
      have hrest : wildcardRest [.static (js "w"), .wildcard] (decodedSegments (js "/w/a")) =
          [js "a"] := by decide
      refine hiff.mpr fun target heq => ?_
      obtain rfl : treeTarget = target := Option.some.inj heq
      refine ⟨?_, ?_, ?_⟩
      · intro value hvalue
        obtain rfl : value = js "x" := by simpa [treeTarget] using hvalue
        decide
      · intro _ hbare
        exact absurd (hrest.symm.trans hbare) (by decide)
      · intro _ hblank
        exact absurd (hrest.symm.trans hblank) (by decide)

/-- An accepted redirect that throws: the bare path captures the empty text, and
a blank segment captures nothing. -/
theorem redirect_throws_at_wildcard :
    checkRedirect digitsHost (js "/w/*") (js "/x/:wildcard") (some 301) = .ok (some treeTarget) ∧
      compilePattern digitsHost (js "/w/*") = .ok treePattern ∧
      ["/w/", "/w//"].map (fun path =>
        (insertAll [treePattern.segments] createNode 0).toOption.bind fun r =>
          (matchPattern digitsHost r.1 (js path)).map fun m =>
            redirectLocation (js "/x/:wildcard") (some treeTarget) m.params) =
        [some (.error (.missingParam wildcardName)),
          some (.error (.missingParam wildcardName))] := by
  decide +kernel

end Keala.Core
