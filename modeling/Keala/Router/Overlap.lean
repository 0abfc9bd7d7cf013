import Keala.Router.TrieSpec
import Keala.Router.StaticKey
import Keala.Router.Router

/-!
The overlap test of patterns against what the patterns match. A pattern reaches
more than it matches: here its wildcard stands for anything, also for nothing,
and a param takes any segment. Patterns that reach one list of segments overlap.
-/

namespace Keala.Router

open Keala.Js Keala.Core

/-! ### Reaching segments -/

inductive Reaches : List CompiledSegment → List JsString → Prop
  | done : Reaches [] []
  | static {value rest segments} (h : Reaches rest segments) :
      Reaches (.static value :: rest) (value :: segments)
  | consume {name pattern optional rest text segments} (h : Reaches rest segments) :
      Reaches (.param name pattern optional :: rest) (text :: segments)
  | skip {name pattern rest segments} (h : Reaches rest segments) :
      Reaches (.param name pattern true :: rest) segments
  | wildcard {segments} : Reaches [.wildcard] segments

theorem Matches.reaches {host : Host} {trailing : Bool} {pattern : List CompiledSegment}
    {segments : List JsString} {found : List (JsString × JsString)}
    (h : Matches host trailing pattern segments found) : Reaches pattern segments := by
  induction h with
  | done => exact .done
  | static _ ih => exact .static ih
  | consume _ _ _ ih => exact .consume ih
  | skip _ ih => exact .skip ih
  | wildcard => exact .wildcard
  | blank => exact .wildcard
  | slash => exact .wildcard

/-- The overlap test is complete for what patterns reach. -/
theorem overlapSegments_of_reaches (a b : List CompiledSegment) {segments : List JsString}
    (ha : Reaches a segments) (hb : Reaches b segments) : overlapSegments a b = true := by
  fun_induction overlapSegments a b generalizing segments with
  | case1 => rfl
  | case2 y b ih =>
      cases ha
      cases hb with
      | skip hb => simpa [CompiledSegment.optional] using ih .done hb
      | wildcard => simp [overlapSegments]
  | case3 x a ih =>
      cases hb
      cases ha with
      | skip ha => simpa [CompiledSegment.optional] using ih ha .done
      | wildcard => simp [overlapSegments]
  | case4 => rfl
  | case5 x a y b hwild hcompat =>
      -- Two static segments of different values never stand at one place.
      exfalso
      cases x with
      | static v =>
          cases y with
          | static w =>
              cases ha
              cases hb
              simp [compatible] at hcompat
          | param => simp [compatible] at hcompat
          | wildcard => simp at hwild
      | param => simp [compatible] at hcompat
      | wildcard => simp at hwild
  | case6 x a y b hwild hcompat ihboth ihleft ihright =>
      simp only [Bool.or_eq_true, Bool.and_eq_true]
      rw [not_or] at hwild
      have hleft : ∀ name pattern, x = .param name pattern true → Reaches a segments →
          (overlapSegments a b = true ∨ x.optional = true ∧ overlapSegments a (y :: b) = true) ∨
            y.optional = true ∧ overlapSegments (x :: a) b = true := by
        rintro name pattern rfl hrest
        exact .inl (.inr ⟨rfl, ihleft hrest hb⟩)
      have hright : ∀ name pattern, y = .param name pattern true → Reaches b segments →
          (overlapSegments a b = true ∨ x.optional = true ∧ overlapSegments a (y :: b) = true) ∨
            y.optional = true ∧ overlapSegments (x :: a) b = true := by
        rintro name pattern rfl hrest
        exact .inr ⟨rfl, ihright ha hrest⟩
      cases ha with
      | static ha' =>
          cases hb with
          | static hb' => exact .inl (.inl (ihboth ha' hb'))
          | consume hb' => exact .inl (.inl (ihboth ha' hb'))
          | skip hb' => exact hright _ _ rfl hb'
          | wildcard => exact absurd rfl hwild.2
      | consume ha' =>
          cases hb with
          | static hb' => exact .inl (.inl (ihboth ha' hb'))
          | consume hb' => exact .inl (.inl (ihboth ha' hb'))
          | skip hb' => exact hright _ _ rfl hb'
          | wildcard => exact absurd rfl hwild.2
      | skip ha' => exact hleft _ _ rfl ha'
      | wildcard => exact absurd rfl hwild.1

/-- A pattern that swallows the rest reaches whatever its head does. -/
theorem Reaches.concat_wildcard {pattern : List CompiledSegment} {segments : List JsString}
    (h : Reaches pattern segments) (hlast : CompiledSegment.wildcard ∉ pattern) :
    Reaches (pattern ++ [.wildcard]) segments := by
  induction h with
  | done => exact .wildcard
  | static _ ih => exact .static (ih (by simpa using hlast))
  | consume _ ih => exact .consume (ih (by simpa using hlast))
  | skip _ ih => exact .skip (ih (by simpa using hlast))
  | wildcard => simp at hlast

/-- Empty segments at the end are what a wildcard takes. -/
theorem Matches.reaches_replicate {host : Host} {trailing : Bool} {pattern : List CompiledSegment}
    (hstatic : CompiledSegment.static [] ∉ pattern) {segments : List JsString} {n : ℕ}
    {found : List (JsString × JsString)}
    (h : Matches host trailing pattern (segments ++ List.replicate n []) found) :
    Reaches pattern segments := by
  generalize hsegs : segments ++ List.replicate n [] = all at h
  have hblank : ∀ {text : JsString} {tail : List JsString},
      List.replicate n [] = text :: tail → text = [] := by
    intro text tail heq
    exact List.eq_of_mem_replicate (heq ▸ List.mem_cons_self)
  induction h generalizing segments with
  | done =>
      obtain ⟨rfl, -⟩ := List.append_eq_nil_iff.mp hsegs
      exact .done
  | @static value rest tail found h ih =>
      simp only [List.mem_cons, not_or] at hstatic
      cases segments with
      | nil =>
          obtain rfl := hblank hsegs
          exact absurd rfl hstatic.1
      | cons text segments =>
          obtain ⟨rfl, hrest⟩ := List.cons.inj hsegs
          exact .static (ih hstatic.2 hrest)
  | @consume name text pattern optional rest tail found hne _ h ih =>
      cases segments with
      | nil => exact absurd (hblank hsegs) hne
      | cons head segments =>
          obtain ⟨rfl, hrest⟩ := List.cons.inj hsegs
          exact .consume (ih (by simpa using hstatic) hrest)
  | skip h ih => exact .skip (ih (by simpa using hstatic) hsegs)
  | wildcard => exact .wildcard
  | blank => exact .wildcard
  | slash => exact .wildcard

theorem reaches_static (values : List JsString) : Reaches (values.map .static) values := by
  induction values with
  | nil => exact .done
  | cons value values ih => exact .static ih

/-! ### Compiled segments -/

/-- A pattern compiles part by part, and no part of it is empty. -/
theorem compileParts_cons {host : Host} {path raw : JsString} {parts : List JsString}
    {segments : List CompiledSegment} (h : compileParts host path (raw :: parts) = .ok segments) :
    ∃ segment rest, segments = segment :: rest ∧ raw ≠ [] ∧
      compileSegment host path raw parts.isEmpty = .ok segment ∧
      compileParts host path parts = .ok rest := by
  rw [compileParts] at h
  cases hs : compileSegment host path raw parts.isEmpty with
  | error e => simp [hs, bind, Except.bind] at h
  | ok segment =>
      cases hp : compileParts host path parts with
      | error e => simp [hs, hp, bind, Except.bind] at h
      | ok rest =>
          simp only [hs, hp, bind, Except.bind, pure, Except.pure, Except.ok.injEq] at h
          refine ⟨segment, rest, h.symm, ?_, rfl, rfl⟩
          rintro rfl
          cases hs

theorem compileSegment_static {host : Host} {path raw value : JsString} {last : Bool}
    (h : compileSegment host path raw last = .ok (.static value)) :
    value = decodeSegment raw := by
  rw [compileSegment] at h
  split at h
  · cases h
  · split at h
    · split at h <;> cases h
    · split at h
      · obtain ⟨_, _, _, hparam⟩ := compileParam_eq h
        cases hparam
      · split at h
        · cases h
        · cases h
          rfl

theorem compileParts_static_ne_nil {host : Host} {path : JsString} {parts : List JsString}
    {segments : List CompiledSegment} (h : compileParts host path parts = .ok segments) :
    CompiledSegment.static [] ∉ segments := by
  induction parts generalizing segments with
  | nil =>
      cases h
      exact List.not_mem_nil
  | cons raw parts ih =>
      obtain ⟨segment, rest, rfl, hne, hs, hrest⟩ := compileParts_cons h
      rw [List.mem_cons, not_or]
      refine ⟨?_, ih hrest⟩
      rintro rfl
      exact hne ((decodeSegment_eq_nil_iff raw).mp (compileSegment_static hs).symm)

/-- The segments of a static pattern are the decoded ones of its path. -/
theorem compileParts_static {host : Host} {path : JsString} {parts : List JsString}
    {segments : List CompiledSegment} (h : compileParts host path parts = .ok segments)
    (hstatic : segments.all CompiledSegment.isStatic = true) :
    segments = (parts.map decodeSegment).map .static := by
  induction parts generalizing segments with
  | nil =>
      cases h
      rfl
  | cons raw parts ih =>
      obtain ⟨segment, rest, rfl, -, hs, hrest⟩ := compileParts_cons h
      rw [List.all_cons, Bool.and_eq_true] at hstatic
      cases segment with
      | static value => rw [compileSegment_static hs, ih hrest hstatic.2]; rfl
      | param => cases hstatic.1
      | wildcard => cases hstatic.1

theorem compilePattern_parts {host : Host} {path : JsString} {ir : PatternIR}
    (h : compilePattern host path = .ok ir) :
    path.head? = some slash ∧ compileParts host path (splitSegments path) = .ok ir.segments ∧
      ir.isStatic = ir.segments.all CompiledSegment.isStatic := by
  rw [compilePattern] at h
  split at h
  · cases h
  · next hroot =>
      cases hp : compileParts host path (splitSegments path) with
      | error e => simp [hp, bind, Except.bind] at h
      | ok segments =>
          simp only [hp, bind, Except.bind, pure, Except.pure, Except.ok.injEq] at h
          subst h
          exact ⟨not_not.mp hroot, rfl, rfl⟩

/-! ### Requests that a pattern answers -/

def staticKeys (path : JsString) : List JsString :=
  [path, normalizePath path, canonicalKey path, canonicalKey (normalizePath path)]

/-- A route of this pattern answers the request: it matches the decoded
segments, or its key in the static table is one that the request is looked up
by. -/
def Answers (host : Host) (pattern path : JsString) : Prop :=
  ∃ ir, compilePattern host pattern = .ok ir ∧
    ((∃ found, Matches host (trailingSlash path) ir.segments (decodedSegments path) found) ∨
      ir.isStatic = true ∧ staticKey pattern ∈ staticKeys path)

/-- The static table is looked up by these keys only. -/
theorem staticCandidate_key {index : RouteIndex} {path : JsString} {target : TargetRef}
    (h : staticCandidate index path = some target) :
    ∃ key ∈ staticKeys path, OrderedMap.get? index.staticMap key = some target := by
  rw [staticCandidate] at h
  split at h
  · split at h
    · split at h
      · next found hfound => exact ⟨_, by simp [staticKeys], hfound.trans h⟩
      · exact ⟨_, by simp [staticKeys], h⟩
    · exact ⟨_, by simp [staticKeys], h⟩
  · split at h
    · split at h
      · next found hfound => exact ⟨_, by simp [staticKeys], hfound.trans h⟩
      · cases h
    · cases h

theorem rawSegments_of_mem_staticKeys {path key : JsString} (h : key ∈ staticKeys path) :
    ∃ k, rawSegments path = rawSegments key ++ List.replicate k [] := by
  simp only [staticKeys, List.mem_cons, List.not_mem_nil, or_false] at h
  rcases h with rfl | rfl | rfl | rfl
  · exact ⟨0, (List.append_nil _).symm⟩
  · exact rawSegments_normalizePath path
  · exact ⟨0, by rw [rawSegments_canonicalKey]; exact (List.append_nil _).symm⟩
  · rw [rawSegments_canonicalKey]
    exact rawSegments_normalizePath path

theorem rawSegments_of_rooted {path : JsString} (h : path.head? = some slash) :
    ∃ tail, tail ≠ [] ∧ rawSegments path = [] :: tail := by
  obtain ⟨rest, rfl⟩ := List.head?_eq_some_iff.mp h
  refine ⟨(split slash rest).map decodeSegment, ?_, ?_⟩
  · exact List.map_eq_nil_iff.not.mpr (split_ne_nil slash rest)
  · rw [rawSegments, split_cons_self]
    rfl

theorem rooted_of_rawSegments {path : JsString} {tail : List JsString} (hne : tail ≠ [])
    (h : rawSegments path = [] :: tail) : path.head? = some slash := by
  cases path with
  | nil =>
      have hnil : rawSegments [] = [[]] := rfl
      rw [hnil] at h
      exact absurd (List.cons.inj h).2.symm hne
  | cons c rest =>
      by_contra hc
      have hsplit : split slash (c :: rest) = (split slash rest).modifyHead (c :: ·) := by
        rw [split, List.splitOn_cons_eq_if_modifyHead, if_neg (by simpa using hc)]
        rfl
      obtain ⟨part, parts, hparts⟩ := List.exists_cons_of_ne_nil (split_ne_nil slash rest)
      rw [rawSegments, hsplit, hparts, List.modifyHead_cons] at h
      have hhead : decodeSegment (c :: part) = [] := (List.cons.inj h).1
      exact absurd ((decodeSegment_eq_nil_iff _).mp hhead) (by simp)

/-- Lists without empty segments at their end, up to such ones. -/
theorem eq_append_replicate {values segments : List JsString} {m k : ℕ}
    (hvalues : [] ∉ values)
    (h : values ++ List.replicate m [] = segments ++ List.replicate k []) :
    ∃ n, segments = values ++ List.replicate n [] := by
  induction values generalizing segments with
  | nil =>
      refine ⟨segments.length, ?_⟩
      rw [List.nil_append] at h ⊢
      apply List.eq_replicate_of_mem
      intro segment hmem
      exact List.eq_of_mem_replicate (h ▸ List.mem_append_left _ hmem)
  | cons value values ih =>
      rw [List.mem_cons, not_or] at hvalues
      cases segments with
      | nil =>
          have hblank : value = [] :=
            List.eq_of_mem_replicate (h ▸ List.mem_append_left _ List.mem_cons_self)
          exact absurd hblank.symm hvalues.1
      | cons segment segments =>
          obtain ⟨rfl, hrest⟩ := List.cons.inj h
          obtain ⟨n, rfl⟩ := ih hvalues.2 hrest
          exact ⟨n, rfl⟩

/-- A static pattern is its own decoded segments, and a request found by its
key decodes to them, up to empty segments at the end. -/
theorem static_key_segments {host : Host} {pattern path : JsString} {ir : PatternIR}
    (hir : compilePattern host pattern = .ok ir) (hstatic : ir.isStatic = true)
    (hkey : staticKey pattern ∈ staticKeys path) :
    ∃ values n, ir.segments = values.map .static ∧ [] ∉ values ∧
      decodedSegments path = values ++ List.replicate n [] := by
  obtain ⟨hroot, hparts, hall⟩ := compilePattern_parts hir
  have hsegments := compileParts_static hparts (hall ▸ hstatic)
  have hvalues : [] ∉ decodedSegments pattern := by
    intro hmem
    apply compileParts_static_ne_nil hparts
    rw [hsegments]
    exact List.mem_map_of_mem hmem
  obtain ⟨k, hk⟩ := rawSegments_of_mem_staticKeys hkey
  rw [rawSegments_staticKey] at hk
  obtain ⟨m, hm⟩ := rawSegments_rooted hroot
  have hpath : path.head? = some slash := by
    obtain ⟨tail, hne, htail⟩ := rawSegments_of_rooted hroot
    have hpath : rawSegments path = [] :: (tail ++ List.replicate k []) := by
      rw [hk, htail, List.cons_append]
    exact rooted_of_rawSegments (by simp [hne]) hpath
  obtain ⟨j, hj⟩ := rawSegments_rooted hpath
  rw [hj, hm, List.cons_append, List.append_assoc, List.replicate_append_replicate] at hk
  obtain ⟨n, hn⟩ := eq_append_replicate hvalues (List.cons.inj hk).2.symm
  exact ⟨decodedSegments pattern, n, hsegments, hvalues, hn⟩

/-- A request that a normalized key is looked up by decodes like it. -/
theorem decodedSegments_of_key {pattern path : JsString} (hroot : pattern.head? = some slash)
    (hnormal : normalizePath pattern = pattern) (hkey : staticKey pattern ∈ staticKeys path) :
    decodedSegments path = decodedSegments pattern := by
  apply decodedSegments_of_rawSegments hroot hnormal
  rw [← rawSegments_staticKey]
  simp only [staticKeys, List.mem_cons, List.not_mem_nil, or_false] at hkey
  rcases hkey with hkey | hkey | hkey | hkey
  · exact .inl (congrArg rawSegments hkey)
  · exact .inr (congrArg rawSegments hkey)
  · exact .inl (hkey ▸ rawSegments_canonicalKey path)
  · exact .inr (hkey ▸ rawSegments_canonicalKey (normalizePath path))

/-- Patterns that answer one request reach one list of segments. -/
theorem Answers.reaches {host : Host} {a b path : JsString} (ha : Answers host a path)
    (hb : Answers host b path) :
    ∃ irA irB segments, compilePattern host a = .ok irA ∧ compilePattern host b = .ok irB ∧
      Reaches irA.segments segments ∧ Reaches irB.segments segments := by
  obtain ⟨irA, hirA, ha⟩ := ha
  obtain ⟨irB, hirB, hb⟩ := hb
  have hneA := compileParts_static_ne_nil (compilePattern_parts hirA).2.1
  have hneB := compileParts_static_ne_nil (compilePattern_parts hirB).2.1
  rcases ha with ⟨found, ha⟩ | ⟨hstaticA, hkeyA⟩
  · rcases hb with ⟨found', hb⟩ | ⟨hstaticB, hkeyB⟩
    · exact ⟨irA, irB, _, hirA, hirB, ha.reaches, hb.reaches⟩
    · obtain ⟨values, n, hsegs, -, hpath⟩ := static_key_segments hirB hstaticB hkeyB
      rw [hpath] at ha
      refine ⟨irA, irB, values, hirA, hirB, ha.reaches_replicate hneA, ?_⟩
      rw [hsegs]
      exact reaches_static values
  · obtain ⟨values, n, hsegs, hvalues, hpath⟩ := static_key_segments hirA hstaticA hkeyA
    have hreachA : Reaches irA.segments values := by
      rw [hsegs]
      exact reaches_static values
    rcases hb with ⟨found', hb⟩ | ⟨hstaticB, hkeyB⟩
    · rw [hpath] at hb
      exact ⟨irA, irB, values, hirA, hirB, hreachA, hb.reaches_replicate hneB⟩
    · obtain ⟨others, m, hsegs', hothers, hpath'⟩ := static_key_segments hirB hstaticB hkeyB
      -- Neither list ends in an empty segment, so they are the same.
      obtain ⟨k, hk⟩ := eq_append_replicate (m := n) (k := m) hvalues (hpath.symm.trans hpath')
      obtain rfl : k = 0 := by
        by_contra hne
        obtain ⟨k, rfl⟩ := Nat.exists_eq_succ_of_ne_zero hne
        apply hothers
        rw [hk, List.replicate_succ]
        simp
      rw [List.replicate_zero, List.append_nil] at hk
      refine ⟨irA, irB, values, hirA, hirB, hreachA, ?_⟩
      rw [hsegs', hk]
      exact reaches_static values

/-- Patterns that answer one request overlap. -/
theorem patternsOverlap_of_answers {host : Host} {a b path : JsString}
    (ha : Answers host a path) (hb : Answers host b path) : patternsOverlap host a b = true := by
  obtain ⟨irA, irB, segments, hirA, hirB, hreachA, hreachB⟩ := ha.reaches hb
  rw [patternsOverlap, hirA, hirB]
  exact overlapSegments_of_reaches _ _ hreachA hreachB

/-! ### Compiling the path of a definition -/

/-- Only the errors of a part name the path it belongs to, and only a wildcard
looks at whether a part follows. -/
theorem compileSegment_ok_congr {host : Host} {path raw : JsString} {last last' : Bool}
    {segment : CompiledSegment} (path' : JsString)
    (h : compileSegment host path raw last = .ok segment)
    (hlast : raw = js "*" → last' = last) : compileSegment host path' raw last' = .ok segment := by
  have hnamed : ∀ {optional : Bool} {name : JsString} {pattern : Option RegExp},
      namedParam path optional name pattern = .ok segment →
      namedParam path' optional name pattern = .ok segment := by
    intro optional name pattern h
    rw [namedParam] at h ⊢
    split at h
    · cases h
    · next hname => rw [if_neg hname, h]
  rw [compileSegment] at h ⊢
  split at h
  · cases h
  · next hne =>
      rw [if_neg hne]
      split at h
      · next hstar =>
          rw [if_pos hstar, hlast hstar]
          split at h
          · next hl => rw [if_pos hl, h]
          · cases h
      · next hstar =>
          rw [if_neg hstar]
          split at h
          · next hcolon =>
              rw [if_pos hcolon]
              rw [compileParam] at h ⊢
              generalize (if (raw.drop 1).getLast? = some 63 then (raw.drop 1).dropLast
                else raw.drop 1) = body at h ⊢
              split at h
              · exact hnamed h
              · split at h
                · cases h
                · split at h
                  · cases h
                  · next hlt =>
                      rw [if_neg hlt]
                      dsimp only at h ⊢
                      split at h
                      · cases h
                      · next hdrop =>
                          rw [if_neg hdrop]
                          split at h
                          · cases h
                          · exact hnamed h
          · next hcolon =>
              rw [if_neg hcolon]
              split at h
              · cases h
              · next hpartial => rw [if_neg hpartial, h]

theorem compileParts_ok_congr {host : Host} {path : JsString} {parts : List JsString}
    {segments : List CompiledSegment} (path' : JsString)
    (h : compileParts host path parts = .ok segments) :
    compileParts host path' parts = .ok segments := by
  induction parts generalizing segments with
  | nil => exact h
  | cons raw parts ih =>
      obtain ⟨segment, rest, rfl, -, hs, hrest⟩ := compileParts_cons h
      rw [compileParts, compileSegment_ok_congr path' hs fun _ => rfl, ih hrest]
      rfl

/-- Parts ahead of a wildcard compile by themselves. -/
theorem compileParts_concat_star {host : Host} {path : JsString} {parts : List JsString}
    {segments : List CompiledSegment} (path' : JsString)
    (h : compileParts host path (parts ++ [js "*"]) = .ok segments) :
    ∃ front, segments = front ++ [.wildcard] ∧ compileParts host path' parts = .ok front := by
  induction parts generalizing segments with
  | nil =>
      cases h
      exact ⟨[], rfl, rfl⟩
  | cons raw parts ih =>
      rw [List.cons_append] at h
      obtain ⟨segment, rest, rfl, -, hs, hrest⟩ := compileParts_cons h
      obtain ⟨front, rfl, hfront⟩ := ih hrest
      refine ⟨segment :: front, rfl, ?_⟩
      have hstar : raw ≠ js "*" := by
        rintro rfl
        have hlast : (parts ++ [js "*"]).isEmpty = false := by simp
        rw [hlast] at hs
        cases hs
      rw [compileParts, compileSegment_ok_congr path' hs
        fun heq => absurd heq hstar, hfront]
      rfl

def definitionPath (path : JsString) : JsString :=
  normalizePath (if (normalizePrefix path).length = 0 then js "/" else normalizePrefix path)

theorem compileParts_nil_not_mem {host : Host} {path : JsString} {parts : List JsString}
    {segments : List CompiledSegment} (h : compileParts host path parts = .ok segments) :
    [] ∉ parts := by
  induction parts generalizing segments with
  | nil => exact List.not_mem_nil
  | cons raw parts ih =>
      obtain ⟨segment, rest, rfl, hne, -, hrest⟩ := compileParts_cons h
      rw [List.mem_cons, not_or]
      exact ⟨hne.symm, ih hrest⟩

/-- A path that compiles has no empty segment ahead of its trailing slash, so
the definition it makes splits into the same parts. -/
theorem splitSegments_definitionPath {host : Host} {path : JsString} {ir : PatternIR}
    (h : compilePattern host path = .ok ir) :
    splitSegments (definitionPath path) = splitSegments path := by
  obtain ⟨hroot, hparts, -⟩ := compilePattern_parts h
  have hempty := compileParts_nil_not_mem hparts
  have hne : path ≠ [] := by
    rintro rfl
    cases hroot
  rcases eq_or_ne path (js "/") with rfl | hslash
  · rfl
  have hkept : normalizePrefix path =
      if path.getLast? = some slash then path.dropLast else path := by
    rw [normalizePrefix, if_neg (by simp [hne, hslash])]
  rw [definitionPath, hkept]
  split
  · next hlast =>
      obtain ⟨q, rfl⟩ := List.getLast?_eq_some_iff.mp hlast
      have hq : q ≠ [] := by
        rintro rfl
        exact hslash rfl
      have hnorm : normalizePath (q ++ [slash]) = q := by
        rw [normalizePath, if_pos ⟨by
          have := List.length_pos_of_ne_nil hq
          simp
          omega, hlast⟩, List.dropLast_concat]
      rw [List.dropLast_concat, if_neg (by simp [hq]), splitSegments, splitSegments, hnorm]
      rw [splitSegments, hnorm] at hempty
      -- A second slash at the end would leave an empty part.
      have hkeep : normalizePath q = q := by
        rw [normalizePath, if_neg]
        rintro ⟨hlen, hq'⟩
        obtain ⟨r, rfl⟩ := List.getLast?_eq_some_iff.mp hq'
        obtain ⟨c, rest, rfl⟩ := List.exists_cons_of_ne_nil (l := r) (by
          rintro rfl
          simp at hlen)
        obtain rfl : c = slash := by simpa using hroot
        rw [split_concat_self, split_cons_self] at hempty
        apply hempty
        have htail : ([] :: split slash rest ++ [[]]).tail = split slash rest ++ [[]] := rfl
        rw [htail, if_neg]
        · simp
        · intro heq
          exact split_ne_nil slash rest (List.append_left_eq_self.mp heq)
      rw [hkeep, hkeep]
  · next hlast =>
      have hnorm : normalizePath path = path := by
        rw [normalizePath, if_neg fun h => hlast h.2]
      rw [if_neg (by simp [hne]), hnorm]

/-- A definition compiles to the segments of the path it was registered by. -/
theorem compilePattern_definitionPath {host : Host} {path : JsString} {ir ir' : PatternIR}
    (h : compilePattern host path = .ok ir)
    (h' : compilePattern host (definitionPath path) = .ok ir') : ir'.segments = ir.segments := by
  obtain ⟨-, hparts, -⟩ := compilePattern_parts h
  obtain ⟨-, hparts', -⟩ := compilePattern_parts h'
  rw [splitSegments_definitionPath h] at hparts'
  exact Except.ok.inj (hparts'.symm.trans (compileParts_ok_congr _ hparts))

/-- The bare path of a tree compiles to what stands ahead of its wildcard. -/
theorem compilePattern_bare {host : Host} {bare : JsString} {ir ir' : PatternIR}
    (h : compilePattern host (bare ++ js "/*") = .ok ir)
    (h' : compilePattern host (definitionPath (if bare = [] then js "/" else bare)) = .ok ir') :
    ir.segments = ir'.segments ++ [.wildcard] := by
  obtain ⟨hroot, hparts, -⟩ := compilePattern_parts h
  obtain ⟨-, hparts', -⟩ := compilePattern_parts h'
  have hnorm : normalizePath (bare ++ js "/*") = bare ++ js "/*" := by
    rw [normalizePath, if_neg]
    rintro ⟨-, hlast⟩
    rw [List.getLast?_append_of_ne_nil _ (by decide)] at hlast
    exact absurd hlast (by decide)
  have hsplit : split slash (bare ++ js "/*") = split slash bare ++ [js "*"] :=
    List.splitOn_append_cons_self bare [42]
  rw [splitSegments, hnorm, hsplit] at hparts
  rcases eq_or_ne bare [] with rfl | hbare
  · have hwild : ir.segments = [.wildcard] := (Except.ok.inj hparts).symm
    have hroot' : ir'.segments = [] := (Except.ok.inj hparts').symm
    rw [hwild, hroot']
    rfl
  obtain ⟨c, rest, rfl⟩ := List.exists_cons_of_ne_nil hbare
  obtain rfl : c = slash := by simpa using hroot
  rw [split_cons_self] at hparts
  have hne : split slash rest ++ [js "*"] ≠ [[]] := by
    intro heq
    have hmem : js "*" ∈ ([[]] : List JsString) := heq ▸ by simp
    exact absurd hmem (by decide)
  change compileParts host _ (if split slash rest ++ [js "*"] = [[]] then []
    else split slash rest ++ [js "*"]) = _ at hparts
  rw [if_neg hne] at hparts
  obtain ⟨front, hfront, hrest⟩ := compileParts_concat_star (slash :: rest) hparts
  have hempty := compileParts_nil_not_mem hrest
  -- Without an empty part, the bare path is normalized and splits as it stands.
  have hkeep : splitSegments (slash :: rest) = split slash rest := by
    have hlast : normalizePath (slash :: rest) = slash :: rest := by
      rw [normalizePath, if_neg]
      rintro ⟨hlen, hlast⟩
      obtain ⟨r, hr⟩ := List.getLast?_eq_some_iff.mp hlast
      cases r with
      | nil =>
          cases hr
          simp at hlen
      | cons d r =>
          obtain rfl : rest = r ++ [slash] := (List.cons.inj hr).2
          apply hempty
          rw [split_concat_self]
          simp
    rw [splitSegments, hlast, split_cons_self]
    show (if split slash rest = [[]] then [] else split slash rest) = _
    rw [if_neg]
    intro heq
    apply hempty
    rw [heq]
    exact List.mem_singleton_self _
  have hcompiled : compilePattern host (slash :: rest) =
      .ok ⟨front, front.all CompiledSegment.isStatic,
        !front.all CompiledSegment.isStatic && simpleFrom false 0 front⟩ := by
    rw [compilePattern, if_neg (by simp), hkeep, hrest]
    rfl
  rw [if_neg (by simp), splitSegments_definitionPath hcompiled, hkeep] at hparts'
  have hsame : ir'.segments = front :=
    Except.ok.inj (hparts'.symm.trans (compileParts_ok_congr _ hrest))
  rw [hsame, hfront]

end Keala.Router
