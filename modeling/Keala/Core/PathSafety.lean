import Keala.Router.StaticKey
import Keala.Core.MiddlewareStack

/-!
The segments that serve a file (`src/utils/path-safety.ts`, and the join of
`src/middleware/serve-static.ts` on a POSIX root), against the segments that
scope the middleware.
-/

namespace Keala.Core

open Keala.Js
open Keala.Router

def backslash : CodeUnit := 92

/-- The parts of a raw path behind its first separator, without an empty last one. -/
def relativeParts (rawPath : JsString) : List JsString :=
  let parts := (split slash rawPath).tail
  if parts = [[]] then []
  else if parts.getLast? = some [] then parts.dropLast
  else parts

def safeSegment (windowsSeparators : Bool) (part : JsString) : Option JsString :=
  if part = [] then none
  else
    let decoded := decodeSegment part
    if slash ∈ decoded ∨ windowsSeparators = true ∧ backslash ∈ decoded then none
    else if decoded = js "." ∨ decoded = js ".." then none
    else some decoded

def resolveRelativeSegments (rawPath : JsString) (windowsSeparators : Bool) :
    Option (List JsString) :=
  (relativeParts rawPath).mapM (safeSegment windowsSeparators)

/-- The file that `serveStatic` addresses under a POSIX root; the index of the
root itself aside. -/
def joinedPath (root : JsString) (segments : List JsString) : JsString :=
  let clean := join slash segments
  if clean = [] then root
  else if root = [slash] then slash :: clean
  else root ++ slash :: clean

/-! ### POSIX paths -/

def posixStep (directory : List JsString) (component : JsString) : List JsString :=
  if component = [] ∨ component = js "." then directory
  else if component = js ".." then directory.dropLast
  else directory ++ [component]

/-- Where an absolute path leads, as the components from the root of the file
system. -/
def posixResolve (path : JsString) : List JsString := (split slash path).foldl posixStep []

structure Descends (component : JsString) : Prop where
  nonempty : component ≠ []
  not_dot : component ≠ js "."
  not_dots : component ≠ js ".."
  no_slash : slash ∉ component

theorem foldl_posixStep {segments : List JsString} (h : ∀ s ∈ segments, Descends s)
    (directory : List JsString) : segments.foldl posixStep directory = directory ++ segments := by
  induction segments generalizing directory with
  | nil => exact (List.append_nil directory).symm
  | cons segment segments ih =>
      have hs := h segment List.mem_cons_self
      rw [List.foldl_cons, ih fun s hs' => h s (List.mem_cons_of_mem _ hs'), posixStep,
        if_neg (not_or.mpr ⟨hs.nonempty, hs.not_dot⟩), if_neg hs.not_dots, List.append_assoc]
      rfl

theorem join_ne_nil {segments : List JsString} (hne : segments ≠ [])
    (h : ∀ s ∈ segments, Descends s) : join slash segments ≠ [] := by
  cases segments with
  | nil => exact absurd rfl hne
  | cons segment segments =>
      have hs := (h segment List.mem_cons_self).nonempty
      cases segments with
      | nil => simpa [join] using hs
      | cons next segments =>
          rw [join_cons_cons]
          simp

theorem posixResolve_joinedPath (root : JsString) {segments : List JsString}
    (h : ∀ s ∈ segments, Descends s) :
    posixResolve (joinedPath root segments) = posixResolve root ++ segments := by
  by_cases hne : segments = []
  · subst hne
    rw [List.append_nil]
    rfl
  · have hsplit : split slash (join slash segments) = segments :=
      split_join (fun s hs => (h s hs).no_slash) hne
    rw [joinedPath, if_neg (join_ne_nil hne h)]
    split
    · next hroot =>
        subst hroot
        rw [posixResolve, split_cons_self, hsplit, List.foldl_cons, foldl_posixStep h]
        rfl
    · rw [posixResolve, split_append_cons, hsplit, List.foldl_append, foldl_posixStep h]
      rfl

/-! ### The two segmenters -/

theorem safeSegment_eq_some {windowsSeparators : Bool} {part segment : JsString}
    (h : safeSegment windowsSeparators part = some segment) :
    part ≠ [] ∧ segment = decodeSegment part ∧ Descends segment ∧
      (windowsSeparators = true → backslash ∉ segment) := by
  rw [safeSegment] at h
  split at h
  · cases h
  · next hpart =>
      dsimp only at h
      split at h
      · cases h
      · next hslash =>
          split at h
          · cases h
          · next hdot =>
              cases h
              rw [not_or] at hslash hdot
              have hne : decodeSegment part ≠ [] := by
                rw [Ne, decodeSegment_eq_nil_iff]
                exact hpart
              refine ⟨hpart, rfl, ⟨hne, hdot.1, hdot.2, hslash.1⟩, ?_⟩
              intro hwindows hmem
              exact hslash.2 ⟨hwindows, hmem⟩

theorem mapM_safeSegment {windowsSeparators : Bool} {parts segments : List JsString}
    (h : parts.mapM (safeSegment windowsSeparators) = some segments) :
    [] ∉ parts ∧ segments = parts.map decodeSegment ∧
      ∀ s ∈ segments, Descends s ∧ (windowsSeparators = true → backslash ∉ s) := by
  induction parts generalizing segments with
  | nil =>
      cases h
      exact ⟨List.not_mem_nil, rfl, fun s hs => absurd hs List.not_mem_nil⟩
  | cons part parts ih =>
      rw [List.mapM_cons] at h
      obtain ⟨segment, hsegment, h⟩ := Option.bind_eq_some_iff.mp h
      obtain ⟨rest, hrest, h⟩ := Option.bind_eq_some_iff.mp h
      cases h
      obtain ⟨hpart, rfl, hdescends, hwindows⟩ := safeSegment_eq_some hsegment
      obtain ⟨hnil, rfl, hall⟩ := ih hrest
      refine ⟨?_, rfl, ?_⟩
      · rw [List.mem_cons, not_or]
        exact ⟨hpart.symm, hnil⟩
      · intro s hs
        rcases List.mem_cons.mp hs with rfl | hs
        · exact ⟨hdescends, hwindows⟩
        · exact hall s hs

/-- Both segmenters drop one trailing separator; they differ only on paths that
have an empty part, which are refused. -/
theorem relativeParts_eq {rawPath : JsString} (h : [] ∉ relativeParts rawPath) :
    relativeParts rawPath = splitSegments rawPath := by
  rw [relativeParts] at h ⊢
  rw [splitSegments, normalizePath]
  by_cases hlast : 1 < rawPath.length ∧ rawPath.getLast? = some slash
  · rw [if_pos hlast]
    obtain ⟨front, rfl⟩ := List.getLast?_eq_some_iff.mp hlast.2
    rw [split_concat_self, List.tail_append_of_ne_nil (split_ne_nil slash front)] at h ⊢
    have hfront : (front ++ [slash]).dropLast = front := List.dropLast_concat
    rw [hfront]
    by_cases hnil : (split slash front).tail = []
    · rw [hnil]
      rfl
    · have hne : (split slash front).tail ++ [[]] ≠ [[]] := by simpa using hnil
      rw [if_neg hne, if_pos List.getLast?_concat, List.dropLast_concat] at h ⊢
      have hblank : (split slash front).tail ≠ [[]] := by
        intro heq
        rw [heq] at h
        exact h List.mem_cons_self
      rw [if_neg hblank]
  · rw [if_neg hlast]
    by_cases hblank : (split slash rawPath).tail = [[]]
    · rw [if_pos hblank, if_pos hblank]
    · rw [if_neg hblank, if_neg hblank, if_neg]
      intro htail
      cases hsplit : split slash rawPath with
      | nil => exact split_ne_nil slash rawPath hsplit
      | cons first parts =>
          rw [hsplit, List.tail_cons] at htail hblank
          have hends : (split slash rawPath).getLast? = some [] := by
            rw [hsplit, List.getLast?_cons, htail]
            rfl
          have hne : rawPath ≠ [] := by
            rintro rfl
            cases hsplit
            cases htail
          have hslash := (getLast?_eq_sep_iff slash hne).mpr hends
          have hlength : rawPath.length = 1 := by
            have hpos := List.length_pos_of_ne_nil hne
            by_contra hnot
            exact hlast ⟨by omega, hslash⟩
          obtain ⟨c, rfl⟩ := List.length_eq_one_iff.mp hlength
          cases hslash
          cases hsplit
          exact hblank rfl

/-- Segments that resolve stay below the root, each one level down, and are the
segments that the scopes of the middleware were compared with. -/
theorem resolveRelativeSegments_safe {rawPath : JsString} {windowsSeparators : Bool}
    {segments : List JsString}
    (h : resolveRelativeSegments rawPath windowsSeparators = some segments) :
    (∀ s ∈ segments, s ≠ [] ∧ s ≠ js "." ∧ s ≠ js ".." ∧ slash ∉ s ∧
      (windowsSeparators = true → backslash ∉ s)) ∧
    (∀ root, posixResolve (joinedPath root segments) = posixResolve root ++ segments) ∧
    segments = pathSegments rawPath := by
  obtain ⟨hnil, hsegments, hall⟩ := mapM_safeSegment h
  refine ⟨?_, ?_, ?_⟩
  · intro s hs
    obtain ⟨hdescends, hwindows⟩ := hall s hs
    exact ⟨hdescends.nonempty, hdescends.not_dot, hdescends.not_dots, hdescends.no_slash, hwindows⟩
  · intro root
    exact posixResolve_joinedPath root fun s hs => (hall s hs).1
  · rw [hsegments, relativeParts_eq hnil]
    rfl

/-- An escaped dot inside a name and a trailing separator. -/
theorem resolveRelativeSegments_safe_report :
    pathSegments (js "/docs/v1%2e0/a%5Cb/") = [js "docs", js "v1.0", js "a\\b"] ∧
    posixResolve (joinedPath (js "/srv/www") [js "docs", js "v1.0", js "a\\b"]) =
      [js "srv", js "www", js "docs", js "v1.0", js "a\\b"] := by
  have h : resolveRelativeSegments (js "/docs/v1%2e0/a%5Cb/") false =
      some [js "docs", js "v1.0", js "a\\b"] := by decide
  obtain ⟨-, hjoined, hsegments⟩ := resolveRelativeSegments_safe h
  exact ⟨hsegments.symm, hjoined (js "/srv/www")⟩

end Keala.Core
