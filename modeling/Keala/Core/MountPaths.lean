import Keala.Core.Mount
import Keala.Lib.Except
import Keala.Router.Overlap

/-!
The paths of mounted routes: one mounted route has the segments of the mount
paths, the last mount first, and then its own.
-/

namespace Keala.Core

open Keala.Js Keala.Router

/-! ### Cutting at the slashes -/

/-- What stands behind the first slash, cut at the others. -/
def cuts (path : JsString) : List JsString := (split slash path).tail

theorem cuts_rooted (rest : JsString) : cuts (slash :: rest) = split slash rest := by
  rw [cuts, split_cons_self, List.tail_cons]

theorem cuts_append (base rest : JsString) :
    cuts (base ++ slash :: rest) = cuts base ++ cuts (slash :: rest) := by
  rw [cuts_rooted, cuts, split_append_cons, List.tail_append_of_ne_nil (split_ne_nil slash base)]
  rfl

theorem cuts_normalizePath (path : JsString) :
    ∃ k, cuts path = cuts (normalizePath path) ++ List.replicate k [] := by
  rw [normalizePath]
  split
  · next h =>
      obtain ⟨front, rfl⟩ := List.getLast?_eq_some_iff.mp h.2
      refine ⟨1, ?_⟩
      rw [List.dropLast_concat, cuts_append]
      rfl
  · exact ⟨0, (List.append_nil _).symm⟩

theorem cuts_splitSegments (path : JsString) :
    ∃ k, cuts path = splitSegments path ++ List.replicate k [] := by
  obtain ⟨k, hk⟩ := cuts_normalizePath path
  rw [hk, splitSegments]
  change ∃ n, _ = (if cuts (normalizePath path) = [[]] then [] else cuts (normalizePath path)) ++ _
  split
  · next h =>
      rw [h]
      exact ⟨k + 1, rfl⟩
  · exact ⟨k, rfl⟩

theorem cuts_definitionPath {path : JsString} (h : path.head? = some slash) :
    ∃ k, cuts path = cuts (definitionPath path) ++ List.replicate k [] := by
  rw [definitionPath]
  by_cases hroot : path = js "/"
  · subst hroot
    exact ⟨0, rfl⟩
  · have hne : path ≠ [] := by
      rintro rfl
      cases h
    have hstripped : normalizePrefix path =
        if path.getLast? = some slash then path.dropLast else path := by
      rw [normalizePrefix, if_neg (by simp [hne, hroot])]
    rw [hstripped]
    split
    · next hlast =>
        obtain ⟨front, rfl⟩ := List.getLast?_eq_some_iff.mp hlast
        have hfront : front ≠ [] := by
          rintro rfl
          exact hroot rfl
        obtain ⟨k, hk⟩ := cuts_normalizePath front
        rw [List.dropLast_concat, if_neg (by simp [hfront]), cuts_append, hk]
        refine ⟨k + 1, ?_⟩
        rw [List.append_assoc, List.replicate_succ']
        rfl
    · rw [if_neg (by simp [hne])]
      exact cuts_normalizePath path

theorem head?_mounted {base path : JsString} (hroot : (orRoot base).head? = some slash)
    (hpath : path.head? = some slash) : (base ++ path).head? = some slash := by
  rw [orRoot] at hroot
  split at hroot
  · next hnil =>
      rw [hnil]
      exact hpath
  · next hne =>
      rw [List.head?_append_of_ne_nil _ hne]
      exact hroot

/-- The parts of a mounted path are those of the mount path and of the route; in
front of a part no mount path ends in a slash. -/
theorem splitSegments_mounted {base path : JsString} (hroot : (orRoot base).head? = some slash)
    (hpath : path.head? = some slash) (hbase : [] ∉ splitSegments (orRoot base))
    (hroute : [] ∉ splitSegments path)
    (hmounted : [] ∉ splitSegments (definitionPath (orRoot (base ++ path)))) :
    splitSegments (definitionPath (orRoot (base ++ path))) =
        splitSegments (orRoot base) ++ splitSegments path ∧
      (splitSegments path ≠ [] → cuts base = splitSegments (orRoot base)) := by
  obtain ⟨rest, rfl⟩ := List.head?_eq_some_iff.mp hpath
  have hwhole : orRoot (base ++ slash :: rest) = base ++ slash :: rest :=
    if_neg (List.append_ne_nil_of_right_ne_nil _ (List.cons_ne_nil _ _))
  rw [hwhole] at hmounted ⊢
  have hcutsBase : ∃ i, cuts base = splitSegments (orRoot base) ++ List.replicate i [] := by
    rw [orRoot]
    split
    · next hnil =>
        rw [hnil]
        exact ⟨0, rfl⟩
    · exact cuts_splitSegments base
  obtain ⟨i, hi⟩ := hcutsBase
  obtain ⟨j, hj⟩ := cuts_splitSegments (slash :: rest)
  obtain ⟨k, hk⟩ := cuts_definitionPath (head?_mounted hroot hpath)
  obtain ⟨l, hl⟩ := cuts_splitSegments (definitionPath (base ++ slash :: rest))
  rw [cuts_append, hi, hj, hl] at hk
  -- None of the parts is empty, so they are what is left without the empty ones.
  have hkeep : ∀ {parts : List JsString}, [] ∉ parts → parts.filter (· ≠ []) = parts := by
    intro parts hparts
    rw [List.filter_eq_self]
    rintro part hpart
    exact decide_eq_true fun heq => hparts (heq ▸ hpart)
  have hdrop : ∀ n, (List.replicate n ([] : JsString)).filter (· ≠ []) = [] := by
    intro n
    rw [List.filter_replicate]
    rfl
  have hfilter := congrArg (List.filter fun part => part ≠ []) hk
  have hparts : splitSegments (definitionPath (base ++ slash :: rest)) =
      splitSegments (orRoot base) ++ splitSegments (slash :: rest) := by
    simpa only [List.filter_append, hkeep hbase, hkeep hroute, hkeep hmounted, hdrop,
      List.append_nil] using hfilter.symm
  refine ⟨hparts, fun hsome => ?_⟩
  cases i with
  | zero => rw [hi, List.replicate_zero, List.append_nil]
  | succ i =>
      exfalso
      obtain ⟨part, parts, hcons⟩ := List.exists_cons_of_ne_nil hsome
      rw [hparts] at hk
      simp only [List.append_assoc, List.append_cancel_left_eq, List.replicate_succ,
        List.cons_append, hcons] at hk
      exact hroute (hcons ▸ (List.cons.inj hk).1 ▸ List.mem_cons_self)

/-- A path that ends in a text, but not in a slash, is kept as it is. -/
theorem kept_of_getLast? (path : JsString) (hne : path ≠ []) (h : path.getLast? ≠ some slash) :
    normalizePath path = path ∧ normalizePrefix path = path ∧ orRoot path = path := by
  refine ⟨?_, ?_, ?_⟩
  · rw [normalizePath, if_neg fun heq => h heq.2]
  · rw [normalizePrefix, if_neg, if_neg h]
    rintro (hlen | rfl)
    · exact hne (List.length_eq_zero_iff.mp hlen)
    · exact h rfl
  · rw [orRoot, if_neg hne]

/-- Without an empty part at its end a path is kept as it is. -/
theorem kept_of_cuts {path : JsString} (hroot : path.head? = some slash) (hne : cuts path ≠ [])
    (h : [] ∉ cuts path) :
    normalizePath path = path ∧ definitionPath path = path ∧ orRoot path = path ∧
      splitSegments path = cuts path := by
  obtain ⟨rest, rfl⟩ := List.head?_eq_some_iff.mp hroot
  have hlast : (slash :: rest).getLast? ≠ some slash := by
    rw [cuts_rooted] at hne h
    rw [Ne, getLast?_eq_sep_iff slash (List.cons_ne_nil _ _), split_cons_self,
      List.getLast?_cons_of_ne_nil hne]
    exact fun hnil => h (List.mem_of_getLast? hnil)
  obtain ⟨hnormal, hprefix, horRoot⟩ := kept_of_getLast? _ (List.cons_ne_nil _ _) hlast
  refine ⟨hnormal, ?_, horRoot, ?_⟩
  · rw [definitionPath, hprefix, if_neg (by simp), hnormal]
  · rw [splitSegments, hnormal]
    change (if cuts (slash :: rest) = [[]] then [] else cuts (slash :: rest)) = _
    rw [if_neg]
    intro hone
    exact h (hone ▸ List.mem_cons_self)

/-! ### Compiling side by side -/

variable {host : Host}

/-- Two successes on one part agree: only a wildcard looks at what follows. -/
theorem compileSegment_eq {path path' raw : JsString} {last last' : Bool}
    {segment segment' : CompiledSegment} (h : compileSegment host path raw last = .ok segment)
    (h' : compileSegment host path' raw last' = .ok segment') : segment' = segment := by
  by_cases hstar : raw = js "*"
  · subst hstar
    cases last
    · cases h
    · cases last'
      · cases h'
      · cases h
        cases h'
        rfl
  · rw [compileSegment_ok_congr path' h fun heq => absurd heq hstar] at h'
    exact (Except.ok.inj h').symm

theorem compileParts_append_eq {path front back : JsString} {parts more : List JsString}
    {segments ahead behind : List CompiledSegment}
    (h : compileParts host path (parts ++ more) = .ok segments)
    (hahead : compileParts host front parts = .ok ahead)
    (hbehind : compileParts host back more = .ok behind) : segments = ahead ++ behind := by
  induction parts generalizing segments ahead with
  | nil =>
      obtain rfl := Except.ok.inj hahead
      rw [List.nil_append, compileParts_ok_congr path hbehind] at h
      exact (Except.ok.inj h).symm
  | cons raw parts ih =>
      rw [List.cons_append] at h
      obtain ⟨segment, rest, rfl, -, hsegment, hrest⟩ := compileParts_cons h
      obtain ⟨segment', rest', rfl, -, hsegment', hrest'⟩ := compileParts_cons hahead
      rw [compileSegment_eq hsegment' hsegment, ih hrest hrest']
      rfl

/-- Parts that compile ahead of some others compile ahead of any. -/
theorem compileParts_append_ok {path : JsString} {parts more others : List JsString}
    {segments behind : List CompiledSegment} (hmore : more ≠ []) (hothers : others ≠ [])
    (h : compileParts host path (parts ++ more) = .ok segments) (path' : JsString)
    (hbehind : compileParts host path' others = .ok behind) :
    ∃ ahead, compileParts host path' (parts ++ others) = .ok (ahead ++ behind) := by
  induction parts generalizing segments with
  | nil => exact ⟨[], hbehind⟩
  | cons raw parts ih =>
      rw [List.cons_append] at h
      obtain ⟨segment, rest, rfl, -, hsegment, hrest⟩ := compileParts_cons h
      obtain ⟨ahead, hahead⟩ := ih hrest
      have hlast : ∀ {tail : List JsString}, tail ≠ [] → (parts ++ tail).isEmpty = false := by
        intro tail htail
        rw [List.isEmpty_eq_false_iff]
        exact List.append_ne_nil_of_right_ne_nil _ htail
      rw [hlast hmore] at hsegment
      refine ⟨segment :: ahead, ?_⟩
      rw [List.cons_append, compileParts, hlast hothers,
        compileSegment_ok_congr path' hsegment fun _ => rfl, hahead]
      rfl

theorem compilePattern_of_parts {path : JsString} {segments : List CompiledSegment}
    (hroot : path.head? = some slash)
    (h : compileParts host path (splitSegments path) = .ok segments) :
    ∃ ir, compilePattern host path = .ok ir ∧ ir.segments = segments := by
  rw [compilePattern, if_neg (not_not.mpr hroot), h]
  exact ⟨_, rfl, rfl⟩

/-! ### Mount after mount -/

/-- The path that `mountInto` registers a route under, mount after mount; the
last mount stands first. -/
def mountedPath (host : Host) : List JsString → JsString → Except RouteError JsString
  | [], route => do
      let _ ← compilePattern host route
      pure route
  | mountPath :: mounts, route => do
      let path ← mountedPath host mounts route
      let base := mountBase mountPath
      let _ ← compilePattern host (orRoot base)
      let path := definitionPath (orRoot (base ++ path))
      let _ ← compilePattern host path
      pure path

/-- What the mounts stand in front of a route, none for a path that is refused. -/
def mountSegments (host : Host) (mountPath : JsString) : List CompiledSegment :=
  match compilePattern host (orRoot (mountBase mountPath)) with
  | .error _ => []
  | .ok ir => ir.segments

def prefixSegments (host : Host) (mounts : List JsString) : List CompiledSegment :=
  mounts.flatMap (mountSegments host)

theorem mountedPath_cons {mountPath route mounted : JsString} {mounts : List JsString}
    (h : mountedPath host (mountPath :: mounts) route = .ok mounted) :
    ∃ path irBase ir, mountedPath host mounts route = .ok path ∧
      compilePattern host (orRoot (mountBase mountPath)) = .ok irBase ∧
      mounted = definitionPath (orRoot (mountBase mountPath ++ path)) ∧
      compilePattern host mounted = .ok ir := by
  rw [mountedPath] at h
  obtain ⟨path, hpath, h⟩ := Except.ok_of_bind h
  obtain ⟨irBase, hbase, h⟩ := Except.ok_of_bind h
  obtain ⟨ir, hir, h⟩ := Except.ok_of_bind h
  obtain rfl := Except.ok.inj h
  exact ⟨path, irBase, ir, hpath, hbase, rfl, hir⟩

theorem mountedPath_compiles {route path : JsString} {mounts : List JsString}
    (h : mountedPath host mounts route = .ok path) :
    (∃ ir, compilePattern host route = .ok ir) ∧ ∃ ir, compilePattern host path = .ok ir := by
  induction mounts generalizing path with
  | nil =>
      obtain ⟨ir, hir, h⟩ := Except.ok_of_bind h
      obtain rfl := Except.ok.inj h
      exact ⟨⟨ir, hir⟩, ir, hir⟩
  | cons mountPath mounts ih =>
      obtain ⟨below, -, ir, hbelow, -, -, hir⟩ := mountedPath_cons h
      exact ⟨(ih hbelow).1, ir, hir⟩

/-- A mounted route has the segments of the mounts, then its own. -/
theorem mountedPath_segments {route path : JsString} {mounts : List JsString} {irR ir : PatternIR}
    (h : mountedPath host mounts route = .ok path) (hroute : compilePattern host route = .ok irR)
    (hir : compilePattern host path = .ok ir) :
    ir.segments = prefixSegments host mounts ++ irR.segments := by
  induction mounts generalizing path ir with
  | nil =>
      obtain ⟨_, -, h⟩ := Except.ok_of_bind h
      obtain rfl := Except.ok.inj h
      rw [Except.ok.inj (hroute.symm.trans hir)]
      rfl
  | cons mountPath mounts ih =>
      obtain ⟨below, irBase, ir', hbelow, hbase, rfl, -⟩ := mountedPath_cons h
      obtain ⟨-, irBelow, hirBelow⟩ := mountedPath_compiles hbelow
      obtain ⟨hrootBase, hpartsBase, -⟩ := compilePattern_parts hbase
      obtain ⟨hrootBelow, hpartsBelow, -⟩ := compilePattern_parts hirBelow
      obtain ⟨-, hparts, -⟩ := compilePattern_parts hir
      rw [(splitSegments_mounted hrootBase hrootBelow (compileParts_nil_not_mem hpartsBase)
        (compileParts_nil_not_mem hpartsBelow) (compileParts_nil_not_mem hparts)).1] at hparts
      rw [compileParts_append_eq hparts hpartsBase hpartsBelow, ih hbelow hirBelow, prefixSegments,
        prefixSegments, List.flatMap_cons, mountSegments, hbase, List.append_assoc]

/-- Where one route with segments can be mounted, any can. -/
theorem mountedPath_accepts {route path other : JsString} {mounts : List JsString}
    {irR irO : PatternIR} (h : mountedPath host mounts route = .ok path)
    (hroute : compilePattern host route = .ok irR) (hne : irR.segments ≠ [])
    (hother : compilePattern host other = .ok irO) (hsome : cuts other ≠ [])
    (hkept : [] ∉ cuts other) :
    ∃ mounted, mountedPath host mounts other = .ok mounted ∧ cuts mounted ≠ [] ∧
      [] ∉ cuts mounted := by
  induction mounts generalizing path with
  | nil =>
      refine ⟨other, ?_, hsome, hkept⟩
      rw [mountedPath, hother]
      rfl
  | cons mountPath mounts ih =>
      obtain ⟨below, irBase, ir, hbelow, hbase, rfl, hir⟩ := mountedPath_cons h
      obtain ⟨otherBelow, hotherBelow, hsomeBelow, hkeptBelow⟩ := ih hbelow
      obtain ⟨-, irBelow, hirBelow⟩ := mountedPath_compiles hbelow
      obtain ⟨-, irOther, hirOther⟩ := mountedPath_compiles hotherBelow
      obtain ⟨hrootBase, hpartsBase, -⟩ := compilePattern_parts hbase
      obtain ⟨hrootBelow, hpartsBelow, -⟩ := compilePattern_parts hirBelow
      obtain ⟨hrootOther, hpartsOther, -⟩ := compilePattern_parts hirOther
      obtain ⟨-, hparts, -⟩ := compilePattern_parts hir
      obtain ⟨hsplit, hcuts⟩ := splitSegments_mounted hrootBase hrootBelow
        (compileParts_nil_not_mem hpartsBase) (compileParts_nil_not_mem hpartsBelow)
        (compileParts_nil_not_mem hparts)
      have hsegments : splitSegments below ≠ [] := by
        intro hnil
        rw [hnil] at hpartsBelow
        have happend := mountedPath_segments hbelow hroute hirBelow
        rw [← Except.ok.inj hpartsBelow] at happend
        exact hne (List.append_eq_nil_iff.mp happend.symm).2
      have hsplitOther : splitSegments otherBelow = cuts otherBelow :=
        (kept_of_cuts hrootOther hsomeBelow hkeptBelow).2.2.2
      rw [hsplit] at hparts
      rw [hsplitOther] at hpartsOther
      have hmounted : cuts (mountBase mountPath ++ otherBelow) =
          splitSegments (orRoot (mountBase mountPath)) ++ cuts otherBelow := by
        obtain ⟨rest, rfl⟩ := List.head?_eq_some_iff.mp hrootOther
        rw [cuts_append, hcuts hsegments]
      have hrootMounted := head?_mounted hrootBase hrootOther
      have hsomeMounted : cuts (mountBase mountPath ++ otherBelow) ≠ [] := by
        rw [hmounted]
        exact List.append_ne_nil_of_right_ne_nil _ hsomeBelow
      have hkeptMounted : [] ∉ cuts (mountBase mountPath ++ otherBelow) := by
        rw [hmounted, List.mem_append, not_or]
        exact ⟨compileParts_nil_not_mem hpartsBase, hkeptBelow⟩
      obtain ⟨hnormal, hdefinition, horRoot, hpartsMounted⟩ :=
        kept_of_cuts hrootMounted hsomeMounted hkeptMounted
      obtain ⟨ahead, hcompiled⟩ := compileParts_append_ok hsegments hsomeBelow hparts
        (mountBase mountPath ++ otherBelow) (compileParts_ok_congr _ hpartsOther)
      rw [← hmounted, ← hpartsMounted] at hcompiled
      obtain ⟨irMounted, hirMounted, -⟩ := compilePattern_of_parts hrootMounted hcompiled
      refine ⟨mountBase mountPath ++ otherBelow, ?_, hsomeMounted, hkeptMounted⟩
      rw [mountedPath, hotherBelow]
      dsimp only [bind, Except.bind]
      rw [hbase]
      dsimp only
      rw [horRoot, hdefinition, hirMounted]
      rfl

end Keala.Core
