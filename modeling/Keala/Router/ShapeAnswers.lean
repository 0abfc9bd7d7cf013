import Keala.Router.Overlap

/-!
The shape that a route answers a request by, and what the front of a shape
leaves of the segments for the rest of it.
-/

namespace Keala.Router

open Keala.Js

variable {host : Host}

/-! ### What a shape leaves over -/

def remaining (σ : List Edge) (segments : List JsString) : List JsString :=
  σ.foldl (fun left e => e.rest left) segments

@[simp] theorem remaining_cons (e : Edge) (σ : List Edge) (segments : List JsString) :
    remaining (e :: σ) segments = remaining σ (e.rest segments) := rfl

theorem length_of_mem_shapesOf {segments : List CompiledSegment} {σ : List Edge}
    (h : σ ∈ shapesOf segments) : σ.length = segments.length :=
  (mem_shapesOf_iff.mp h).length_eq

/-- The shape of a mounted route is one of the mounts and one of its own. -/
theorem shapesOf_append {P R : List CompiledSegment} {σ : List Edge} (h : σ ∈ shapesOf (P ++ R)) :
    σ.take P.length ∈ shapesOf P ∧ σ.drop P.length ∈ shapesOf R := by
  rw [mem_shapesOf_iff] at h
  exact ⟨mem_shapesOf_iff.mpr (List.forall₂_take_append _ _ _ h),
    mem_shapesOf_iff.mpr (List.forall₂_drop_append _ _ _ h)⟩

theorem not_wildcard_of_mem_shapesOf {P : List CompiledSegment} {σ : List Edge}
    (h : σ ∈ shapesOf P) (hP : .wildcard ∉ P) : .wildcard ∉ σ := by
  rw [mem_shapesOf_iff] at h
  induction h with
  | nil => exact List.not_mem_nil
  | @cons e segment σ P hedge _ ih =>
      rw [List.mem_cons, not_or] at hP ⊢
      refine ⟨?_, ih hP.2⟩
      rintro rfl
      cases segment with
      | static value => simp [edgesOf] at hedge
      | param name pattern optional => cases optional <;> simp [edgesOf] at hedge
      | wildcard => exact hP.1 rfl

variable {trailing : Bool}

/-- A shape without a wildcard takes what stands in front of what it leaves. -/
theorem captures_append {τ υ : List Edge} {segments : List JsString} (hτ : .wildcard ∉ τ)
    (h : captures host trailing (τ ++ υ) segments ≠ none) :
    captures host trailing υ (remaining τ segments) ≠ none ∧
      ∃ front, segments = front ++ remaining τ segments ∧ captures host false τ front ≠ none := by
  induction τ generalizing segments with
  | nil => exact ⟨h, [], rfl, by simp [captures]⟩
  | cons e τ ih =>
      rw [List.mem_cons, not_or] at hτ
      cases e with
      | static value =>
          cases segments with
          | nil => exact absurd rfl h
          | cons d ds =>
              rw [List.cons_append, captures, Ne, ite_eq_right_iff, not_forall] at h
              obtain ⟨hvalue, h⟩ := h
              obtain ⟨hback, front, hfront, hcap⟩ := ih hτ.2 h
              refine ⟨hback, d :: front, congrArg (d :: ·) hfront, ?_⟩
              rw [captures, if_pos hvalue]
              exact hcap
      | consume name pattern =>
          cases segments with
          | nil => exact absurd rfl h
          | cons d ds =>
              rw [List.cons_append, captures, Ne, ite_eq_right_iff, not_forall] at h
              obtain ⟨hsat, h⟩ := h
              rw [Option.map_eq_none_iff] at h
              obtain ⟨hback, front, hfront, hcap⟩ := ih hτ.2 h
              refine ⟨hback, d :: front, congrArg (d :: ·) hfront, ?_⟩
              rw [captures, if_pos hsat, Ne, Option.map_eq_none_iff]
              exact hcap
      | skip name pattern => exact ih hτ.2 h
      | wildcard => exact absurd rfl hτ.1

/-- A whole shape leaves nothing. -/
theorem remaining_eq_nil {σ : List Edge} {segments : List JsString} (hends : WildcardEnds σ)
    (h : captures host trailing σ segments ≠ none) : remaining σ segments = [] := by
  induction σ generalizing segments with
  | nil =>
      cases segments with
      | nil => rfl
      | cons d ds => exact absurd rfl h
  | cons e σ ih => exact ih hends.tail (captures_rest host trailing hends h)

theorem WildcardLast.not_mem {P R : List CompiledSegment} (h : WildcardLast (P ++ R))
    (hR : R ≠ []) : .wildcard ∉ P := by
  induction P with
  | nil => exact List.not_mem_nil
  | cons segment P ih =>
      cases segment with
      | static value => simpa using ih h
      | param name pattern optional => simpa using ih h
      | wildcard => exact absurd (List.append_eq_nil_iff.mp h).2 hR

theorem WildcardLast.behind {P R : List CompiledSegment} (h : WildcardLast (P ++ R)) :
    WildcardLast R := by
  induction P with
  | nil => exact h
  | cons segment P ih =>
      cases segment with
      | static value => exact ih h
      | param name pattern optional => exact ih h
      | wildcard =>
          obtain ⟨-, rfl⟩ := List.append_eq_nil_iff.mp h
          exact trivial

theorem wildcardLast_of_not_mem {P : List CompiledSegment} (h : .wildcard ∉ P) :
    WildcardLast P := by
  induction P with
  | nil => exact trivial
  | cons segment P ih =>
      rw [List.mem_cons, not_or] at h
      cases segment with
      | static value => exact ih h.2
      | param name pattern optional => exact ih h.2
      | wildcard => exact absurd rfl h.1

theorem remaining_static (values segments : List JsString) :
    remaining (values.map .static) segments = segments.drop values.length := by
  induction values generalizing segments with
  | nil => rfl
  | cons value values ih =>
      rw [List.map_cons, remaining_cons, ih, List.length_cons, Edge.rest, List.drop_tail]

theorem shapesOf_static (values : List JsString) :
    shapesOf (values.map .static) = [values.map .static] := by
  induction values with
  | nil => rfl
  | cons value values ih => rw [List.map_cons, shapesOf, ih, List.map_singleton, List.map_cons]

theorem Matches.length_le {P : List CompiledSegment} {trailing : Bool} {segments : List JsString}
    {found : List (JsString × JsString)} (h : Matches host trailing P segments found)
    (hP : .wildcard ∉ P) : segments.length ≤ P.length := by
  induction h with
  | done => exact le_rfl
  | static _ ih =>
      rw [List.mem_cons, not_or] at hP
      exact Nat.succ_le_succ (ih hP.2)
  | consume _ _ _ ih =>
      rw [List.mem_cons, not_or] at hP
      exact Nat.succ_le_succ (ih hP.2)
  | skip _ ih =>
      rw [List.mem_cons, not_or] at hP
      exact Nat.le_succ_of_le (ih hP.2)
  | wildcard => exact absurd List.mem_cons_self hP
  | blank => exact absurd List.mem_cons_self hP
  | slash => exact absurd List.mem_cons_self hP

theorem Matches.append {P R : List CompiledSegment} {trailing : Bool}
    {segments more : List JsString} {found others : List (JsString × JsString)}
    (h : Matches host trailing P segments found) (hP : .wildcard ∉ P)
    (hmore : Matches host trailing R more others) :
    Matches host trailing (P ++ R) (segments ++ more) (found ++ others) := by
  induction h with
  | done => exact hmore
  | static _ ih =>
      rw [List.mem_cons, not_or] at hP
      exact .static (ih hP.2)
  | consume hne hsat _ ih =>
      rw [List.mem_cons, not_or] at hP
      exact .consume hne hsat (ih hP.2)
  | skip _ ih =>
      rw [List.mem_cons, not_or] at hP
      exact .skip (ih hP.2)
  | wildcard => exact absurd List.mem_cons_self hP
  | blank => exact absurd List.mem_cons_self hP
  | slash => exact absurd List.mem_cons_self hP

theorem length_of_section {name value : JsString} {pattern : Option RegExp} {trailing : Bool}
    {segments : List JsString}
    (h : captures host trailing [.consume name pattern, .static value] segments ≠ none) :
    segments.length = 2 := by
  rcases segments with _ | ⟨first, _ | ⟨second, _ | ⟨third, rest⟩⟩⟩
  · exact absurd rfl h
  · simp [captures] at h
  · rfl
  · simp [captures] at h

/-! ### The shape that answers -/

/-- The shape by which a route answers a request: the first that captures it,
the only one if the static table holds the route. -/
def AnswersBy (host : Host) (pattern request : JsString) (σ : List Edge) : Prop :=
  ∃ ir, compilePattern host pattern = .ok ir ∧
    ((shapesOf ir.segments).find? (fun τ => (capturesPath host request τ).isSome) = some σ ∨
      ir.isStatic = true ∧ staticKey pattern ∈ staticKeys request ∧ σ ∈ shapesOf ir.segments)

theorem captures_static {values : List JsString} {σ : List Edge}
    (h : σ ∈ shapesOf (values.map .static)) (trailing : Bool) :
    captures host trailing σ values ≠ none := by
  induction values generalizing σ with
  | nil =>
      rw [List.map_nil, shapesOf, List.mem_singleton] at h
      subst h
      simp [captures]
  | cons value values ih =>
      obtain ⟨τ, hτ, rfl⟩ := List.mem_map.mp h
      rw [captures, if_pos rfl]
      exact ih hτ

/-- A normalized route answers by a shape that captures the request. -/
theorem captures_of_answersBy {pattern request : JsString} {σ : List Edge} {ir : PatternIR}
    (hir : compilePattern host pattern = .ok ir)
    (hnormal : ir.isStatic = true → normalizePath pattern = pattern)
    (h : AnswersBy host pattern request σ) :
    σ ∈ shapesOf ir.segments ∧ capturesPath host request σ ≠ none := by
  obtain ⟨ir', hir', hfound⟩ := h
  obtain rfl : ir = ir' := Except.ok.inj (hir.symm.trans hir')
  rcases hfound with hfound | ⟨hstatic, hkey, hσ⟩
  · have hsome := List.find?_some hfound
    exact ⟨List.mem_of_find?_eq_some hfound, Option.isSome_iff_ne_none.mp hsome⟩
  · obtain ⟨hroot, hparts, hall⟩ := compilePattern_parts hir
    have hsegments := compileParts_static hparts (hall ▸ hstatic)
    refine ⟨hσ, ?_⟩
    rw [capturesPath, decodedSegments_of_key hroot (hnormal hstatic) hkey]
    apply captures_static
    rwa [hsegments] at hσ

/-- Every list of segments with a text at its end is that of a request. -/
theorem exists_request (segments : List JsString) {last : JsString} (hlast : last ≠ []) :
    ∃ request, decodedSegments request = segments ++ [last] ∧ trailingSlash request = false := by
  have hfree : ∀ part ∈ ([] :: segments.map reescape) ++ [reescape last], slash ∉ part := by
    intro part hpart
    rw [List.cons_append, ← List.map_singleton, ← List.map_append] at hpart
    rcases List.mem_cons.mp hpart with rfl | hpart
    · exact List.not_mem_nil
    · obtain ⟨segment, -, rfl⟩ := List.mem_map.mp hpart
      exact slash_not_mem_reescape segment
  have hsplit := split_join hfree (List.append_ne_nil_of_left_ne_nil (List.cons_ne_nil _ _) _)
  rw [join_concat slash (List.cons_ne_nil _ _)] at hsplit
  have hne : reescape last ≠ [] := by
    intro hnil
    rw [← decodeSegment_reescape last, hnil] at hlast
    exact hlast rfl
  generalize join slash ([] :: segments.map reescape) = front at hsplit
  have hend : (front ++ slash :: reescape last).getLast? ≠ some slash := by
    rw [List.getLast?_append_of_ne_nil _ (List.cons_ne_nil _ _),
      List.getLast?_cons_of_ne_nil hne]
    exact fun hslash => slash_not_mem_reescape last (List.mem_of_getLast? hslash)
  refine ⟨front ++ slash :: reescape last, ?_, decide_eq_false hend⟩
  have hraw : (rawSegments (front ++ slash :: reescape last)).tail = segments ++ [last] := by
    rw [rawSegments, hsplit, List.cons_append, List.map_cons, List.tail_cons, List.map_append,
      List.map_map, List.map_singleton, decodeSegment_reescape]
    congr 1
    exact List.map_id'' (fun segment => decodeSegment_reescape segment) _
  rw [decodedSegments_eq, (normalizePath_eq_self_iff _).mpr fun h => hend h.2, hraw, if_neg]
  intro hone
  rw [← List.nil_append [[]]] at hone
  exact hlast (List.singleton_inj.mp (List.append_inj' hone rfl).2)

/-! ### The matcher -/

end Keala.Router
