import Mathlib.Data.List.Lex
import Keala.Lib.Sorting
import Keala.Router.TableCaptures

/-!
The sort of the table regex against the search of the trie. `triePrecedence`
compares patterns as words, one letter for each segment and one for the end;
of two patterns that match one path, the one with the smaller word is the one
the search meets first.
-/

namespace Keala.Router

open Keala.Js

/-! ### Search words -/

/-- The rank of a segment, with room for the end of a pattern before the
wildcard: a terminal answers before the wildcard of its node. -/
def searchPlace : CompiledSegment → ℕ
  | .static _ => 0
  | .param _ _ _ => 1
  | .wildcard => 3

def searchWord : List CompiledSegment → List ℕ
  | [] => [2]
  | segment :: segments => searchPlace segment :: searchWord segments

theorem cons_le_cons_iff (x y : ℕ) (v w : List ℕ) :
    x :: v ≤ y :: w ↔ x < y ∨ x = y ∧ v ≤ w := by
  rw [← not_lt, List.cons_lt_cons_iff]
  rcases lt_trichotomy x y with hlt | rfl | hgt
  · simp [hlt, hlt.not_gt, hlt.ne']
  · simp
  · simp [hgt, hgt.not_gt, hgt.ne']

theorem rank_lt_iff (x y : CompiledSegment) : rank x < rank y ↔ searchPlace x < searchPlace y := by
  cases x <;> cases y <;> simp [rank, searchPlace]

theorem rank_eq_iff (x y : CompiledSegment) : rank x = rank y ↔ searchPlace x = searchPlace y := by
  cases x <;> cases y <;> simp [rank, searchPlace]

theorem staticCountOf_cons (x : CompiledSegment) (a : List CompiledSegment) :
    staticCountOf (x :: a) = (if rank x = 0 then 1 else 0) + staticCountOf a := by
  cases x <;> simp [staticCountOf, List.filter_cons, CompiledSegment.isStatic, rank, add_comm]

theorem staticCountOf_nonneg (a : List CompiledSegment) : 0 ≤ staticCountOf a := by
  simp [staticCountOf]

theorem getLast?_cons_of_ne_nil (x : CompiledSegment) {a : List CompiledSegment} (h : a ≠ []) :
    (x :: a).getLast? = a.getLast? := by
  obtain ⟨y, b, rfl⟩ := List.exists_cons_of_ne_nil h
  rw [List.getLast?_cons_cons]

/-- Segments of one rank leave the order to the ones behind them. -/
theorem triePrecedence_cons {x y : CompiledSegment} (h : rank x = rank y)
    (a b : List CompiledSegment) : triePrecedence (x :: a) (y :: b) = triePrecedence a b := by
  rw [triePrecedence, triePrecedence, rankDifference, if_neg (not_not.mpr h)]
  cases rankDifference a b with
  | some d => rfl
  | none =>
      have hcount : staticCountOf (y :: b) - staticCountOf (x :: a) =
          staticCountOf b - staticCountOf a := by
        rw [staticCountOf_cons, staticCountOf_cons, h]
        omega
      have hlength : ((y :: b).length : ℤ) - (x :: a).length = b.length - a.length := by
        simp only [List.length_cons]
        omega
      dsimp only
      rw [hcount, hlength]
      -- The longer pattern has a segment left, so both ends agree on the last one.
      rcases Nat.lt_trichotomy a.length b.length with hlt | heq | hgt
      · have hb : b ≠ [] := List.ne_nil_of_length_pos (by omega)
        simp [hlt.not_gt, hlt.le, getLast?_cons_of_ne_nil y hb]
      · simp [heq]
      · have ha : a ≠ [] := List.ne_nil_of_length_pos (by omega)
        simp [hgt, getLast?_cons_of_ne_nil x ha]

/-- The end of a pattern comes before a wildcard and behind everything else. -/
theorem triePrecedence_nil_cons {y : CompiledSegment} {b : List CompiledSegment}
    (h : WildcardLast (y :: b)) :
    (triePrecedence [] (y :: b) ≤ 0 ↔ y = .wildcard) ∧
      (triePrecedence (y :: b) [] ≤ 0 ↔ y ≠ .wildcard) := by
  by_cases hy : y = .wildcard
  · subst hy
    obtain rfl : b = [] := h
    decide
  · have hcount := staticCountOf_nonneg (y :: b)
    have hlast : ¬((y :: b).length = 1 ∧ (y :: b).getLast? = some .wildcard) := by
      rintro ⟨hlength, hwild⟩
      obtain rfl : b = [] := List.length_eq_zero_iff.mp (by simpa using hlength)
      exact hy (by simpa using hwild)
    have hpos : (0 : ℤ) < (y :: b).length := by simp
    have hnil : staticCountOf [] = 0 := rfl
    have hright : triePrecedence [] (y :: b) = if staticCountOf (y :: b) ≠ 0 then
        staticCountOf (y :: b) else (y :: b).length := by
      simp only [triePrecedence, rankDifference, List.length_nil, gt_iff_lt, Nat.not_lt_zero,
        if_false, Nat.zero_min, zero_add, hlast, and_false, hnil, sub_zero, Nat.cast_zero]
    have hleft : triePrecedence (y :: b) [] = if staticCountOf (y :: b) ≠ 0 then
        -staticCountOf (y :: b) else -(y :: b).length := by
      simp only [triePrecedence, rankDifference, List.length_nil, gt_iff_lt, Nat.cast_pos.mp hpos,
        if_true, Nat.min_zero, zero_add, hlast, and_false, if_false, hnil, zero_sub, Nat.cast_zero,
        neg_ne_zero]
    rw [hright, hleft, iff_false_right hy, iff_true_right hy]
    constructor
    · split <;> omega
    · split <;> omega

theorem WildcardLast.tail {x : CompiledSegment} {a : List CompiledSegment}
    (h : WildcardLast (x :: a)) : WildcardLast a := by
  cases x with
  | static value => exact h
  | param name pattern optional => exact h
  | wildcard =>
      obtain rfl : a = [] := h
      trivial

/-- The comparator orders patterns as their words. -/
theorem triePrecedence_le_zero_iff {a b : List CompiledSegment} (ha : WildcardLast a)
    (hb : WildcardLast b) : triePrecedence a b ≤ 0 ↔ searchWord a ≤ searchWord b := by
  induction a generalizing b with
  | nil =>
      cases b with
      | nil => simp [triePrecedence, rankDifference, searchWord]
      | cons y b =>
          rw [(triePrecedence_nil_cons hb).1, searchWord, searchWord, cons_le_cons_iff]
          cases y <;> simp [searchPlace]
  | cons x a ih =>
      cases b with
      | nil =>
          rw [(triePrecedence_nil_cons ha).2, searchWord, searchWord, cons_le_cons_iff]
          cases x <;> simp [searchPlace]
      | cons y b =>
          rw [searchWord, searchWord, cons_le_cons_iff, ← rank_lt_iff, ← rank_eq_iff]
          by_cases heq : rank x = rank y
          · rw [triePrecedence_cons heq, ih ha.tail hb.tail]
            simp [heq]
          · have hprecedence : triePrecedence (x :: a) (y :: b) = rank x - rank y := by
              rw [triePrecedence, rankDifference, if_pos heq]
            rw [hprecedence]
            omega

/-- The sorted patterns stand in the order of their words. -/
theorem pairwise_sortPatterns {entries : List EligiblePattern}
    (h : ∀ e ∈ entries, WildcardLast e.segments) :
    (sortPatterns entries).Pairwise fun x y => searchWord x.segments ≤ searchWord y.segments := by
  apply Sorting.pairwise_mergeSort
  intro x hx y hy
  apply decide_eq_decide.mpr
  exact triePrecedence_le_zero_iff (h x hx) (h y hy)

/-! ### The first match -/

variable {n : TrieNode} {shapes : List (List Edge)} {targets : List Edge → Option TargetRef}
  {names : List JsString}

/-- The edge that a shape starts with leads on. -/
theorem Holds.exists_step (h : Holds n shapes targets names) {e : Edge} {σ : List Edge}
    (hmem : e :: σ ∈ shapes) :
    ∃ m, n.step e = some m ∧
      Holds m (after shapes e) (fun τ => targets (e :: τ)) (names ++ e.names) := by
  obtain ⟨-, edges, -, -, -, -⟩ := h.represents
  have hafter : after shapes e ≠ [] := List.ne_nil_of_mem (mem_after.mpr hmem)
  obtain ⟨m, hm⟩ := Option.ne_none_iff_exists'.mp ((edges e).mpr hafter)
  exact ⟨m, hm, h.step hm⟩

/-- Params at one node have one name. -/
theorem Holds.param_name (h : Holds n shapes targets names) {v w : JsString}
    {p q : Option RegExp} {σ τ : List Edge} (hv : .consume v p :: σ ∈ shapes)
    (hw : .consume w q :: τ ∈ shapes) : v = w := by
  obtain ⟨mv, hmv, -⟩ := h.exists_step hv
  obtain ⟨mw, hmw, -⟩ := h.exists_step hw
  obtain ⟨wf, -, -, -, -, -⟩ := h.represents
  rw [TrieNode.step, Option.bind_eq_some_iff] at hmv hmw
  obtain ⟨a, ha, hnameA⟩ := hmv
  obtain ⟨b, hb, hnameB⟩ := hmw
  have hA : a.name = v := by
    by_contra hne
    simp [hne] at hnameA
  have hB : b.name = w := by
    by_contra hne
    simp [hne] at hnameB
  rw [← hA, ← hB]
  exact wf.one_name a (variantFor_mem ha) b (variantFor_mem hb)

theorem captures_static_ne_none {host : Host} {trailing : Bool} {value : JsString}
    {σ : List Edge} {segments : List JsString}
    (h : captures host trailing (.static value :: σ) segments ≠ none) :
    ∃ rest, segments = value :: rest := by
  cases segments with
  | nil => exact absurd rfl h
  | cons segment rest =>
      by_cases hvalue : value = segment
      · exact ⟨rest, hvalue ▸ rfl⟩
      · rw [captures, if_neg hvalue] at h
        exact absurd rfl h

/-- Segments of one place that match one path are one edge of the trie. -/
theorem Holds.edgeOf_eq {host : Host} {trailing : Bool} {x y : CompiledSegment}
    {a b : List CompiledSegment} (h : Holds n shapes targets names) (hx : Fast (x :: a))
    (hy : Fast (y :: b)) (hmemA : plainShape (x :: a) ∈ shapes)
    (hmemB : plainShape (y :: b) ∈ shapes) {segments : List JsString}
    (hcapA : captures host trailing (plainShape (x :: a)) segments ≠ none)
    (hcapB : captures host trailing (plainShape (y :: b)) segments ≠ none)
    (hplace : searchPlace x = searchPlace y) : edgeOf x = edgeOf y := by
  cases x with
  | static value =>
      cases y with
      | static other =>
          obtain ⟨rest, rfl⟩ := captures_static_ne_none hcapA
          obtain ⟨_, heq⟩ := captures_static_ne_none hcapB
          exact congrArg Edge.static (List.cons.inj heq).1
      | param name pattern optional => cases hplace
      | wildcard => cases hplace
  | param name pattern optional =>
      cases y with
      | static other => cases hplace
      | param other pattern' optional' =>
          obtain ⟨rfl, -⟩ := hx.param
          obtain ⟨rfl, -⟩ := hy.param
          show Edge.consume name none = Edge.consume other none
          rw [h.param_name hmemA hmemB]
      | wildcard => cases hplace
  | wildcard =>
      cases y with
      | static other => cases hplace
      | param other pattern' optional' => cases hplace
      | wildcard => rfl

theorem edgeOf_eq_wildcard {x : CompiledSegment} (h : edgeOf x = .wildcard) : x = .wildcard := by
  cases x with
  | static value => cases h
  | param name pattern optional => cases h
  | wildcard => rfl

theorem before_of_searchPlace {x y : CompiledSegment} (h : searchPlace x < searchPlace y) :
    edgeOf x ≠ edgeOf y ∧ (edgeOf x).before shapes (edgeOf y) := by
  cases x <;> cases y <;> simp [searchPlace, edgeOf, Edge.before, Edge.rank] at h ⊢

/-- Behind an edge that two shapes share, the search goes on among the shapes
below it. -/
theorem precedes_cons {e : Edge} {σ τ : List Edge}
    (h : σ = τ ∨ Precedes (after shapes e) σ τ) :
    e :: σ = e :: τ ∨ Precedes shapes (e :: σ) (e :: τ) := by
  rcases h with rfl | hprecedes
  · exact .inl rfl
  · right
    show if e = e then Precedes (after shapes e) σ τ else _
    rw [if_pos rfl]
    exact hprecedes

/-- Of two patterns that match one path the search first meets the one with the
smaller word. -/
theorem precedes_of_searchWord {host : Host} {trailing : Bool} {a b : List CompiledSegment}
    (h : Holds n shapes targets names) (ha : Fast a) (hb : Fast b)
    (hmemA : plainShape a ∈ shapes) (hmemB : plainShape b ∈ shapes) {segments : List JsString}
    (hcapA : captures host trailing (plainShape a) segments ≠ none)
    (hcapB : captures host trailing (plainShape b) segments ≠ none)
    (hle : searchWord a ≤ searchWord b) :
    plainShape a = plainShape b ∨ Precedes shapes (plainShape a) (plainShape b) := by
  induction a generalizing b n shapes targets names segments with
  | nil =>
      cases b with
      | nil => exact .inl rfl
      | cons y b => exact .inr trivial
  | cons x a ih =>
      cases b with
      | nil =>
          -- The end captures no segments, so only a wildcard could.
          obtain rfl : segments = [] := by
            by_contra hne
            obtain ⟨segment, rest, rfl⟩ := List.exists_cons_of_ne_nil hne
            exact hcapB rfl
          rw [searchWord, searchWord, cons_le_cons_iff] at hle
          cases x with
          | static value => exact absurd rfl hcapA
          | param name pattern optional => exact absurd rfl hcapA
          | wildcard => simp [searchPlace] at hle
      | cons y b =>
          rw [searchWord, searchWord, cons_le_cons_iff] at hle
          rcases hle with hlt | ⟨heq, hle⟩
          · obtain ⟨hne, hbefore⟩ : edgeOf x ≠ edgeOf y ∧ (edgeOf x).before shapes (edgeOf y) :=
              before_of_searchPlace hlt
            right
            show if edgeOf x = edgeOf y then _ else _
            rw [if_neg hne]
            exact hbefore
          · have hedge := h.edgeOf_eq ha hb hmemA hmemB hcapA hcapB heq
            by_cases hwild : x = .wildcard
            · subst hwild
              obtain rfl := ha.wildcard
              obtain rfl : y = .wildcard := edgeOf_eq_wildcard hedge.symm
              obtain rfl := hb.wildcard
              exact .inl rfl
            · have hwild' : y ≠ .wildcard := by
                rintro rfl
                exact hwild (edgeOf_eq_wildcard hedge)
              -- Both patterns go on below one node, so what is left of them is compared there.
              change edgeOf y :: plainShape b ∈ shapes at hmemB
              change captures host trailing (edgeOf y :: plainShape b) segments ≠ none at hcapB
              show edgeOf x :: plainShape a = edgeOf y :: plainShape b ∨
                Precedes shapes (edgeOf x :: plainShape a) (edgeOf y :: plainShape b)
              rw [← hedge] at hmemB hcapB ⊢
              obtain ⟨m, -, hm⟩ := h.exists_step hmemA
              apply precedes_cons
              exact ih hm (ha.tail hwild) (hb.tail hwild') (mem_after.mpr hmemA)
                (mem_after.mpr hmemB) (captures_rest host trailing (h.ends _ hmemA) hcapA)
                (captures_rest host trailing (h.ends _ hmemB) hcapB) hle

end Keala.Router
