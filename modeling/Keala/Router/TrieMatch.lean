import Keala.Router.TrieShape
import Mathlib.Data.List.Flatten
import Mathlib.Algebra.Order.BigOperators.Group.List
import Mathlib.Algebra.Order.Group.Nat

/-!
The matcher on the tries `insertPattern` builds. The terminals of a trie are
listed in the order of the search; `matchPattern` answers with the first of
them whose shape captures the segments of the path.
-/

namespace Keala.Router

open Keala.Js

structure Terminal where
  shape : List Edge
  target : TargetRef
  names : Option (List JsString)

def Terminal.below (e : Edge) (t : Terminal) : Terminal := { t with shape := e :: t.shape }

mutual

def TrieNode.terminals : TrieNode → List Terminal
  | .mk children param paramMore wildcard target matchNames =>
      (target.toList.map fun t => ⟨[], t, matchNames⟩) ++ (childrenTerminals children ++
        ((paramTerminals param ++ variantsTerminals paramMore) ++ wildcardTerminals wildcard))

def childrenTerminals : List (JsString × TrieNode) → List Terminal
  | [] => []
  | (value, child) :: rest =>
      child.terminals.map (Terminal.below (.static value)) ++ childrenTerminals rest

def paramTerminals : Option (ParamChild TrieNode) → List Terminal
  | none => []
  | some v => variantTerminals v

def variantsTerminals : List (ParamChild TrieNode) → List Terminal
  | [] => []
  | v :: rest => variantTerminals v ++ variantsTerminals rest

def variantTerminals : ParamChild TrieNode → List Terminal
  | ⟨name, pattern, node, skipNode⟩ =>
      node.terminals.map (Terminal.below (.consume name pattern)) ++
        skipTerminals name pattern skipNode

def skipTerminals (name : JsString) (pattern : Option RegExp) : Option TrieNode → List Terminal
  | none => []
  | some node => node.terminals.map (Terminal.below (.skip name pattern))

def wildcardTerminals : Option (ParamChild TrieNode) → List Terminal
  | none => []
  | some ⟨_, _, node, _⟩ => node.terminals.map (Terminal.below .wildcard)

end

theorem childrenTerminals_eq (children : List (JsString × TrieNode)) :
    childrenTerminals children =
      children.flatMap fun p => p.2.terminals.map (Terminal.below (.static p.1)) := by
  induction children with
  | nil => rfl
  | cons p rest ih =>
      obtain ⟨value, child⟩ := p
      rw [childrenTerminals, ih, List.flatMap_cons]

theorem variantsTerminals_eq (vs : List (ParamChild TrieNode)) :
    variantsTerminals vs = vs.flatMap variantTerminals := by
  induction vs with
  | nil => rfl
  | cons v rest ih => rw [variantsTerminals, ih, List.flatMap_cons]

theorem variantTerminals_eq (v : ParamChild TrieNode) :
    variantTerminals v = v.node.terminals.map (Terminal.below (.consume v.name v.pattern)) ++
      v.skipNode.toList.flatMap fun s =>
        s.terminals.map (Terminal.below (.skip v.name v.pattern)) := by
  obtain ⟨name, pattern, node, skipNode⟩ := v
  rw [variantTerminals]
  cases skipNode with
  | none => rfl
  | some s => simp [skipTerminals]

theorem terminals_eq (n : TrieNode) :
    n.terminals = (n.target.toList.map fun t => ⟨[], t, n.matchNames⟩) ++
      ((n.children.flatMap fun p => p.2.terminals.map (Terminal.below (.static p.1))) ++
        (n.variants.flatMap variantTerminals ++
          n.wildcard.toList.flatMap fun w => w.node.terminals.map (Terminal.below .wildcard))) := by
  obtain ⟨children, param, paramMore, wildcard, target, matchNames⟩ := n
  rw [TrieNode.terminals, childrenTerminals_eq, variantsTerminals_eq]
  have hparam : paramTerminals param = param.toList.flatMap variantTerminals := by
    cases param with
    | none => rfl
    | some v => simp [paramTerminals]
  have hwild : wildcardTerminals wildcard =
      wildcard.toList.flatMap fun w => w.node.terminals.map (Terminal.below .wildcard) := by
    cases wildcard with
    | none => rfl
    | some w => simp [wildcardTerminals]
  rw [hparam, hwild, ← List.flatMap_append]
  rfl

/-! ### Sizes -/

theorem childrenSize_eq (children : List (JsString × TrieNode)) :
    childrenSize children = (children.map fun p => p.2.size).sum := by
  induction children with
  | nil => rfl
  | cons p rest ih =>
      obtain ⟨value, child⟩ := p
      rw [childrenSize, ih, List.map_cons, List.sum_cons]

theorem variantsSize_eq (vs : List (ParamChild TrieNode)) :
    variantsSize vs = (vs.map variantSize).sum := by
  induction vs with
  | nil => rfl
  | cons v rest ih => rw [variantsSize, ih, List.map_cons, List.sum_cons]

theorem variantSize_eq (v : ParamChild TrieNode) :
    variantSize v = v.node.size + (v.skipNode.toList.map TrieNode.size).sum := by
  obtain ⟨name, pattern, node, skipNode⟩ := v
  rw [variantSize]
  cases skipNode with
  | none => rfl
  | some s => simp [skipSize]

theorem size_eq (n : TrieNode) :
    n.size = 1 + (n.children.map fun p => p.2.size).sum + (n.variants.map variantSize).sum +
      (n.wildcard.toList.map variantSize).sum := by
  obtain ⟨children, param, paramMore, wildcard, target, matchNames⟩ := n
  rw [TrieNode.size, childrenSize_eq, variantsSize_eq]
  have hparam : ∀ p : Option (ParamChild TrieNode),
      paramSize p = (p.toList.map variantSize).sum := by
    intro p
    cases p with
    | none => rfl
    | some v => simp [paramSize]
  rw [hparam, hparam]
  simp only [TrieNode.children, TrieNode.variants, TrieNode.param, TrieNode.paramMore,
    TrieNode.wildcard, List.map_append, List.sum_append]
  omega

theorem size_pos (n : TrieNode) : 0 < n.size := by
  rw [size_eq]
  omega

/-! ### Tries of patterns -/

def WildcardEnds : List Edge → Prop
  | [] => True
  | .wildcard :: shape => shape = []
  | _ :: shape => WildcardEnds shape

/-- A trie of shapes that end in their wildcards, with targets for shapes
only. -/
structure Holds (n : TrieNode) (shapes : List (List Edge)) (targets : List Edge → Option TargetRef)
    (names : List JsString) : Prop where
  represents : Represents n shapes targets names
  within : TargetsWithin targets shapes
  ends : ∀ σ ∈ shapes, WildcardEnds σ

theorem WildcardEnds.tail {e : Edge} {σ : List Edge} (h : WildcardEnds (e :: σ)) :
    WildcardEnds σ := by
  cases e with
  | static _ => exact h
  | consume _ _ => exact h
  | skip _ _ => exact h
  | wildcard =>
      have hnil : σ = [] := h
      subst hnil
      trivial

theorem Holds.step {n m : TrieNode} {shapes : List (List Edge)}
    {targets : List Edge → Option TargetRef} {names : List JsString} {e : Edge}
    (h : Holds n shapes targets names) (hm : n.step e = some m) :
    Holds m (after shapes e) (fun σ => targets (e :: σ)) (names ++ e.names) := by
  refine ⟨?_, h.within.after e, fun σ hσ => (h.ends _ (mem_after.mp hσ)).tail⟩
  obtain ⟨-, -, -, -, -, below⟩ := h.represents
  exact below e m hm

theorem Represents.variantFor_of_mem {n : TrieNode} {shapes : List (List Edge)}
    {targets : List Edge → Option TargetRef} {names : List JsString}
    (h : Represents n shapes targets names) {v : ParamChild TrieNode} (hv : v ∈ n.variants) :
    variantFor n v.pattern = some v := by
  obtain ⟨-, -, ordered, -, -, -⟩ := h
  rw [VariantsOrdered, List.pairwise_map] at ordered
  rw [variantFor]
  generalize n.variants = vs at hv ordered
  induction vs with
  | nil => cases hv
  | cons w ws ih =>
      rw [List.pairwise_cons] at ordered
      rcases List.mem_cons.mp hv with rfl | hmem
      · simp
      · have hne : w.pattern ≠ v.pattern := by
          intro heq
          have hlt := ordered.1 v hmem
          rw [heq] at hlt
          exact Nat.lt_irrefl _ hlt
        rw [List.find?_cons_of_neg (by simpa using hne)]
        exact ih hmem ordered.2

theorem Represents.step_consume {n : TrieNode} {shapes : List (List Edge)}
    {targets : List Edge → Option TargetRef} {names : List JsString}
    (h : Represents n shapes targets names) {v : ParamChild TrieNode} (hv : v ∈ n.variants) :
    n.step (.consume v.name v.pattern) = some v.node := by
  simp [TrieNode.step, h.variantFor_of_mem hv]

theorem Represents.step_skip {n : TrieNode} {shapes : List (List Edge)}
    {targets : List Edge → Option TargetRef} {names : List JsString}
    (h : Represents n shapes targets names) {v : ParamChild TrieNode} (hv : v ∈ n.variants) :
    n.step (.skip v.name v.pattern) = v.skipNode := by
  simp [TrieNode.step, h.variantFor_of_mem hv]

theorem Represents.step_static {n c : TrieNode} {shapes : List (List Edge)}
    {targets : List Edge → Option TargetRef} {names : List JsString}
    (h : Represents n shapes targets names) {value : JsString} (hc : (value, c) ∈ n.children) :
    n.step (.static value) = some c := by
  obtain ⟨wf, -, -, -, -, -⟩ := h
  exact (OrderedMap.get?_eq_some_iff wf.nodup value c).mpr hc

/-- The terminals below a node are the ones below its edges. -/
theorem Represents.mem_terminals_iff {n : TrieNode} {shapes : List (List Edge)}
    {targets : List Edge → Option TargetRef} {names : List JsString}
    (h : Represents n shapes targets names) (t : Terminal) :
    t ∈ n.terminals ↔
      (t.shape = [] ∧ n.target = some t.target ∧ n.matchNames = t.names) ∨
        ∃ e m, n.step e = some m ∧ ∃ u ∈ m.terminals, t = u.below e := by
  rw [terminals_eq]
  simp only [List.mem_append, List.mem_flatMap, List.mem_map, Option.mem_toList,
    variantTerminals_eq]
  constructor
  · rintro (⟨r, hr, rfl⟩ | ⟨⟨value, c⟩, hc, u, hu, rfl⟩ |
      ⟨v, hv, ⟨u, hu, rfl⟩ | ⟨s, hs, u, hu, rfl⟩⟩ | ⟨w, hw, u, hu, rfl⟩)
    · exact .inl ⟨rfl, hr, rfl⟩
    · exact .inr ⟨_, c, h.step_static hc, u, hu, rfl⟩
    · exact .inr ⟨_, _, h.step_consume hv, u, hu, rfl⟩
    · exact .inr ⟨_, s, (h.step_skip hv).trans hs, u, hu, rfl⟩
    · exact .inr ⟨.wildcard, w.node, by simp [TrieNode.step, hw], u, hu, rfl⟩
  · rintro (⟨hshape, ht, hnames⟩ | ⟨e, m, hm, u, hu, rfl⟩)
    · obtain ⟨shape, target, tnames⟩ := t
      exact .inl ⟨target, ht, by simp_all⟩
    · cases e with
      | static value =>
          exact .inr (.inl ⟨(value, m), OrderedMap.mem_of_get? hm, u, hu, rfl⟩)
      | consume name p =>
          simp only [TrieNode.step, Option.bind_eq_some_iff, Option.ite_none_right_eq_some] at hm
          obtain ⟨v, hv, rfl, hnode⟩ := hm
          obtain rfl := variantFor_pattern hv
          cases hnode
          exact .inr (.inr (.inl ⟨v, variantFor_mem hv, .inl ⟨u, hu, rfl⟩⟩))
      | skip name p =>
          simp only [TrieNode.step, Option.bind_eq_some_iff, Option.ite_none_right_eq_some] at hm
          obtain ⟨v, hv, rfl, hskip⟩ := hm
          obtain rfl := variantFor_pattern hv
          exact .inr (.inr (.inl ⟨v, variantFor_mem hv, .inr ⟨m, hskip, u, hu, rfl⟩⟩))
      | wildcard =>
          simp only [TrieNode.step, Option.map_eq_some_iff] at hm
          obtain ⟨w, hw, rfl⟩ := hm
          exact .inr (.inr (.inr ⟨w, hw, u, hu, rfl⟩))

theorem Edge.names_append_namesOf (e : Edge) (σ : List Edge) :
    namesOf (e :: σ) = e.names ++ namesOf σ := by
  cases e <;> rfl

/-- The terminals of a trie are the shapes with a target, each with the param
names on its way. -/
theorem Holds.mem_terminals_iff {n : TrieNode} {shapes : List (List Edge)}
    {targets : List Edge → Option TargetRef} {names : List JsString}
    (h : Holds n shapes targets names) (t : Terminal) :
    t ∈ n.terminals ↔ targets t.shape = some t.target ∧
      t.names = some (names ++ namesOf t.shape) := by
  obtain ⟨shape, target, tnames⟩ := t
  induction shape generalizing n shapes targets names with
  | nil =>
      rw [h.represents.mem_terminals_iff]
      have hdown : ¬∃ e m, n.step e = some m ∧
          ∃ u ∈ m.terminals, (⟨[], target, tnames⟩ : Terminal) = u.below e := by
        rintro ⟨e, m, -, u, -, hu⟩
        exact absurd (congrArg Terminal.shape hu) (by simp [Terminal.below])
      obtain ⟨-, -, -, htarget, hnames, -⟩ := h.represents
      simp only [hdown, or_false, true_and, htarget, hnames, namesOf, List.append_nil]
      refine and_congr_right fun ht => ?_
      rw [if_pos (h.within [] (by simp [ht]))]
      exact eq_comm
  | cons e σ ih =>
      rw [h.represents.mem_terminals_iff, Edge.names_append_namesOf, ← List.append_assoc]
      constructor
      · rintro (⟨hnil, -, -⟩ | ⟨f, m, hm, u, hu, heq⟩)
        · cases hnil
        · obtain ⟨ushape, utarget, unames⟩ := u
          simp only [Terminal.below, Terminal.mk.injEq, List.cons.injEq] at heq
          obtain ⟨⟨rfl, rfl⟩, rfl, rfl⟩ := heq
          exact (ih (h.step hm)).mp hu
      · rintro ⟨ht, hnames⟩
        have hmem : σ ∈ Router.after shapes e :=
          mem_after.mpr (h.within (e :: σ) (by simp only at ht; simp [ht]))
        have hne : n.step e ≠ none := by
          obtain ⟨-, edges, -, -, -, -⟩ := h.represents
          exact (edges e).mpr (List.ne_nil_of_mem hmem)
        obtain ⟨m, hm⟩ := Option.ne_none_iff_exists'.mp hne
        exact .inr ⟨e, m, hm, ⟨σ, target, tnames⟩, (ih (h.step hm)).mpr ⟨ht, hnames⟩, rfl⟩

/-! ### The order of the search -/

section Order

variable (host : Host) (slash : Bool)

def Edge.rest : Edge → List JsString → List JsString
  | static _, segments | consume _ _, segments => segments.tail
  | skip _ _, segments => segments
  | wildcard, _ => []

theorem captures_rest {e : Edge} {σ : List Edge} {segments : List JsString}
    (hends : WildcardEnds (e :: σ)) (h : captures host slash (e :: σ) segments ≠ none) :
    captures host slash σ (e.rest segments) ≠ none := by
  cases e with
  | static value =>
      cases segments with
      | nil => simp [captures] at h
      | cons d ds =>
          rw [captures, Ne, ite_eq_right_iff, not_forall] at h
          obtain ⟨-, h⟩ := h
          exact h
  | consume name p =>
      cases segments with
      | nil => simp [captures] at h
      | cons d ds =>
          rw [captures, Ne, ite_eq_right_iff, not_forall] at h
          obtain ⟨-, h⟩ := h
          simpa [Edge.rest] using h
  | skip name p => simpa [captures, Edge.rest] using h
  | wildcard =>
      obtain rfl : σ = [] := hends
      simp [captures, Edge.rest]

/-- Of two terminals that both capture some segments, the first precedes. -/
def Ahead (shapes : List (List Edge)) (t u : Terminal) : Prop :=
  ∀ segments, captures host slash t.shape segments ≠ none →
    captures host slash u.shape segments ≠ none → Precedes shapes t.shape u.shape

variable {host slash}

theorem Ahead.below {shapes : List (List Edge)} {e : Edge} {t u : Terminal}
    (h : Ahead host slash (after shapes e) t u) (ht : WildcardEnds (e :: t.shape))
    (hu : WildcardEnds (e :: u.shape)) :
    Ahead host slash shapes (t.below e) (u.below e) := by
  intro segments hct hcu
  simp only [Terminal.below, Precedes, if_true]
  exact h _ (captures_rest host slash ht hct) (captures_rest host slash hu hcu)

theorem ahead_of_before {shapes : List (List Edge)} {e f : Edge} (hne : e ≠ f)
    (h : e.before shapes f) (t u : Terminal) :
    Ahead host slash shapes (t.below e) (u.below f) := by
  intro segments _ _
  simp only [Terminal.below, Precedes, if_neg hne]
  exact h

theorem ahead_static {shapes : List (List Edge)} {v w : JsString} (hne : v ≠ w)
    (t u : Terminal) :
    Ahead host slash shapes (t.below (.static v)) (u.below (.static w)) := by
  intro segments hct hcu
  cases segments with
  | nil => simp [Terminal.below, captures] at hct
  | cons d ds =>
      simp only [Terminal.below, captures, ne_eq, ite_eq_right_iff, not_forall] at hct hcu
      exact absurd (hct.1.trans hcu.1.symm) hne

theorem before_of_idxOf {shapes : List (List Edge)} {e f : Edge} {m m' : JsString}
    {p q : Option RegExp} (he : e = .consume m p ∨ e = .skip m p)
    (hf : f = .consume m' q ∨ f = .skip m' q)
    (h : (headPatterns shapes).idxOf p < (headPatterns shapes).idxOf q) :
    e ≠ f ∧ e.before shapes f := by
  have hpq : p ≠ q := by
    rintro rfl
    exact Nat.lt_irrefl _ h
  rcases he with rfl | rfl <;> rcases hf with rfl | rfl
  · exact ⟨by simp [hpq], h⟩
  · exact ⟨by simp, .inr h⟩
  · exact ⟨by simp, h⟩
  · exact ⟨by simp [hpq], h⟩

variable (host slash)

/-- The terminals of a trie stand in the order of their shapes. -/
theorem Represents.pairwise_terminals {n : TrieNode} {shapes : List (List Edge)}
    {targets : List Edge → Option TargetRef} {names : List JsString}
    (h : Represents n shapes targets names) (hwithin : TargetsWithin targets shapes)
    (hends : ∀ σ ∈ shapes, WildcardEnds σ) :
    n.terminals.Pairwise (Ahead host slash shapes) := by
  induction h with
  | @mk n shapes targets names wf edges ordered target matchNames below ih =>
      have h : Represents n shapes targets names :=
        .mk wf edges ordered target matchNames below
      have hholds : Holds n shapes targets names := ⟨h, hwithin, hends⟩
      -- Below one edge the order is that of the node there.
      have hedge : ∀ e m, n.step e = some m →
          (m.terminals.map (Terminal.below e)).Pairwise (Ahead host slash shapes) := by
        intro e m hm
        have hstep := hholds.step hm
        have hmem : ∀ t ∈ m.terminals, WildcardEnds (e :: t.shape) := by
          intro t ht
          have hsome := ((hstep.mem_terminals_iff t).mp ht).1
          exact hends _ (mem_after.mp (hstep.within _ (by simp [hsome])))
        rw [List.pairwise_map]
        refine List.Pairwise.imp_of_mem ?_ (ih e m hm hstep.within hstep.ends)
        intro t u ht hu hahead
        exact hahead.below (hmem t ht) (hmem u hu)
      have hvariant : ∀ v ∈ n.variants, ∀ t ∈ variantTerminals v, ∃ e u,
          t = Terminal.below e u ∧
            (e = .consume v.name v.pattern ∨ e = .skip v.name v.pattern) := by
        intro v hv t ht
        rw [variantTerminals_eq] at ht
        simp only [List.mem_append, List.mem_map, List.mem_flatMap] at ht
        rcases ht with ⟨u, -, rfl⟩ | ⟨s, -, u, -, rfl⟩
        · exact ⟨_, u, rfl, .inl rfl⟩
        · exact ⟨_, u, rfl, .inr rfl⟩
      rw [terminals_eq]
      refine List.pairwise_append.mpr ⟨?_, List.pairwise_append.mpr ⟨?_,
        List.pairwise_append.mpr ⟨?_, ?_, ?_⟩, ?_⟩, ?_⟩
      · cases n.target <;> simp
      · rw [List.pairwise_flatMap]
        refine ⟨fun p hp => hedge _ _ (h.step_static hp), ?_⟩
        have hnodup := wf.nodup
        rw [OrderedMap.keys, List.Nodup, List.pairwise_map] at hnodup
        refine hnodup.imp ?_
        intro p q hne t ht u hu
        obtain ⟨t, -, rfl⟩ := List.mem_map.mp ht
        obtain ⟨u, -, rfl⟩ := List.mem_map.mp hu
        exact ahead_static hne t u
      · rw [List.pairwise_flatMap]
        constructor
        · intro v hv
          rw [variantTerminals_eq]
          refine List.pairwise_append.mpr ⟨hedge _ _ (h.step_consume hv), ?_, ?_⟩
          · cases hs : v.skipNode with
            | none => simp
            | some s => simpa using hedge _ _ ((h.step_skip hv).trans hs)
          · intro t ht u hu
            obtain ⟨t, -, rfl⟩ := List.mem_map.mp ht
            obtain ⟨s, -, hu⟩ := List.mem_flatMap.mp hu
            obtain ⟨u, -, rfl⟩ := List.mem_map.mp hu
            exact ahead_of_before (by simp) (by simp [Edge.before]) t u
        · rw [VariantsOrdered, List.pairwise_map] at ordered
          refine ordered.imp_of_mem ?_
          intro v w hv hw hlt t ht u hu
          obtain ⟨e, t, rfl, he⟩ := hvariant v hv t ht
          obtain ⟨f, u, rfl, hf⟩ := hvariant w hw u hu
          obtain ⟨hne, hbefore⟩ := before_of_idxOf he hf hlt
          exact ahead_of_before hne hbefore t u
      · cases hw : n.wildcard with
        | none => simp
        | some w => simpa using hedge .wildcard w.node (by simp [TrieNode.step, hw])
      · intro t ht u hu
        obtain ⟨v, hv, ht⟩ := List.mem_flatMap.mp ht
        obtain ⟨e, t, rfl, rfl | rfl⟩ := hvariant v hv t ht
        all_goals
          obtain ⟨w, -, hu⟩ := List.mem_flatMap.mp hu
          obtain ⟨u, -, rfl⟩ := List.mem_map.mp hu
          exact ahead_of_before (by simp) (by simp [Edge.before, Edge.rank]) t u
      · intro t ht u hu
        obtain ⟨p, -, ht⟩ := List.mem_flatMap.mp ht
        obtain ⟨t, -, rfl⟩ := List.mem_map.mp ht
        rcases List.mem_append.mp hu with hu | hu
        · obtain ⟨v, hv, hu⟩ := List.mem_flatMap.mp hu
          obtain ⟨f, u, rfl, rfl | rfl⟩ := hvariant v hv u hu
          all_goals exact ahead_of_before (by simp) (by simp [Edge.before, Edge.rank]) t u
        · obtain ⟨w, -, hu⟩ := List.mem_flatMap.mp hu
          obtain ⟨u, -, rfl⟩ := List.mem_map.mp hu
          exact ahead_of_before (by simp) (by simp [Edge.before, Edge.rank]) t u
      · intro t ht u hu segments _ _
        obtain ⟨r, -, rfl⟩ := List.mem_map.mp ht
        have hne : u.shape ≠ [] := by
          simp only [List.mem_append, List.mem_flatMap, List.mem_map] at hu
          rcases hu with ⟨_, -, u, -, rfl⟩ | ⟨v, hv, hu⟩ | ⟨_, -, u, -, rfl⟩
          · simp [Terminal.below]
          · obtain ⟨f, u, rfl, -⟩ := hvariant v hv u hu
            simp [Terminal.below]
          · simp [Terminal.below]
        obtain ⟨f, τ, hτ⟩ := List.exists_cons_of_ne_nil hne
        simp only [hτ, Precedes]

end Order

/-! ### The search -/

theorem decodeWithin_ne_nil {fuel : ℕ} {text decoded : JsString} (h : text ≠ [])
    (hd : decodeWithin fuel text = some decoded) : decoded ≠ [] := by
  cases fuel with
  | zero =>
      cases text with
      | nil => exact absurd rfl h
      | cons c text => simp [decodeWithin] at hd
  | succ fuel =>
      cases text with
      | nil => exact absurd rfl h
      | cons c text =>
          rw [decodeWithin] at hd
          split at hd
          · simp only [Option.bind_eq_bind, Option.bind_eq_some_iff, Option.pure_def,
              Option.some.injEq] at hd
            obtain ⟨⟨char, rest⟩, hesc, tail, -, rfl⟩ := hd
            simp only [escaped, Option.bind_eq_bind, Option.bind_eq_some_iff, Option.pure_def,
              Option.some.injEq, Prod.mk.injEq] at hesc
            obtain ⟨_, _, _, _, cp, -, rfl, -⟩ := hesc
            rw [utf16]
            split <;> simp
          · simp only [Option.bind_eq_bind, Option.bind_eq_some_iff, Option.pure_def,
              Option.some.injEq] at hd
            obtain ⟨tail, -, rfl⟩ := hd
            simp

/-- Decoding makes no segment empty. -/
theorem decodeSegment_eq_nil_iff (segment : JsString) :
    decodeSegment segment = [] ↔ segment = [] := by
  constructor
  · intro h
    by_contra hne
    rw [decodeSegment] at h
    split at h
    · cases hd : decodeURIComponent segment with
      | none => simp [hd, hne] at h
      | some decoded =>
          simp only [hd, Option.getD_some] at h
          exact decodeWithin_ne_nil hne hd h
    · exact hne h
  · rintro rfl
    rfl

section Search

variable (host : Host) (path : JsString)

def decodedSegments (path : JsString) : List JsString := (splitSegments path).map decodeSegment

def trailingSlash (path : JsString) : Bool := path.getLast? = some slash

/-- The product of a terminal on segments, after `params` were captured. -/
def Terminal.read (segments : List JsString) (params : List (JsString × JsString))
    (t : Terminal) : Option RouteMatch :=
  (captures host (trailingSlash path) t.shape segments).map fun found =>
    matchAt t.target t.names (found.reverse ++ params)

def Frame.answers (f : Frame) : List RouteMatch :=
  f.node.terminals.filterMap
    (Terminal.read host path ((decodedSegments path).drop f.index) f.params)

def Frame.Ok (f : Frame) : Prop := ∃ shapes targets names, Holds f.node shapes targets names

def childFrames (f : Frame) (segment : JsString) : List Frame :=
  (OrderedMap.get? f.node.children (decodeSegment segment)).toList.map fun child =>
    { node := child, index := f.index + 1, params := f.params }

def skipFrames (f : Frame) (v : ParamChild TrieNode) : List Frame :=
  v.skipNode.toList.map fun skip => { node := skip, index := f.index, params := f.params }

def variantFrames (f : Frame) (segment : JsString) (v : ParamChild TrieNode) : List Frame :=
  (if segment ≠ [] ∧ satisfies host v.pattern (decodeSegment segment) then
    [{ node := v.node, index := f.index + 1
       params := (v.name, decodeSegment segment) :: f.params }]
  else []) ++ skipFrames f v

theorem foldr_pushVariant (vs : List (ParamChild TrieNode)) (f : Frame) (segment : JsString)
    (stack : List Frame) :
    vs.foldr (fun v stack =>
      pushVariant host v f.index segment (decodeSegment segment) f.params stack) stack =
      vs.flatMap (variantFrames host f segment) ++ stack := by
  induction vs with
  | nil => rfl
  | cons v vs ih =>
      rw [List.foldr_cons, ih, List.flatMap_cons, List.append_assoc, pushVariant, variantFrames,
        skipFrames]
      cases v.skipNode <;> split <;> rfl

theorem foldr_pushSkip (vs : List (ParamChild TrieNode)) (f : Frame) (stack : List Frame) :
    vs.foldr (fun v stack => pushSkip v f.index f.params stack) stack =
      vs.flatMap (skipFrames f) ++ stack := by
  induction vs with
  | nil => rfl
  | cons v vs ih =>
      rw [List.foldr_cons, ih, List.flatMap_cons, List.append_assoc, pushSkip, skipFrames]
      cases v.skipNode <;> rfl

def wildcardFrames (f : Frame) (segments : List JsString) : List Frame :=
  match f.node.wildcard with
  | none => []
  | some wild =>
      if wild.node.target.isSome then
        let rest := join slash ((segments.drop f.index).map decodeSegment)
        [{ node := wild.node, index := segments.length
           params := if rest ≠ [] then (wild.name, rest) :: f.params else f.params }]
      else []

def blankFrames (f : Frame) : List Frame :=
  match f.node.wildcard with
  | none => []
  | some wild =>
      if wild.node.target.isSome ∧ path.getLast? = some slash then
        [{ node := wild.node, index := f.index, params := (wild.name, []) :: f.params }]
      else []

/-- What is pushed inside the path: the static child, the variants, the
wildcard. -/
theorem pushInside_eq (segments : List JsString) (f : Frame) (segment : JsString)
    (hhead : f.node.param = none → f.node.paramMore = []) :
    pushInside host segments f segment = childFrames f segment ++
      (f.node.variants.flatMap (variantFrames host f segment) ++ wildcardFrames f segments) := by
  have hvariants : ∀ stack : List Frame, (match f.node.param with
      | none => stack
      | some head =>
          pushVariant host head f.index segment (decodeSegment segment) f.params
            (f.node.paramMore.foldr (fun v stack =>
              pushVariant host v f.index segment (decodeSegment segment) f.params stack) stack)) =
      f.node.variants.flatMap (variantFrames host f segment) ++ stack := by
    intro stack
    rw [← foldr_pushVariant, TrieNode.variants]
    cases hp : f.node.param with
    | none => simp [hhead hp]
    | some head => rfl
  obtain ⟨node, index, params⟩ := f
  rw [← hvariants, childFrames]
  simp only [pushInside]
  cases OrderedMap.get? node.children (decodeSegment segment) <;> rfl

theorem pushAtEnd_eq (f : Frame) (hhead : f.node.param = none → f.node.paramMore = []) :
    pushAtEnd path f = f.node.variants.flatMap (skipFrames f) ++ blankFrames path f := by
  have hvariants : ∀ stack : List Frame, (match f.node.param with
      | none => f.node.paramMore.foldr (fun v stack => pushSkip v f.index f.params stack) stack
      | some head => pushSkip head f.index f.params
          (f.node.paramMore.foldr (fun v stack => pushSkip v f.index f.params stack) stack)) =
      f.node.variants.flatMap (skipFrames f) ++ stack := by
    intro stack
    rw [← foldr_pushSkip, TrieNode.variants]
    cases hp : f.node.param with
    | none => simp [hhead hp]
    | some head => rfl
  obtain ⟨node, index, params⟩ := f
  rw [← hvariants]
  rfl

/-! Reading a terminal behind one edge is reading it at what the edge leaves. -/

variable {host path}

theorem read_static (value d : JsString) (ds : List JsString) (params : List (JsString × JsString))
    (t : Terminal) : (t.below (.static value)).read host path (d :: ds) params =
      if value = d then t.read host path ds params else none := by
  simp only [Terminal.read, Terminal.below, captures]
  split <;> rfl

theorem read_consume (name : JsString) (p : Option RegExp) (d : JsString) (ds : List JsString)
    (params : List (JsString × JsString)) (t : Terminal) :
    (t.below (.consume name p)).read host path (d :: ds) params =
      if d ≠ [] ∧ satisfies host p d then t.read host path ds ((name, d) :: params) else none := by
  simp only [Terminal.read, Terminal.below, captures]
  split
  · simp [Function.comp_def]
  · rfl

theorem read_end (params : List (JsString × JsString)) {t : Terminal} (h : t.shape = []) :
    t.read host path [] params = some (matchAt t.target t.names params) := by
  simp [Terminal.read, h, captures]

theorem read_wildcard (d : JsString) (ds : List JsString) (params : List (JsString × JsString))
    (t : Terminal) : (t.below .wildcard).read host path (d :: ds) params =
      some (matchAt t.target t.names (if join slash (d :: ds) ≠ [] then
        (wildcardName, join slash (d :: ds)) :: params else params)) := by
  simp only [Terminal.read, Terminal.below, captures, Option.map_some]
  split <;> rfl

theorem read_blank (params : List (JsString × JsString)) (t : Terminal) :
    (t.below .wildcard).read host path [] params =
      if path.getLast? = some slash then
        some (matchAt t.target t.names ((wildcardName, []) :: params)) else none := by
  simp only [Terminal.read, Terminal.below, captures, trailingSlash, decide_eq_true_eq]
  split <;> rfl

theorem read_nil (params : List (JsString × JsString)) (t : Terminal) {e : Edge}
    (h : (∃ value, e = .static value) ∨ ∃ name p, e = .consume name p) :
    (t.below e).read host path [] params = none := by
  rcases h with ⟨value, rfl⟩ | ⟨name, p, rfl⟩
  · rfl
  · rfl

variable (host path) in
/-- What a static child is worth: the others capture nothing. -/
theorem reads_children (children : List (JsString × TrieNode))
    (hnodup : (OrderedMap.keys children).Nodup) (d : JsString) (ds : List JsString)
    (params : List (JsString × JsString)) :
    (children.flatMap fun p => p.2.terminals.map (Terminal.below (.static p.1))).filterMap
        (Terminal.read host path (d :: ds) params) =
      (OrderedMap.get? children d).toList.flatMap fun child =>
        child.terminals.filterMap (Terminal.read host path ds params) := by
  induction children with
  | nil => rfl
  | cons p rest ih =>
      obtain ⟨value, child⟩ := p
      rw [OrderedMap.keys_cons, List.nodup_cons] at hnodup
      rw [List.flatMap_cons, List.filterMap_append, List.filterMap_map, ih hnodup.2,
        OrderedMap.get?_cons]
      have hread : Terminal.read host path (d :: ds) params ∘ Terminal.below (.static value) =
          fun t => if value = d then t.read host path ds params else none := by
        funext t
        exact read_static value d ds params t
      rw [hread]
      by_cases h : value = d
      · subst h
        have hnone : OrderedMap.get? rest value = none :=
          (OrderedMap.get?_eq_none_iff rest value).mpr hnodup.1
        simp [hnone]
      · simp [h]

theorem drop_decodedSegments {i : ℕ} {segment : JsString}
    (h : (splitSegments path)[i]? = some segment) :
    (decodedSegments path).drop i =
      decodeSegment segment :: (decodedSegments path).drop (i + 1) := by
  obtain ⟨hlt, hget⟩ := List.getElem?_eq_some_iff.mp h
  have hlen : i < (decodedSegments path).length := by
    rw [decodedSegments, List.length_map]
    exact hlt
  rw [List.drop_eq_getElem_cons hlen]
  simp [decodedSegments, hget]

theorem drop_decodedSegments_none {i : ℕ} (h : (splitSegments path)[i]? = none) :
    (decodedSegments path).drop i = [] := by
  rw [List.getElem?_eq_none_iff] at h
  rw [List.drop_eq_nil_iff, decodedSegments, List.length_map]
  exact h

theorem reads_skip (f : Frame) (v : ParamChild TrieNode) :
    (v.skipNode.toList.flatMap fun s =>
        s.terminals.map (Terminal.below (.skip v.name v.pattern))).filterMap
        (Terminal.read host path ((decodedSegments path).drop f.index) f.params) =
      (skipFrames f v).flatMap (Frame.answers host path) := by
  rw [skipFrames]
  cases v.skipNode with
  | none => rfl
  | some s =>
      simp only [Option.toList_some, List.flatMap_cons, List.flatMap_nil, List.append_nil,
        List.filterMap_map, List.map_cons, List.map_nil]
      rfl

theorem reads_variant (f : Frame) (v : ParamChild TrieNode) {segment : JsString}
    (hsegment : (splitSegments path)[f.index]? = some segment) :
    (variantTerminals v).filterMap
        (Terminal.read host path ((decodedSegments path).drop f.index) f.params) =
      (variantFrames host f segment v).flatMap (Frame.answers host path) := by
  rw [variantTerminals_eq, List.filterMap_append, reads_skip, variantFrames, List.flatMap_append]
  congr 1
  rw [List.filterMap_map, drop_decodedSegments hsegment]
  have hread : Terminal.read host path
        (decodeSegment segment :: (decodedSegments path).drop (f.index + 1)) f.params ∘
        Terminal.below (.consume v.name v.pattern) =
      fun t => if segment ≠ [] ∧ satisfies host v.pattern (decodeSegment segment) then
        t.read host path ((decodedSegments path).drop (f.index + 1))
          ((v.name, decodeSegment segment) :: f.params) else none := by
    funext t
    simp only [Function.comp_apply, read_consume, ne_eq, decodeSegment_eq_nil_iff]
  rw [hread]
  split
  · simp [Frame.answers]
  · simp

theorem reads_variant_end (f : Frame) (v : ParamChild TrieNode)
    (hend : (splitSegments path)[f.index]? = none) :
    (variantTerminals v).filterMap
        (Terminal.read host path ((decodedSegments path).drop f.index) f.params) =
      (skipFrames f v).flatMap (Frame.answers host path) := by
  rw [variantTerminals_eq, List.filterMap_append, reads_skip, List.filterMap_map,
    drop_decodedSegments_none hend]
  have hread : Terminal.read host path [] f.params ∘ Terminal.below (.consume v.name v.pattern) =
      fun _ => none := by
    funext t
    exact read_nil f.params t (.inr ⟨_, _, rfl⟩)
  rw [hread, List.filterMap_none, List.nil_append]

/-- Below a wildcard there is at most its own terminal. -/
theorem Holds.wildcard_terminal {n : TrieNode} {shapes : List (List Edge)}
    {targets : List Edge → Option TargetRef} {names : List JsString}
    (h : Holds n shapes targets names) {w : ParamChild TrieNode} (hw : n.wildcard = some w) :
    w.name = wildcardName ∧ (∀ t ∈ w.node.terminals, t.shape = []) ∧
      (w.node.target = none → w.node.terminals = []) := by
  have hstep := h.step (e := .wildcard) (m := w.node) (by simp [TrieNode.step, hw])
  have hshape : ∀ t ∈ w.node.terminals, t.shape = [] := by
    intro t ht
    have hsome := ((hstep.mem_terminals_iff t).mp ht).1
    have hmem := hstep.within t.shape (by simp [hsome])
    exact h.ends _ (mem_after.mp hmem)
  refine ⟨?_, hshape, ?_⟩
  · obtain ⟨wf, -, -, -, -, -⟩ := h.represents
    exact wf.wildcard_name w hw
  · intro hnone
    refine List.eq_nil_iff_forall_not_mem.mpr fun t ht => ?_
    have hsome := ((hstep.mem_terminals_iff t).mp ht).1
    obtain ⟨-, -, -, htarget, -, -⟩ := hstep.represents
    rw [hshape t ht] at hsome
    exact absurd (htarget.symm.trans hnone) (by simp [hsome])

theorem reads_wildcard {shapes : List (List Edge)} {targets : List Edge → Option TargetRef}
    {names : List JsString} (f : Frame) (h : Holds f.node shapes targets names)
    {segment : JsString} (hsegment : (splitSegments path)[f.index]? = some segment) :
    (f.node.wildcard.toList.flatMap fun w =>
        w.node.terminals.map (Terminal.below .wildcard)).filterMap
        (Terminal.read host path ((decodedSegments path).drop f.index) f.params) =
      (wildcardFrames f (splitSegments path)).flatMap (Frame.answers host path) := by
  rw [wildcardFrames]
  cases hw : f.node.wildcard with
  | none => rfl
  | some w =>
      obtain ⟨hname, hshape, hnone⟩ := h.wildcard_terminal hw
      simp only [Option.toList_some, List.flatMap_cons, List.flatMap_nil, List.append_nil]
      cases ht : w.node.target with
      | none => simp [hnone ht]
      | some r =>
          have hdrop := drop_decodedSegments hsegment
          have hrest : ((splitSegments path).drop f.index).map decodeSegment =
              (decodedSegments path).drop f.index := List.map_drop
          have hall : (decodedSegments path).drop (splitSegments path).length = [] := by
            simp [decodedSegments]
          simp only [Option.isSome_some, if_true, hrest, List.flatMap_cons, List.flatMap_nil,
            List.append_nil, Frame.answers, hall, List.filterMap_map]
          refine List.filterMap_congr fun t ht => ?_
          rw [Function.comp_apply, read_end _ (hshape t ht), hdrop, read_wildcard, hname]

theorem reads_blank {shapes : List (List Edge)} {targets : List Edge → Option TargetRef}
    {names : List JsString} (f : Frame) (h : Holds f.node shapes targets names)
    (hend : (splitSegments path)[f.index]? = none) :
    (f.node.wildcard.toList.flatMap fun w =>
        w.node.terminals.map (Terminal.below .wildcard)).filterMap
        (Terminal.read host path ((decodedSegments path).drop f.index) f.params) =
      (blankFrames path f).flatMap (Frame.answers host path) := by
  rw [blankFrames, drop_decodedSegments_none hend]
  cases hw : f.node.wildcard with
  | none => rfl
  | some w =>
      obtain ⟨hname, hshape, hnone⟩ := h.wildcard_terminal hw
      simp only [Option.toList_some, List.flatMap_cons, List.flatMap_nil, List.append_nil]
      cases ht : w.node.target with
      | none => simp [hnone ht]
      | some r =>
          have hread : Terminal.read host path [] f.params ∘ Terminal.below .wildcard =
              fun t => if path.getLast? = some slash then
                some (matchAt t.target t.names ((wildcardName, []) :: f.params)) else none := by
            funext t
            exact read_blank f.params t
          rw [List.filterMap_map, hread]
          by_cases hslash : path.getLast? = some slash
          · simp only [hslash, if_true, Option.isSome_some, true_and, List.flatMap_cons,
              List.flatMap_nil, List.append_nil, Frame.answers,
              drop_decodedSegments_none hend, hname]
            refine List.filterMap_congr fun t ht => ?_
            rw [read_end _ (hshape t ht)]
          · simp [hslash]

/-! What is pushed stays within the trie and gets smaller. -/

theorem skipFrames_ok {f g : Frame} (hok : f.Ok) {v : ParamChild TrieNode}
    (hv : v ∈ f.node.variants) (hg : g ∈ skipFrames f v) : g.Ok := by
  obtain ⟨shapes, targets, names, h⟩ := hok
  simp only [skipFrames, List.mem_map, Option.mem_toList] at hg
  obtain ⟨s, hs, rfl⟩ := hg
  exact ⟨_, _, _, h.step ((h.represents.step_skip hv).trans hs)⟩

theorem variantFrames_ok {f g : Frame} (hok : f.Ok) {v : ParamChild TrieNode} {segment : JsString}
    (hv : v ∈ f.node.variants) (hg : g ∈ variantFrames host f segment v) : g.Ok := by
  rw [variantFrames, List.mem_append] at hg
  rcases hg with hg | hg
  · split at hg
    · rw [List.mem_singleton] at hg
      subst hg
      obtain ⟨shapes, targets, names, h⟩ := hok
      exact ⟨_, _, _, h.step (h.represents.step_consume hv)⟩
    · cases hg
  · exact skipFrames_ok hok hv hg

theorem childFrames_ok {f g : Frame} (hok : f.Ok) {segment : JsString}
    (hg : g ∈ childFrames f segment) : g.Ok := by
  obtain ⟨shapes, targets, names, h⟩ := hok
  simp only [childFrames, List.mem_map, Option.mem_toList] at hg
  obtain ⟨c, hc, rfl⟩ := hg
  exact ⟨_, _, _, h.step (e := .static (decodeSegment segment)) hc⟩

theorem ok_wildcard {f : Frame} (hok : f.Ok) {w : ParamChild TrieNode}
    (hw : f.node.wildcard = some w) (index : ℕ) (params : List (JsString × JsString)) :
    Frame.Ok { node := w.node, index, params } := by
  obtain ⟨shapes, targets, names, h⟩ := hok
  exact ⟨_, _, _, h.step (e := .wildcard) (by simp [TrieNode.step, hw])⟩

theorem wildcardFrames_ok {f g : Frame} (hok : f.Ok) {segments : List JsString}
    (hg : g ∈ wildcardFrames f segments) : g.Ok := by
  rw [wildcardFrames] at hg
  split at hg
  · cases hg
  · next w hw =>
      split at hg
      · rw [List.mem_singleton] at hg
        exact hg ▸ ok_wildcard hok hw _ _
      · cases hg

theorem blankFrames_ok {f g : Frame} (hok : f.Ok) (hg : g ∈ blankFrames path f) : g.Ok := by
  rw [blankFrames] at hg
  split at hg
  · cases hg
  · next w hw =>
      split at hg
      · rw [List.mem_singleton] at hg
        exact hg ▸ ok_wildcard hok hw _ _
      · cases hg

def sizes (fs : List Frame) : ℕ := (fs.map fun f => f.node.size).sum

theorem sizes_append (fs gs : List Frame) : sizes (fs ++ gs) = sizes fs + sizes gs := by
  rw [sizes, List.map_append, List.sum_append]
  rfl

theorem sizes_flatMap {α : Type} (l : List α) (g : α → List Frame) (bound : α → ℕ)
    (h : ∀ a, sizes (g a) ≤ bound a) : sizes (l.flatMap g) ≤ (l.map bound).sum := by
  induction l with
  | nil => exact Nat.le_refl _
  | cons a l ih =>
      rw [List.flatMap_cons, sizes_append, List.map_cons, List.sum_cons]
      have ha := h a
      omega

theorem sizes_skipFrames (f : Frame) (v : ParamChild TrieNode) :
    sizes (skipFrames f v) = (v.skipNode.toList.map TrieNode.size).sum := by
  cases hs : v.skipNode <;> simp [skipFrames, sizes, hs]

theorem sizes_skipFrames_le (f : Frame) (v : ParamChild TrieNode) :
    sizes (skipFrames f v) ≤ variantSize v := by
  rw [sizes_skipFrames, variantSize_eq]
  omega

variable (host) in
theorem sizes_variantFrames_le (f : Frame) (segment : JsString) (v : ParamChild TrieNode) :
    sizes (variantFrames host f segment v) ≤ variantSize v := by
  rw [variantFrames, sizes_append, sizes_skipFrames, variantSize_eq]
  split
  · simp [sizes]
  · simp [sizes]

theorem sizes_childFrames_le (f : Frame) (segment : JsString) :
    sizes (childFrames f segment) ≤ (f.node.children.map fun p => p.2.size).sum := by
  cases hc : OrderedMap.get? f.node.children (decodeSegment segment) with
  | none => simp [childFrames, sizes, hc]
  | some c =>
      have hmem := OrderedMap.mem_of_get? hc
      have hle := List.single_le_sum (fun _ _ => Nat.zero_le _) c.size
        (List.mem_map_of_mem (f := fun p : JsString × TrieNode => p.2.size) hmem)
      simpa [childFrames, sizes, hc] using hle

theorem size_wildcard_le (w : ParamChild TrieNode) : w.node.size ≤ variantSize w := by
  rw [variantSize_eq]
  omega

theorem sizes_wildcardFrames_le (f : Frame) (segments : List JsString) :
    sizes (wildcardFrames f segments) ≤ (f.node.wildcard.toList.map variantSize).sum := by
  cases hw : f.node.wildcard with
  | none => simp [wildcardFrames, sizes, hw]
  | some w =>
      have hle := size_wildcard_le w
      simp only [wildcardFrames, hw, Option.toList_some, List.map_cons, List.map_nil,
        List.sum_cons, List.sum_nil]
      split
      · simpa [sizes] using hle
      · simp [sizes]

variable (path) in
theorem sizes_blankFrames_le (f : Frame) :
    sizes (blankFrames path f) ≤ (f.node.wildcard.toList.map variantSize).sum := by
  cases hw : f.node.wildcard with
  | none => simp [blankFrames, sizes, hw]
  | some w =>
      have hle := size_wildcard_le w
      simp only [blankFrames, hw, Option.toList_some, List.map_cons, List.map_nil,
        List.sum_cons, List.sum_nil]
      split
      · simpa [sizes] using hle
      · simp [sizes]

variable (host path)

theorem answers_inside {shapes : List (List Edge)} {targets : List Edge → Option TargetRef}
    {names : List JsString} (f : Frame) (h : Holds f.node shapes targets names)
    {segment : JsString} (hsegment : (splitSegments path)[f.index]? = some segment) :
    f.answers host path =
      (pushInside host (splitSegments path) f segment).flatMap (Frame.answers host path) := by
  obtain ⟨wf, -, -, -, -, -⟩ := h.represents
  rw [pushInside_eq host _ _ _ wf.head, Frame.answers, terminals_eq]
  simp only [List.filterMap_append, List.flatMap_append]
  have htarget :
      (f.node.target.toList.map fun t => (⟨[], t, f.node.matchNames⟩ : Terminal)).filterMap
      (Terminal.read host path ((decodedSegments path).drop f.index) f.params) = [] := by
    rw [drop_decodedSegments hsegment]
    cases f.node.target <;> rfl
  have hchildren := reads_children host path f.node.children wf.nodup
    (decodeSegment segment) ((decodedSegments path).drop (f.index + 1)) f.params
  rw [← drop_decodedSegments hsegment] at hchildren
  rw [htarget, List.nil_append, hchildren, reads_wildcard f h hsegment, List.filterMap_flatMap,
    List.flatMap_assoc]
  congr 1
  · rw [childFrames]
    cases OrderedMap.get? f.node.children (decodeSegment segment) <;> rfl
  · congr 1
    exact List.flatMap_congr fun v _ => reads_variant f v hsegment

theorem answers_end {shapes : List (List Edge)} {targets : List Edge → Option TargetRef}
    {names : List JsString} (f : Frame) (h : Holds f.node shapes targets names)
    (hend : (splitSegments path)[f.index]? = none) (htarget : f.node.target = none) :
    f.answers host path = (pushAtEnd path f).flatMap (Frame.answers host path) := by
  obtain ⟨wf, -, -, -, -, -⟩ := h.represents
  rw [pushAtEnd_eq _ _ wf.head, Frame.answers, terminals_eq, htarget]
  simp only [List.filterMap_append, List.flatMap_append]
  have hchildren : (f.node.children.flatMap fun p =>
      p.2.terminals.map (Terminal.below (.static p.1))).filterMap
      (Terminal.read host path ((decodedSegments path).drop f.index) f.params) = [] := by
    rw [drop_decodedSegments_none hend, List.filterMap_eq_nil_iff]
    intro t ht
    obtain ⟨p, -, ht⟩ := List.mem_flatMap.mp ht
    obtain ⟨t, -, rfl⟩ := List.mem_map.mp ht
    exact read_nil f.params t (.inl ⟨_, rfl⟩)
  rw [hchildren, reads_blank f h hend, List.filterMap_flatMap, List.flatMap_assoc]
  simp only [Option.toList_none, List.map_nil, List.filterMap_nil, List.nil_append]
  congr 1
  exact List.flatMap_congr fun v _ => reads_variant_end f v hend

/-- The search loop on the frames of a trie. -/
theorem expandFrame_denotes : Backtrack.Denotes (expandFrame host path (splitSegments path))
    Frame.Ok (Frame.answers host path) (fun f => f.node.size) where
  pos f := size_pos f.node
  answer f r hok hexp := by
    rw [expandFrame] at hexp
    cases hseg : (splitSegments path)[f.index]? with
    | some segment => simp [hseg] at hexp
    | none =>
        cases ht : f.node.target with
        | none => simp [hseg, ht] at hexp
        | some t =>
            simp only [hseg, ht, Sum.inl.injEq] at hexp
            rw [Frame.answers, terminals_eq, drop_decodedSegments_none hseg, ht]
            simp only [Option.toList_some, List.map_cons, List.map_nil, List.cons_append,
              List.nil_append]
            rw [List.filterMap_cons_some (read_end f.params rfl), List.head?_cons, hexp]
  push f fs hok hexp := by
    obtain ⟨shapes, targets, names, h⟩ := hok
    have hok : f.Ok := ⟨_, _, _, h⟩
    obtain ⟨wf, -, -, -, -, -⟩ := h.represents
    change _ ∧ _ ∧ sizes fs < _
    rw [expandFrame] at hexp
    cases hseg : (splitSegments path)[f.index]? with
    | some segment =>
        simp only [hseg, Sum.inr.injEq] at hexp
        refine ⟨?_, hexp ▸ answers_inside host path f h hseg, ?_⟩
        · intro g hg
          rw [← hexp, pushInside_eq host _ _ _ wf.head] at hg
          rcases List.mem_append.mp hg with hg | hg
          · exact childFrames_ok hok hg
          rcases List.mem_append.mp hg with hg | hg
          · obtain ⟨v, hv, hg⟩ := List.mem_flatMap.mp hg
            exact variantFrames_ok hok hv hg
          · exact wildcardFrames_ok hok hg
        · rw [← hexp, pushInside_eq host _ _ _ wf.head, sizes_append, sizes_append, size_eq]
          have hchild := sizes_childFrames_le f segment
          have hvariants := sizes_flatMap f.node.variants _ variantSize
            (sizes_variantFrames_le host f segment)
          have hwild := sizes_wildcardFrames_le f (splitSegments path)
          omega
    | none =>
        cases ht : f.node.target with
        | some t => simp [hseg, ht] at hexp
        | none =>
            simp only [hseg, ht, Sum.inr.injEq] at hexp
            refine ⟨?_, hexp ▸ answers_end host path f h hseg ht, ?_⟩
            · intro g hg
              rw [← hexp, pushAtEnd_eq _ _ wf.head] at hg
              rcases List.mem_append.mp hg with hg | hg
              · obtain ⟨v, hv, hg⟩ := List.mem_flatMap.mp hg
                exact skipFrames_ok hok hv hg
              · exact blankFrames_ok hok hg
            · rw [← hexp, pushAtEnd_eq _ _ wf.head, sizes_append, size_eq]
              have hvariants := sizes_flatMap f.node.variants _ variantSize (sizes_skipFrames_le f)
              have hblank := sizes_blankFrames_le path f
              omega

/-- The matcher answers with the first terminal that captures the path. -/
theorem matchPattern_eq {root : TrieNode} {shapes : List (List Edge)}
    {targets : List Edge → Option TargetRef} {names : List JsString}
    (h : Holds root shapes targets names) :
    matchPattern host root path =
      (root.terminals.filterMap (Terminal.read host path (decodedSegments path) [])).head? := by
  have hok : ∀ f ∈ [({ node := root, index := 0, params := [] } : Frame)], f.Ok := by
    intro f hf
    rw [List.mem_singleton] at hf
    subst hf
    exact ⟨_, _, _, h⟩
  rw [matchPattern, Backtrack.run_eq_head? (expandFrame_denotes host path) _ _ hok (by simp)]
  simp [Frame.answers]

end Search

end Keala.Router
