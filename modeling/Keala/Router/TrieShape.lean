import Keala.Router.Grammar

/-!
What a trie built by `insertPattern` looks like. A node represents the shapes
that pass through it, in registration order: its children, param variants and
wildcard are the first edges of these shapes, its variants in the order in
which the shapes introduce them.
-/

namespace Keala.Router

open Keala.Js

namespace TrieNode

@[simp] theorem variants_setChild (n : TrieNode) (v : JsString) (c : TrieNode) :
    (n.setChild v c).variants = n.variants := rfl
@[simp] theorem wildcard_setChild (n : TrieNode) (v : JsString) (c : TrieNode) :
    (n.setChild v c).wildcard = n.wildcard := rfl
@[simp] theorem target_setChild (n : TrieNode) (v : JsString) (c : TrieNode) :
    (n.setChild v c).target = n.target := rfl
@[simp] theorem matchNames_setChild (n : TrieNode) (v : JsString) (c : TrieNode) :
    (n.setChild v c).matchNames = n.matchNames := rfl
@[simp] theorem children_setChild (n : TrieNode) (v : JsString) (c : TrieNode) :
    (n.setChild v c).children = OrderedMap.set n.children v c := rfl
@[simp] theorem children_setWildcard (n : TrieNode) (w : ParamChild TrieNode) :
    (n.setWildcard w).children = n.children := rfl
@[simp] theorem variants_setWildcard (n : TrieNode) (w : ParamChild TrieNode) :
    (n.setWildcard w).variants = n.variants := rfl
@[simp] theorem wildcard_setWildcard (n : TrieNode) (w : ParamChild TrieNode) :
    (n.setWildcard w).wildcard = some w := rfl
@[simp] theorem target_setWildcard (n : TrieNode) (w : ParamChild TrieNode) :
    (n.setWildcard w).target = n.target := rfl
@[simp] theorem matchNames_setWildcard (n : TrieNode) (w : ParamChild TrieNode) :
    (n.setWildcard w).matchNames = n.matchNames := rfl
@[simp] theorem children_setVariants (n : TrieNode) (vs : List (ParamChild TrieNode)) :
    (n.setVariants vs).children = n.children := rfl
@[simp] theorem wildcard_setVariants (n : TrieNode) (vs : List (ParamChild TrieNode)) :
    (n.setVariants vs).wildcard = n.wildcard := rfl
@[simp] theorem target_setVariants (n : TrieNode) (vs : List (ParamChild TrieNode)) :
    (n.setVariants vs).target = n.target := rfl
@[simp] theorem matchNames_setVariants (n : TrieNode) (vs : List (ParamChild TrieNode)) :
    (n.setVariants vs).matchNames = n.matchNames := rfl

@[simp] theorem variants_setVariants (n : TrieNode) (vs : List (ParamChild TrieNode)) :
    (n.setVariants vs).variants = vs := by
  cases vs <;> rfl

end TrieNode

/-! ### Edges and the nodes below them -/

theorem variantFor_setVariants (n : TrieNode) (vs : List (ParamChild TrieNode))
    (p : Option RegExp) : variantFor (n.setVariants vs) p = vs.find? fun v => v.pattern == p := by
  rw [variantFor, TrieNode.variants_setVariants]

theorem variantFor_pattern {n : TrieNode} {p : Option RegExp} {v : ParamChild TrieNode}
    (h : variantFor n p = some v) : v.pattern = p := by
  have hp := List.find?_some h
  simpa using hp

theorem variantFor_mem {n : TrieNode} {p : Option RegExp} {v : ParamChild TrieNode}
    (h : variantFor n p = some v) : v ∈ n.variants := List.mem_of_find?_eq_some h

theorem variants_setVariant (n : TrieNode) (v : ParamChild TrieNode) :
    (setVariant n v).variants = n.variants.map fun w => if w.pattern = v.pattern then v else w := by
  rw [setVariant, TrieNode.variants_setVariants]

theorem map_pattern_setVariant (n : TrieNode) (v : ParamChild TrieNode) :
    (setVariant n v).variants.map ParamChild.pattern = n.variants.map ParamChild.pattern := by
  rw [variants_setVariant, List.map_map]
  refine List.map_congr_left fun w _ => ?_
  by_cases h : w.pattern = v.pattern
  · simp [h]
  · simp [h]

theorem variantFor_setVariant (n : TrieNode) (v : ParamChild TrieNode) (p : Option RegExp) :
    variantFor (setVariant n v) p =
      (variantFor n p).map fun w => if w.pattern = v.pattern then v else w := by
  have hcomp : ((fun w : ParamChild TrieNode => w.pattern == p) ∘
      fun w => if w.pattern = v.pattern then v else w) = fun w => w.pattern == p := by
    funext w
    by_cases h : w.pattern = v.pattern
    · simp [h]
    · simp [h]
  rw [variantFor, variantFor, variants_setVariant, List.find?_map, hcomp]

theorem variantFor_setVariant_self {n : TrieNode} {v w : ParamChild TrieNode}
    (h : variantFor n v.pattern = some w) : variantFor (setVariant n v) v.pattern = some v := by
  rw [variantFor_setVariant, h, Option.map_some, if_pos (variantFor_pattern h)]

theorem variantFor_setVariant_ne (n : TrieNode) {v : ParamChild TrieNode} {p : Option RegExp}
    (h : p ≠ v.pattern) : variantFor (setVariant n v) p = variantFor n p := by
  rw [variantFor_setVariant]
  cases hv : variantFor n p with
  | none => rfl
  | some w =>
      have hw : w.pattern ≠ v.pattern := variantFor_pattern hv ▸ h
      rw [Option.map_some, if_neg hw]

/-- Where a node stands in its trie apart from what is below it. -/
structure WellFormed (n : TrieNode) : Prop where
  nodup : (OrderedMap.keys n.children).Nodup
  head : n.param = none → n.paramMore = []
  one_name : ∀ v ∈ n.variants, ∀ w ∈ n.variants, v.name = w.name
  wildcard_name : ∀ w, n.wildcard = some w → w.name = wildcardName

/-- The variants stand in the order in which `shapes` introduces them. -/
def VariantsOrdered (shapes : List (List Edge)) (n : TrieNode) : Prop :=
  (n.variants.map ParamChild.pattern).Pairwise fun p q =>
    (headPatterns shapes).idxOf p < (headPatterns shapes).idxOf q

def Edge.names : Edge → List JsString
  | consume name _ => [name]
  | wildcard => [wildcardName]
  | _ => []

/-- `n` represents `shapes`; `targets` gives the target of each shape and
`names` the chain of param names on the way to `n`. -/
inductive Represents : TrieNode → List (List Edge) → (List Edge → Option TargetRef) →
    List JsString → Prop
  | mk {n : TrieNode} {shapes : List (List Edge)} {targets : List Edge → Option TargetRef}
      {names : List JsString} (wf : WellFormed n)
      (edges : ∀ e, n.step e ≠ none ↔ after shapes e ≠ [])
      (ordered : VariantsOrdered shapes n)
      (target : n.target = targets [])
      (matchNames : n.matchNames = if [] ∈ shapes then some names else none)
      (below : ∀ e m, n.step e = some m →
        Represents m (after shapes e) (fun σ => targets (e :: σ)) (names ++ e.names)) :
      Represents n shapes targets names

def TargetsWithin (targets : List Edge → Option TargetRef) (shapes : List (List Edge)) : Prop :=
  ∀ σ, targets σ ≠ none → σ ∈ shapes

theorem TargetsWithin.after {targets : List Edge → Option TargetRef}
    {shapes : List (List Edge)} (h : TargetsWithin targets shapes) (e : Edge) :
    TargetsWithin (fun σ => targets (e :: σ)) (after shapes e) :=
  fun σ hσ => mem_after.mpr (h (e :: σ) hσ)

theorem TargetsWithin.none_of_nil {targets : List Edge → Option TargetRef}
    (h : TargetsWithin targets []) (σ : List Edge) : targets σ = none := by
  by_contra hne
  exact absurd (h σ hne) (by simp)

theorem step_createNode (e : Edge) : createNode.step e = none := by
  cases e <;> rfl

theorem represents_createNode {targets : List Edge → Option TargetRef} {names : List JsString}
    (h : TargetsWithin targets []) : Represents createNode [] targets names := by
  refine .mk ⟨List.nodup_nil, fun _ => rfl, ?_, ?_⟩ ?_ ?_ ?_ ?_ ?_
  · simp [createNode, TrieNode.variants, TrieNode.param, TrieNode.paramMore]
  · simp [createNode, TrieNode.wildcard]
  · simp [step_createNode]
  · exact List.Pairwise.nil
  · exact (h.none_of_nil []).symm
  · rfl
  · simp [step_createNode]

/-! ### Variants -/

theorem variantFor_isSome_iff {n : TrieNode} {p : Option RegExp} :
    variantFor n p ≠ none ↔ p ∈ n.variants.map ParamChild.pattern := by
  rw [variantFor, Ne, List.find?_eq_none, List.mem_map]
  constructor
  · intro h
    by_contra hne
    refine h fun v hv hp => hne ⟨v, hv, ?_⟩
    simpa using hp
  · rintro ⟨v, hv, rfl⟩ h
    exact h v hv (by simp)

/-- Every step of the trie after one of its variants was replaced. -/
theorem step_setVariant {n : TrieNode} {v w : ParamChild TrieNode}
    (h : variantFor n w.pattern = some v) (hname : w.name = v.name) (f : Edge) :
    (setVariant n w).step f =
      if f = .consume w.name w.pattern then some w.node
      else if f = .skip w.name w.pattern then w.skipNode
      else n.step f := by
  cases f with
  | static value => rfl
  | wildcard => rfl
  | consume name p =>
      by_cases hp : p = w.pattern
      · subst hp
        simp only [TrieNode.step, variantFor_setVariant_self h, h, Option.bind_some, ← hname]
        by_cases hm : w.name = name
        · simp [hm]
        · simp [hm, Ne.symm hm]
      · simp [TrieNode.step, variantFor_setVariant_ne n hp, hp]
  | skip name p =>
      by_cases hp : p = w.pattern
      · subst hp
        simp only [TrieNode.step, variantFor_setVariant_self h, h, Option.bind_some, ← hname]
        by_cases hm : w.name = name
        · simp [hm]
        · simp [hm, Ne.symm hm]
      · simp [TrieNode.step, variantFor_setVariant_ne n hp, hp]

theorem variantFor_append (n : TrieNode) (w : ParamChild TrieNode) (p : Option RegExp) :
    variantFor (n.setVariants (n.variants ++ [w])) p =
      (variantFor n p).or (if w.pattern = p then some w else none) := by
  rw [variantFor_setVariants, List.find?_append, variantFor]
  congr 1
  by_cases h : w.pattern = p
  · simp [h]
  · simp [h]

/-- Every step of the trie after a variant for a new pattern came last. -/
theorem step_append_variant {n : TrieNode} {w : ParamChild TrieNode}
    (h : variantFor n w.pattern = none) (f : Edge) :
    (n.setVariants (n.variants ++ [w])).step f =
      if f = .consume w.name w.pattern then some w.node
      else if f = .skip w.name w.pattern then w.skipNode
      else n.step f := by
  cases f with
  | static value => rfl
  | wildcard => rfl
  | consume name p =>
      by_cases hp : w.pattern = p
      · subst hp
        simp only [TrieNode.step, variantFor_append, h]
        by_cases hm : w.name = name
        · simp [hm]
        · simp [hm, Ne.symm hm]
      · simp [TrieNode.step, variantFor_append, hp, Ne.symm hp]
  | skip name p =>
      by_cases hp : w.pattern = p
      · subst hp
        simp only [TrieNode.step, variantFor_append, h]
        by_cases hm : w.name = name
        · simp [hm]
        · simp [hm, Ne.symm hm]
      · simp [TrieNode.step, variantFor_append, hp, Ne.symm hp]

theorem WellFormed.setVariant {n : TrieNode} (h : WellFormed n) {v w : ParamChild TrieNode}
    (hv : variantFor n w.pattern = some v) (hname : w.name = v.name) :
    WellFormed (setVariant n w) := by
  have hnames : ∀ u ∈ (Router.setVariant n w).variants, u.name = v.name := by
    intro u hu
    rw [variants_setVariant, List.mem_map] at hu
    obtain ⟨u', hu', rfl⟩ := hu
    split
    · exact hname
    · exact h.one_name u' hu' v (variantFor_mem hv)
  refine ⟨h.nodup, ?_, ?_, h.wildcard_name⟩
  · intro hparam
    have hnil : (Router.setVariant n w).variants = [] := by
      cases hvs : (Router.setVariant n w).variants with
      | nil => rfl
      | cons u us =>
          rw [variants_setVariant] at hvs
          rw [Router.setVariant, hvs] at hparam
          exact absurd hparam (by simp [TrieNode.setVariants, TrieNode.param])
    rw [variants_setVariant] at hnil
    rw [Router.setVariant, hnil]
    rfl
  · intro u hu u' hu'
    rw [hnames u hu, hnames u' hu']

theorem WellFormed.append_variant {n : TrieNode} (h : WellFormed n) {w : ParamChild TrieNode}
    (hname : ∀ v ∈ n.variants, v.name = w.name) :
    WellFormed (n.setVariants (n.variants ++ [w])) := by
  have hnames : ∀ u ∈ (n.setVariants (n.variants ++ [w])).variants, u.name = w.name := by
    intro u hu
    rw [TrieNode.variants_setVariants, List.mem_append, List.mem_singleton] at hu
    rcases hu with hu | rfl
    · exact hname u hu
    · rfl
  refine ⟨h.nodup, ?_, ?_, h.wildcard_name⟩
  · intro hparam
    cases hvs : n.variants ++ [w] with
    | nil => simp at hvs
    | cons u us =>
        rw [hvs] at hparam
        exact absurd hparam (by simp [TrieNode.setVariants, TrieNode.param])
  · intro u hu u' hu'
    rw [hnames u hu, hnames u' hu']

/-- The patterns of a node's variants are the ones its shapes start with. -/
theorem Represents.mem_headPatterns_iff {n : TrieNode} {shapes : List (List Edge)}
    {targets : List Edge → Option TargetRef} {names : List JsString}
    (h : Represents n shapes targets names) (p : Option RegExp) :
    p ∈ headPatterns shapes ↔ p ∈ n.variants.map ParamChild.pattern := by
  obtain ⟨wf, edges, -, -, -, -⟩ := h
  rw [mem_headPatterns, ← variantFor_isSome_iff]
  constructor
  · rintro ⟨name, hne | hne⟩ hnone
    · exact (edges _).mpr hne (by simp [TrieNode.step, hnone])
    · exact (edges _).mpr hne (by simp [TrieNode.step, hnone])
  · intro hsome
    obtain ⟨v, hv⟩ := Option.ne_none_iff_exists'.mp hsome
    exact ⟨v.name, .inl ((edges _).mp (by simp [TrieNode.step, hv]))⟩

/-- Further shapes keep the variants ordered, and a variant for a pattern no
shape had comes last. -/
theorem VariantsOrdered.append {shapes more : List (List Edge)} {n n' : TrieNode}
    (h : VariantsOrdered shapes n)
    (hmem : ∀ p ∈ n.variants.map ParamChild.pattern, p ∈ headPatterns shapes)
    (hn : n'.variants.map ParamChild.pattern = n.variants.map ParamChild.pattern ∨
      ∃ p, p ∉ headPatterns shapes ∧
        n'.variants.map ParamChild.pattern = n.variants.map ParamChild.pattern ++ [p]) :
    VariantsOrdered (shapes ++ more) n' := by
  have hold : (n.variants.map ParamChild.pattern).Pairwise fun p q =>
      (headPatterns (shapes ++ more)).idxOf p < (headPatterns (shapes ++ more)).idxOf q := by
    refine List.Pairwise.imp_of_mem ?_ h
    intro p q hp hq hlt
    rw [headPatterns_append, List.idxOf_append_of_mem (hmem p hp),
      List.idxOf_append_of_mem (hmem q hq)]
    exact hlt
  rcases hn with hn | ⟨p, hp, hn⟩
  · rw [VariantsOrdered, hn]
    exact hold
  · rw [VariantsOrdered, hn, List.pairwise_append]
    refine ⟨hold, List.pairwise_singleton _ _, ?_⟩
    intro q hq p' hp'
    rw [List.mem_singleton] at hp'
    subst hp'
    rw [headPatterns_append, List.idxOf_append_of_mem (hmem q hq),
      List.idxOf_append_of_notMem hp]
    have hlt := List.idxOf_lt_length_of_mem (hmem q hq)
    omega

/-! ### Growing below one edge -/

theorem nil_mem_append_map_cons (shapes rest : List (List Edge)) (e : Edge) :
    [] ∈ shapes ++ rest.map (e :: ·) ↔ [] ∈ shapes := by
  simp

/-- Adding shapes that start with `e` changes the trie below `e` only. -/
theorem Represents.extend {n n' : TrieNode} {shapes rest : List (List Edge)}
    {targets : List Edge → Option TargetRef} {names : List JsString} {e : Edge}
    (h : Represents n shapes targets names) (m' : TrieNode) (wf : WellFormed n')
    (hordered : VariantsOrdered (shapes ++ rest.map (e :: ·)) n')
    (htarget : n'.target = n.target) (hnames : n'.matchNames = n.matchNames)
    (hother : ∀ f, f ≠ e → n'.step f = n.step f) (hstep : n'.step e = some m')
    (hrest : rest ≠ [])
    (hbelow : Represents m' (after shapes e ++ rest) (fun σ => targets (e :: σ))
      (names ++ e.names)) :
    Represents n' (shapes ++ rest.map (e :: ·)) targets names := by
  obtain ⟨-, edges, -, target, matchNames, below⟩ := h
  have hself : after (shapes ++ rest.map (e :: ·)) e = after shapes e ++ rest := by
    rw [after_append, after_map_cons, if_pos rfl]
  have hafter : ∀ f, f ≠ e → after (shapes ++ rest.map (e :: ·)) f = after shapes f := by
    intro f hf
    rw [after_append, after_map_cons, if_neg hf.symm, List.append_nil]
  refine .mk wf ?_ hordered (htarget.trans target) ?_ ?_
  · intro f
    by_cases hf : f = e
    · subst hf
      simp [hstep, hself, hrest]
    · rw [hother f hf, hafter f hf]
      exact edges f
  · rw [hnames, matchNames]
    simp only [nil_mem_append_map_cons]
  · intro f m hm
    by_cases hf : f = e
    · subst hf
      rw [hstep, Option.some.injEq] at hm
      rw [hself, ← hm]
      exact hbelow
    · rw [hother f hf] at hm
      rw [hafter f hf]
      exact below f m hm

theorem Represents.below_or_new {n : TrieNode} {shapes : List (List Edge)}
    {targets : List Edge → Option TargetRef} {names : List JsString}
    (h : Represents n shapes targets names) (ht : TargetsWithin targets shapes) (e : Edge) :
    Represents ((n.step e).getD createNode) (after shapes e) (fun σ => targets (e :: σ))
      (names ++ e.names) := by
  obtain ⟨-, edges, -, -, -, below⟩ := h
  cases hm : n.step e with
  | some m => exact below e m hm
  | none =>
      have hnil : after shapes e = [] := by
        by_contra hne
        exact (edges e).mpr hne hm
      have hwithin := ht.after e
      rw [hnil] at hwithin ⊢
      exact represents_createNode hwithin

theorem Represents.extend_static {n c : TrieNode} {shapes rest : List (List Edge)}
    {targets : List Edge → Option TargetRef} {names : List JsString} {value : JsString}
    (h : Represents n shapes targets names) (hrest : rest ≠ [])
    (hc : Represents c (after shapes (.static value) ++ rest)
      (fun σ => targets (.static value :: σ)) names) :
    Represents (n.setChild value c) (shapes ++ rest.map (.static value :: ·)) targets names := by
  have hmem := fun p => (h.mem_headPatterns_iff p).mpr
  have wf : WellFormed (n.setChild value c) := by
    obtain ⟨wf, -, -, -, -, -⟩ := h
    exact ⟨OrderedMap.nodup_set wf.nodup value c, wf.head, wf.one_name, wf.wildcard_name⟩
  refine h.extend c wf ?_ rfl rfl ?_ ?_ hrest (by simpa [Edge.names] using hc)
  · obtain ⟨-, -, ordered, -, -, -⟩ := h
    exact ordered.append hmem (.inl rfl)
  · intro f hf
    cases f with
    | static v =>
        have hv : value ≠ v := fun hv => hf (hv ▸ rfl)
        exact OrderedMap.get?_set_ne _ _ hv
    | consume name p => rfl
    | skip name p => rfl
    | wildcard => rfl
  · exact OrderedMap.get?_set_self _ _ _

theorem Represents.extend_wildcard {n : TrieNode} {w : ParamChild TrieNode}
    {shapes rest : List (List Edge)} {targets : List Edge → Option TargetRef}
    {names : List JsString} (h : Represents n shapes targets names) (hrest : rest ≠ [])
    (hname : w.name = wildcardName)
    (hw : Represents w.node (after shapes .wildcard ++ rest) (fun σ => targets (.wildcard :: σ))
      (names ++ [wildcardName])) :
    Represents (n.setWildcard w) (shapes ++ rest.map (.wildcard :: ·)) targets names := by
  have hmem := fun p => (h.mem_headPatterns_iff p).mpr
  have wf : WellFormed (n.setWildcard w) := by
    obtain ⟨wf, -, -, -, -, -⟩ := h
    refine ⟨wf.nodup, wf.head, wf.one_name, ?_⟩
    intro w' hw'
    rw [TrieNode.wildcard_setWildcard, Option.some.injEq] at hw'
    exact hw' ▸ hname
  refine h.extend w.node wf ?_ rfl rfl ?_ rfl hrest hw
  · obtain ⟨-, -, ordered, -, -, -⟩ := h
    exact ordered.append hmem (.inl rfl)
  · intro f hf
    cases f with
    | static v => rfl
    | consume name p => rfl
    | skip name p => rfl
    | wildcard => exact absurd rfl hf

/-- What `ensureVariant` does: the variant for `pattern` is there already, or
it comes last and nothing is below it. -/
theorem ensureVariant_cases {n n' : TrieNode} {name : JsString} {pattern : Option RegExp}
    (wf : WellFormed n) (h : ensureVariant n name pattern = .ok n') :
    (∃ v, n' = n ∧ variantFor n pattern = some v ∧ v.name = name) ∨
      (variantFor n pattern = none ∧ (∀ v ∈ n.variants, v.name = name) ∧
        n' = n.setVariants (n.variants ++ [⟨name, pattern, createNode, none⟩])) := by
  rw [ensureVariant] at h
  cases hparam : n.param with
  | none =>
      have hnil : n.variants = [] := by
        rw [TrieNode.variants, hparam, wf.head hparam]
        rfl
      simp only [hparam, Except.ok.injEq] at h
      refine .inr ⟨?_, ?_, ?_⟩
      · rw [variantFor, hnil]
        rfl
      · simp [hnil]
      · rw [hnil, List.nil_append, h]
  | some head =>
      have hhead : head ∈ n.variants := by
        rw [TrieNode.variants, hparam]
        exact List.mem_cons_self
      simp only [hparam] at h
      by_cases hname : head.name = name
      · simp only [hname, ne_eq, not_true_eq_false, if_false] at h
        cases hv : variantFor n pattern with
        | none =>
            simp only [hv, Except.ok.injEq] at h
            refine .inr ⟨rfl, ?_, h.symm⟩
            intro v hmem
            exact (wf.one_name v hmem head hhead).trans hname
        | some v =>
            simp only [hv, Except.ok.injEq] at h
            refine .inl ⟨v, h.symm, rfl, ?_⟩
            exact (wf.one_name v (variantFor_mem hv) head hhead).trans hname
      · simp [hname] at h

/-- The variant that an accepted param segment goes on with. -/
theorem ensureVariant_variantFor {n n' : TrieNode} {name : JsString} {pattern : Option RegExp}
    (wf : WellFormed n) (h : ensureVariant n name pattern = .ok n') :
    ∃ v, variantFor n' pattern = some v ∧ v.name = name ∧ v.pattern = pattern ∧
      v.node = (n.step (.consume name pattern)).getD createNode ∧
      v.skipNode = n.step (.skip name pattern) := by
  rcases ensureVariant_cases wf h with ⟨v, rfl, hv, hname⟩ | ⟨hnone, -, rfl⟩
  · refine ⟨v, hv, hname, variantFor_pattern hv, ?_, ?_⟩
    · simp [TrieNode.step, hv, hname]
    · simp [TrieNode.step, hv, hname]
  · refine ⟨⟨name, pattern, createNode, none⟩, ?_, rfl, rfl, ?_, ?_⟩
    · simp [variantFor_append, hnone]
    · simp [TrieNode.step, hnone]
    · simp [TrieNode.step, hnone]

/-- Nothing but the consume edge differs from the trie before. -/
theorem step_ensureVariant {n n' : TrieNode} {name : JsString} {pattern : Option RegExp}
    (wf : WellFormed n) (h : ensureVariant n name pattern = .ok n') {f : Edge}
    (hf : f ≠ .consume name pattern) : n'.step f = n.step f := by
  rcases ensureVariant_cases wf h with ⟨-, rfl, -, -⟩ | ⟨hnone, -, rfl⟩
  · rfl
  · rw [step_append_variant (w := ⟨name, pattern, createNode, none⟩) hnone, if_neg hf]
    split
    · next hfs => simp [hfs, TrieNode.step, hnone]
    · rfl

theorem WellFormed.ensureVariant {n n' : TrieNode} {name : JsString} {pattern : Option RegExp}
    (wf : WellFormed n) (h : ensureVariant n name pattern = .ok n') : WellFormed n' := by
  rcases ensureVariant_cases wf h with ⟨-, rfl, -, -⟩ | ⟨-, hname, rfl⟩
  · exact wf
  · exact wf.append_variant hname

theorem ensureVariant_fields {n n' : TrieNode} {name : JsString} {pattern : Option RegExp}
    (wf : WellFormed n) (h : ensureVariant n name pattern = .ok n') :
    n'.target = n.target ∧ n'.matchNames = n.matchNames := by
  rcases ensureVariant_cases wf h with ⟨-, rfl, -, -⟩ | ⟨-, -, rfl⟩
  · exact ⟨rfl, rfl⟩
  · exact ⟨rfl, rfl⟩

/-- The trie after the consume edge of a param was filled. -/
theorem Represents.extend_consume {n n' : TrieNode} {v : ParamChild TrieNode} {m : TrieNode}
    {shapes rest : List (List Edge)} {targets : List Edge → Option TargetRef}
    {names : List JsString} {name : JsString} {pattern : Option RegExp}
    (h : Represents n shapes targets names) (hensure : ensureVariant n name pattern = .ok n')
    (hv : variantFor n' pattern = some v) (hrest : rest ≠ [])
    (hm : Represents m (after shapes (.consume name pattern) ++ rest)
      (fun σ => targets (.consume name pattern :: σ)) (names ++ [name])) :
    Represents (setVariant n' { v with node := m })
      (shapes ++ rest.map (.consume name pattern :: ·)) targets names := by
  have hpatterns := h.mem_headPatterns_iff
  have hmem := fun p => (hpatterns p).mpr
  obtain ⟨wf, ordered⟩ : WellFormed n ∧ VariantsOrdered shapes n := by
    obtain ⟨wf, -, ordered, -, -, -⟩ := h
    exact ⟨wf, ordered⟩
  obtain ⟨v', hv', hname, hpattern, -, hskip⟩ := ensureVariant_variantFor wf hensure
  obtain rfl : v = v' := Option.some.inj (hv.symm.trans hv')
  subst hname hpattern
  obtain ⟨htarget, hnames⟩ := ensureVariant_fields wf hensure
  have hstep := step_setVariant (w := { v with node := m }) hv rfl
  refine h.extend m ((wf.ensureVariant hensure).setVariant hv rfl) ?_ htarget hnames
    ?_ ?_ hrest hm
  · refine ordered.append hmem ?_
    rw [map_pattern_setVariant]
    rcases ensureVariant_cases wf hensure with ⟨-, rfl, -, -⟩ | ⟨hnone, -, rfl⟩
    · exact .inl rfl
    · refine .inr ⟨v.pattern, ?_, ?_⟩
      · rw [hpatterns, ← variantFor_isSome_iff]
        exact fun hne => hne hnone
      · rw [TrieNode.variants_setVariants, List.map_append]
        rfl
  · intro f hf
    rw [hstep, if_neg hf]
    split
    · next hfs => rw [hfs, hskip]
    · exact step_ensureVariant wf hensure hf
  · rw [hstep, if_pos rfl]

/-- The trie after the skip edge of an optional param was filled. -/
theorem Represents.extend_skip {n : TrieNode} {v : ParamChild TrieNode} {m : TrieNode}
    {shapes rest : List (List Edge)} {targets : List Edge → Option TargetRef}
    {names : List JsString} {name : JsString} {pattern : Option RegExp}
    (h : Represents n shapes targets names) (hv : variantFor n pattern = some v)
    (hname : v.name = name) (hrest : rest ≠ [])
    (hm : Represents m (after shapes (.skip name pattern) ++ rest)
      (fun σ => targets (.skip name pattern :: σ)) names) :
    Represents (setVariant n { v with skipNode := some m })
      (shapes ++ rest.map (.skip name pattern :: ·)) targets names := by
  have hmem := fun p => (h.mem_headPatterns_iff p).mpr
  obtain ⟨wf, ordered⟩ : WellFormed n ∧ VariantsOrdered shapes n := by
    obtain ⟨wf, -, ordered, -, -, -⟩ := h
    exact ⟨wf, ordered⟩
  have hpattern := variantFor_pattern hv
  subst hname hpattern
  have hstep := step_setVariant (w := { v with skipNode := some m }) hv rfl
  refine h.extend m (wf.setVariant hv rfl) ?_ rfl rfl ?_ ?_ hrest
    (by simpa [Edge.names] using hm)
  · exact ordered.append hmem (.inl (map_pattern_setVariant _ _))
  · intro f hf
    rw [hstep, if_neg hf]
    split
    · next hfs => simp [hfs, TrieNode.step, hv]
    · rfl
  · rw [hstep, if_neg (by simp), if_pos rfl]

/-! ### Insertion -/

theorem Represents.extend_terminal {n : TrieNode} {shapes : List (List Edge)}
    {targets : List Edge → Option TargetRef} {names : List JsString}
    (h : Represents n shapes targets names) :
    Represents (if n.matchNames.isNone then n.setMatchNames names else n) (shapes ++ [[]])
      targets names := by
  have hmem := fun p => (h.mem_headPatterns_iff p).mpr
  obtain ⟨wf, edges, ordered, target, matchNames, below⟩ := h
  have hafter : ∀ e, after (shapes ++ [[]]) e = after shapes e := by
    intro e
    rw [after_append]
    exact List.append_nil _
  have hset : (if n.matchNames.isNone then n.setMatchNames names else n) =
      n.setMatchNames names := by
    cases hn : n.matchNames with
    | none => rfl
    | some given =>
        have hgiven : given = names := by
          rw [hn] at matchNames
          split at matchNames
          · exact Option.some.inj matchNames
          · cases matchNames
        cases n
        subst hgiven
        simp_all [TrieNode.setMatchNames, TrieNode.matchNames, TrieNode.children,
          TrieNode.param, TrieNode.paramMore, TrieNode.wildcard, TrieNode.target]
  have hstep : ∀ e, (n.setMatchNames names).step e = n.step e := by
    intro e
    cases e <;> rfl
  rw [hset]
  refine .mk ⟨wf.nodup, wf.head, wf.one_name, wf.wildcard_name⟩ ?_
    (ordered.append hmem (.inl rfl)) target
    (by simp [TrieNode.setMatchNames, TrieNode.matchNames]) ?_
  · intro e
    rw [hafter, hstep]
    exact edges e
  · intro e m hm
    rw [hstep] at hm
    rw [hafter]
    exact below e m hm

/-- An insertion that succeeds returns the shapes of the pattern and leaves a
trie that represents them after the ones it had. -/
theorem insertSegments_represents (segments : List CompiledSegment) :
    ∀ {n n' : TrieNode} {shapes addresses : List (List Edge)}
      {targets : List Edge → Option TargetRef} {names : List JsString},
      Represents n shapes targets names → TargetsWithin targets shapes →
      insertSegments segments names n = (n', .ok addresses) →
      addresses = shapesOf segments ∧
        Represents n' (shapes ++ shapesOf segments) targets names := by
  -- The node below an edge represents what the shapes leave behind the edge; the `extend` lemma
  -- of the edge puts the result back in its place.
  induction segments with
  | nil =>
      intro n n' shapes addresses targets names h _ hins
      rw [insertSegments, Prod.mk.injEq, Except.ok.injEq] at hins
      obtain ⟨rfl, rfl⟩ := hins
      exact ⟨rfl, h.extend_terminal⟩
  | cons segment rest ih =>
      intro n n' shapes addresses targets names h ht hins
      have hne := shapesOf_ne_nil rest
      cases segment with
      | wildcard =>
          have hw := h.below_or_new ht .wildcard
          rw [insertSegments] at hins
          generalize hwild : n.wildcard.getD ⟨wildcardName, none, createNode, none⟩ = w at hins
          have hnode : w.node = (n.step .wildcard).getD createNode := by
            rw [← hwild, TrieNode.step]
            cases n.wildcard <;> rfl
          have hname : w.name = wildcardName := by
            obtain ⟨wf, -, -, -, -, -⟩ := h
            rw [← hwild]
            cases hwc : n.wildcard with
            | none => rfl
            | some w' => exact wf.wildcard_name w' hwc
          cases hrec : insertSegments rest (names ++ [wildcardName]) w.node with
          | mk m terminals =>
              cases terminals with
              | error e => simp [hrec, Except.map] at hins
              | ok found =>
                  simp only [hrec, Except.map, Prod.mk.injEq, Except.ok.injEq] at hins
                  obtain ⟨rfl, rfl⟩ := hins
                  rw [hnode] at hrec
                  obtain ⟨rfl, hm⟩ := ih hw (ht.after _) hrec
                  exact ⟨rfl, h.extend_wildcard (w := { w with node := m }) hne hname hm⟩
      | static value =>
          have hc := h.below_or_new ht (.static value)
          simp only [Edge.names, List.append_nil, TrieNode.step] at hc
          rw [insertSegments] at hins
          cases hrec : insertSegments rest names
              ((OrderedMap.get? n.children value).getD createNode) with
          | mk m terminals =>
              cases terminals with
              | error e => simp [hrec, Except.map] at hins
              | ok found =>
                  simp only [hrec, Except.map, Prod.mk.injEq, Except.ok.injEq] at hins
                  obtain ⟨rfl, rfl⟩ := hins
                  obtain ⟨rfl, hm⟩ := ih hc (ht.after _) hrec
                  exact ⟨rfl, h.extend_static hne hm⟩
      | param name pattern optional =>
          have wf : WellFormed n := by
            obtain ⟨wf, -, -, -, -, -⟩ := h
            exact wf
          have hc := h.below_or_new ht (.consume name pattern)
          have hs := h.below_or_new ht (.skip name pattern)
          simp only [Edge.names, List.append_nil] at hs
          rw [insertSegments] at hins
          cases hensure : ensureVariant n name pattern with
          | error e => simp [hensure] at hins
          | ok n₁ =>
              obtain ⟨v, hv, hname, hpattern, hnode, hskip⟩ := ensureVariant_variantFor wf hensure
              simp only [hensure, hv] at hins
              cases hrec : insertSegments rest (names ++ [name]) v.node with
              | mk m terminals =>
                  cases terminals with
                  | error e => simp [hrec] at hins
                  | ok found =>
                      simp only [hrec] at hins
                      rw [hnode] at hrec
                      obtain ⟨rfl, hm⟩ := ih hc (ht.after _) hrec
                      have h₁ := h.extend_consume hensure hv hne hm
                      cases optional with
                      | false =>
                          simp only [if_true, Prod.mk.injEq, Except.ok.injEq] at hins
                          obtain ⟨rfl, rfl⟩ := hins
                          exact ⟨by simp [shapesOf], by simpa [shapesOf] using h₁⟩
                      | true =>
                          -- The skip is inserted behind the consume, at the same variant.
                          rw [hskip] at hins
                          cases hrec' : insertSegments rest names
                              ((n.step (.skip name pattern)).getD createNode) with
                          | mk m' terminals' =>
                              cases terminals' with
                              | error e => simp [hrec', Except.map] at hins
                              | ok skipped =>
                                  simp only [hrec', Except.map, Bool.true_eq_false, if_false,
                                    Prod.mk.injEq, Except.ok.injEq] at hins
                                  obtain ⟨rfl, rfl⟩ := hins
                                  obtain ⟨rfl, hm'⟩ := ih hs (ht.after _) hrec'
                                  refine ⟨by simp [shapesOf], ?_⟩
                                  subst hname hpattern
                                  have hv₁ := variantFor_setVariant_self
                                    (v := { v with node := m }) hv
                                  have hafter : after (shapes ++ (shapesOf rest).map
                                      (.consume v.name v.pattern :: ·))
                                      (.skip v.name v.pattern) =
                                      after shapes (.skip v.name v.pattern) := by
                                    simp [after_append, after_map_cons]
                                  rw [← hafter] at hm'
                                  have h₂ := h₁.extend_skip hv₁ rfl hne hm'
                                  simpa [shapesOf, hskip] using h₂

/-! ### Writing targets -/

theorem step_setStep {n m : TrieNode} {e : Edge} (h : n.step e = some m) (m' : TrieNode)
    (f : Edge) : (n.setStep e m').step f = if f = e then some m' else n.step f := by
  cases e with
  | static value =>
      cases f with
      | static v =>
          rw [TrieNode.setStep, TrieNode.step, TrieNode.children_setChild, OrderedMap.get?_set]
          by_cases hv : value = v
          · simp [hv]
          · simp [hv, Ne.symm hv, TrieNode.step]
      | consume name p => rfl
      | skip name p => rfl
      | wildcard => rfl
  | wildcard =>
      cases hw : n.wildcard with
      | none => simp [TrieNode.step, hw] at h
      | some w =>
          cases f with
          | static v => simp [TrieNode.setStep, hw, TrieNode.step]
          | consume name p =>
              simp only [TrieNode.setStep, hw]
              rfl
          | skip name p =>
              simp only [TrieNode.setStep, hw]
              rfl
          | wildcard => simp [TrieNode.setStep, hw, TrieNode.step]
  | consume name p =>
      cases hv : variantFor n p with
      | none => simp [TrieNode.step, hv] at h
      | some v =>
          by_cases hname : v.name = name
          · obtain rfl := variantFor_pattern hv
            subst hname
            simp only [TrieNode.setStep, hv]
            rw [step_setVariant (w := { v with node := m' }) hv rfl]
            refine if_congr Iff.rfl rfl ?_
            split
            · next hf => simp [hf, TrieNode.step, hv]
            · rfl
          · simp [TrieNode.step, hv, hname] at h
  | skip name p =>
      cases hv : variantFor n p with
      | none => simp [TrieNode.step, hv] at h
      | some v =>
          by_cases hname : v.name = name
          · obtain rfl := variantFor_pattern hv
            subst hname
            simp only [TrieNode.setStep, hv]
            rw [step_setVariant (w := { v with skipNode := some m' }) hv rfl]
            by_cases hf : f = .consume v.name v.pattern
            · simp [hf, TrieNode.step, hv]
            · rw [if_neg hf]
          · simp [TrieNode.step, hv, hname] at h

theorem WellFormed.setStep {n m : TrieNode} {e : Edge} (wf : WellFormed n)
    (h : n.step e = some m) (m' : TrieNode) : WellFormed (n.setStep e m') := by
  cases e with
  | static value =>
      exact ⟨OrderedMap.nodup_set wf.nodup value m', wf.head, wf.one_name, wf.wildcard_name⟩
  | wildcard =>
      cases hw : n.wildcard with
      | none => simp [TrieNode.step, hw] at h
      | some w =>
          simp only [TrieNode.setStep, hw]
          refine ⟨wf.nodup, wf.head, wf.one_name, ?_⟩
          intro w' hw'
          rw [TrieNode.wildcard_setWildcard, Option.some.injEq] at hw'
          exact hw' ▸ wf.wildcard_name w hw
  | consume name p =>
      cases hv : variantFor n p with
      | none => simp [TrieNode.step, hv] at h
      | some v =>
          obtain rfl := variantFor_pattern hv
          simp only [TrieNode.setStep, hv]
          exact wf.setVariant (w := { v with node := m' }) hv rfl
  | skip name p =>
      cases hv : variantFor n p with
      | none => simp [TrieNode.step, hv] at h
      | some v =>
          obtain rfl := variantFor_pattern hv
          simp only [TrieNode.setStep, hv]
          exact wf.setVariant (w := { v with skipNode := some m' }) hv rfl

theorem setStep_frame (n : TrieNode) (e : Edge) (m : TrieNode) :
    (n.setStep e m).variants.map ParamChild.pattern = n.variants.map ParamChild.pattern ∧
      (n.setStep e m).target = n.target ∧ (n.setStep e m).matchNames = n.matchNames := by
  cases e with
  | static value => exact ⟨rfl, rfl, rfl⟩
  | wildcard =>
      rw [TrieNode.setStep]
      split <;> exact ⟨rfl, rfl, rfl⟩
  | consume name p =>
      rw [TrieNode.setStep]
      split
      · exact ⟨rfl, rfl, rfl⟩
      · exact ⟨map_pattern_setVariant _ _, rfl, rfl⟩
  | skip name p =>
      rw [TrieNode.setStep]
      split
      · exact ⟨rfl, rfl, rfl⟩
      · exact ⟨map_pattern_setVariant _ _, rfl, rfl⟩

/-- The targets after a terminal was written. -/
theorem Represents.assign {n : TrieNode} {shapes : List (List Edge)}
    {targets : List Edge → Option TargetRef} {names : List JsString} {σ : List Edge}
    (h : Represents n shapes targets names) (hσ : σ ∈ shapes) (t : TargetRef) :
    Represents (n.assign σ t) shapes (Function.update targets σ (some t)) names := by
  induction σ generalizing n shapes targets names with
  | nil =>
      -- The target is that of the node itself.
      obtain ⟨wf, edges, ordered, target, matchNames, below⟩ := h
      have hstep : ∀ e, (n.setTarget t).step e = n.step e := by
        intro e
        cases e <;> rfl
      refine .mk ⟨wf.nodup, wf.head, wf.one_name, wf.wildcard_name⟩ ?_ ordered ?_ matchNames ?_
      · intro e
        rw [TrieNode.assign, hstep]
        exact edges e
      · simp [TrieNode.assign, TrieNode.setTarget, TrieNode.target]
      · intro e m hm
        rw [TrieNode.assign, hstep] at hm
        have hsame : (fun τ => Function.update targets [] (some t) (e :: τ)) =
            fun τ => targets (e :: τ) := by
          funext τ
          rw [Function.update_of_ne (by simp)]
        rw [hsame]
        exact below e m hm
  | cons e σ ih =>
      -- It is that of a node further down, below the one edge that changes.
      obtain ⟨wf, edges, ordered, target, matchNames, below⟩ := h
      have hmem : σ ∈ after shapes e := mem_after.mpr hσ
      obtain ⟨m, hm⟩ := Option.ne_none_iff_exists'.mp ((edges e).mpr (List.ne_nil_of_mem hmem))
      have hstep := step_setStep hm (m.assign σ t)
      obtain ⟨hpatterns, htarget, hnames⟩ := setStep_frame n e (m.assign σ t)
      rw [TrieNode.assign, hm]
      refine .mk (wf.setStep hm _) ?_ ?_ (htarget.trans ?_) (hnames.trans matchNames) ?_
      · intro f
        rw [hstep]
        by_cases hf : f = e
        · subst hf
          rw [if_pos rfl]
          exact ⟨fun _ => List.ne_nil_of_mem hmem, fun _ => by simp⟩
        · rw [if_neg hf]
          exact edges f
      · rw [VariantsOrdered, hpatterns]
        exact ordered
      · rw [target, Function.update_of_ne (by simp)]
      · intro f m' hm'
        rw [hstep] at hm'
        by_cases hf : f = e
        · subst hf
          rw [if_pos rfl, Option.some.injEq] at hm'
          subst hm'
          have hsame : (fun τ => Function.update targets (f :: σ) (some t) (f :: τ)) =
              Function.update (fun τ => targets (f :: τ)) σ (some t) := by
            funext τ
            by_cases hτ : τ = σ
            · simp [hτ]
            · rw [Function.update_of_ne hτ, Function.update_of_ne (by simpa using hτ)]
          rw [hsame]
          exact ih (below f m hm) hmem
        · rw [if_neg hf] at hm'
          have hsame : (fun τ => Function.update targets (e :: σ) (some t) (f :: τ)) =
              fun τ => targets (f :: τ) := by
            funext τ
            rw [Function.update_of_ne (by simp [hf])]
          rw [hsame]
          exact below f m' hm'

end Keala.Router
