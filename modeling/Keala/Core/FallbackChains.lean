import Keala.Core.MiddlewareStack
import Mathlib.Data.List.Induction

/-!
The precompiled fallback chains answer every path as filtering the layers
would: the deepest node on the way of the path carries the chain of the scopes
above it.
-/

namespace Keala.Core

open Keala.Js Keala.Router

variable {η : Type}

/-! ### Keys -/

theorem decimal_ne_colon (n : ℕ) : ∀ c ∈ decimal n, c ≠ 58 := by
  have hdigit : ∀ d < 10, (48 + d).toUInt16 ≠ 58 := by decide
  intro c hc
  rw [decimal] at hc
  split at hc
  · rw [List.mem_singleton] at hc
    subst hc
    decide
  · rw [List.mem_reverse, List.mem_map] at hc
    obtain ⟨d, hd, rfl⟩ := hc
    exact hdigit d (Nat.digits_lt_base (by omega) hd)

theorem decimal_injective : Function.Injective decimal := by
  have hdigit : ∀ d < 10, (48 + d).toUInt16.toNat - 48 = d := by decide
  -- Reading the digits back is a left inverse.
  refine Function.LeftInverse.injective
    (g := fun text => Nat.ofDigits 10 (text.reverse.map fun c => c.toNat - 48)) ?_
  intro n
  show Nat.ofDigits 10 ((decimal n).reverse.map fun c => c.toNat - 48) = n
  rw [decimal]
  split
  · next h => rw [h]; rfl
  · rw [List.reverse_reverse, List.map_map]
    have hmap : (Nat.digits 10 n).map ((fun c : CodeUnit => c.toNat - 48) ∘
        fun d => (48 + d).toUInt16) = Nat.digits 10 n := by
      refine (List.map_congr_left fun d hd => ?_).trans (List.map_id _)
      exact hdigit d (Nat.digits_lt_base (by omega) hd)
    rw [hmap, Nat.ofDigits_digits]

theorem append_colon_inj {x x' y y' : JsString} (hx : ∀ c ∈ x, c ≠ 58) (hx' : ∀ c ∈ x', c ≠ 58)
    (h : x ++ 58 :: y = x' ++ 58 :: y') : x = x' ∧ y = y' := by
  induction x generalizing x' with
  | nil =>
      cases x' with
      | nil => exact ⟨rfl, (List.cons.inj h).2⟩
      | cons c x' => exact absurd (List.cons.inj h).1.symm (hx' c List.mem_cons_self)
  | cons c x ih =>
      cases x' with
      | nil => exact absurd (List.cons.inj h).1 (hx c List.mem_cons_self)
      | cons c' x' =>
          obtain ⟨rfl, htail⟩ := List.cons.inj h
          obtain ⟨rfl, rfl⟩ := ih (fun d hd => hx d (List.mem_cons_of_mem _ hd))
            (fun d hd => hx' d (List.mem_cons_of_mem _ hd)) htail
          exact ⟨rfl, rfl⟩

/-- The length in front of every segment makes the key injective. -/
theorem keyOf_injective : Function.Injective keyOf := by
  intro a
  induction a with
  | nil =>
      intro b h
      cases b with
      | nil => rfl
      | cons t b => simp [keyOf] at h
  | cons s a ih =>
      intro b h
      cases b with
      | nil => simp [keyOf] at h
      | cons t b =>
          have hcons : ∀ (u : JsString) (us : List JsString),
              keyOf (u :: us) = decimal u.length ++ 58 :: (u ++ keyOf us) := by
            intro u us
            simp [keyOf]
          rw [hcons, hcons] at h
          obtain ⟨hlen, hrest⟩ := append_colon_inj (decimal_ne_colon _) (decimal_ne_colon _) h
          obtain ⟨rfl, hkey⟩ := List.append_inj hrest (decimal_injective hlen)
          rw [ih hkey]

/-! ### Scopes -/

def ScopedAt (isPrefix : Bool) (segments : List JsString) (layer : MiddlewareLayer η) : Prop :=
  ∃ scope, layer.scope = some scope ∧ scope.isPrefix = isPrefix ∧ scope.segments = segments

def Keyed (scopes : List (JsString × List JsString)) : Prop :=
  (OrderedMap.keys scopes).Nodup ∧ ∀ p ∈ scopes, p.1 = keyOf p.2

theorem addScope_spec (isPrefix : Bool) {scopes : List (JsString × List JsString)}
    (h : Keyed scopes) (layer : MiddlewareLayer η) :
    Keyed (addScope isPrefix scopes layer) ∧ ∀ segments,
      segments ∈ (addScope isPrefix scopes layer).map Prod.snd ↔
        segments ∈ scopes.map Prod.snd ∨ ScopedAt isPrefix segments layer := by
  obtain ⟨hnodup, hkeys⟩ := h
  rw [addScope]
  cases hscope : layer.scope with
  | none => exact ⟨⟨hnodup, hkeys⟩, by simp [ScopedAt, hscope]⟩
  | some scope =>
      by_cases hkind : scope.isPrefix = isPrefix
      · simp only [hkind, if_true]
        have hmem : ∀ p : JsString × List JsString,
            p ∈ OrderedMap.set scopes (keyOf scope.segments) scope.segments ↔
              if keyOf scope.segments = p.1 then scope.segments = p.2 else p ∈ scopes :=
          fun p => OrderedMap.mem_set_iff hnodup _ p.1 _ p.2
        refine ⟨⟨OrderedMap.nodup_set hnodup _ _, ?_⟩, fun segments => ⟨?_, ?_⟩⟩
        · intro p hp
          rw [hmem] at hp
          split at hp
          · next hk => rw [← hk, hp]
          · exact hkeys p hp
        · intro h
          obtain ⟨p, hp, rfl⟩ := List.mem_map.mp h
          rw [hmem] at hp
          split at hp
          · exact .inr ⟨scope, hscope, hkind, hp⟩
          · exact .inl (List.mem_map_of_mem hp)
        · intro h
          refine List.mem_map.mpr ⟨(keyOf segments, segments), ?_, rfl⟩
          rw [hmem]
          split
          · next hk => exact keyOf_injective hk
          · next hk =>
              rcases h with h | ⟨scope', hscope', -, rfl⟩
              · obtain ⟨p, hp, rfl⟩ := List.mem_map.mp h
                have hkey := hkeys p hp
                rwa [← hkey]
              · rw [hscope, Option.some.injEq] at hscope'
                exact absurd (hscope' ▸ rfl) hk
      · simp only [hkind, if_false]
        exact ⟨⟨hnodup, hkeys⟩, by simp [ScopedAt, hscope, hkind]⟩

theorem mem_scopesOf (isPrefix : Bool) (layers : List (MiddlewareLayer η))
    (segments : List JsString) :
    segments ∈ (scopesOf isPrefix layers).map Prod.snd ↔
      ∃ layer ∈ layers, ScopedAt isPrefix segments layer := by
  have hfold : ∀ scopes, Keyed scopes →
      (segments ∈ (layers.foldl (addScope isPrefix) scopes).map Prod.snd ↔
        segments ∈ scopes.map Prod.snd ∨ ∃ layer ∈ layers, ScopedAt isPrefix segments layer) := by
    induction layers with
    | nil => simp
    | cons layer layers ih =>
        intro scopes hscopes
        obtain ⟨hkeyed, hmem⟩ := addScope_spec isPrefix hscopes layer
        rw [List.foldl_cons, ih _ hkeyed, hmem]
        simp [or_assoc]
  rw [scopesOf, hfold [] ⟨List.nodup_nil, by simp⟩]
  simp

/-! ### The chains of a node -/

theorem lookup_setExactChain (layers : List (MiddlewareLayer η)) (root : FallbackNode η)
    (path segments : List JsString) :
    (setExactChain layers root path).lookup noChains segments =
      if segments = path then
        { (root.lookup noChains path) with
          exactChain := (chainOf (handlersForSegments layers path true)).or
            (root.lookup noChains path).exactChain }
      else root.lookup noChains segments := by
  rw [setExactChain]
  cases chainOf (handlersForSegments layers path true) with
  | none =>
      by_cases h : segments = path
      · rw [if_pos h, h]
        rfl
      · rw [if_neg h]
  | some chain => exact PrefixTree.lookup_update _ _ _ _ _

theorem lookup_setPrefixChain (layers : List (MiddlewareLayer η)) (root : FallbackNode η)
    (path segments : List JsString) :
    (setPrefixChain layers root path).lookup noChains segments =
      if segments = path then
        { (root.lookup noChains path) with
          prefixChain := (chainOf (handlersForSegments layers path false)).or
            (root.lookup noChains path).prefixChain }
      else root.lookup noChains segments := by
  rw [setPrefixChain]
  cases chainOf (handlersForSegments layers path false) with
  | none =>
      by_cases h : segments = path
      · rw [if_pos h, h]
        rfl
      · rw [if_neg h]
  | some chain => exact PrefixTree.lookup_update _ _ _ _ _

theorem lookup_exactChains (layers : List (MiddlewareLayer η)) (paths : List (List JsString))
    (root : FallbackNode η) (segments : List JsString) :
    (paths.foldl (setExactChain layers) root).lookup noChains segments =
      { (root.lookup noChains segments) with
        exactChain := (if segments ∈ paths then chainOf (handlersForSegments layers segments true)
          else none).or (root.lookup noChains segments).exactChain } := by
  induction paths generalizing root with
  | nil => rfl
  | cons path paths ih =>
      rw [List.foldl_cons, ih, lookup_setExactChain]
      by_cases h : segments = path
      · subst h
        rw [if_pos rfl, if_pos List.mem_cons_self]
        cases chainOf (handlersForSegments layers segments true) with
        | none => simp
        | some chain => by_cases hp : segments ∈ paths <;> simp [hp]
      · simp only [h, List.mem_cons, false_or, if_false]

theorem lookup_prefixChains (layers : List (MiddlewareLayer η)) (paths : List (List JsString))
    (root : FallbackNode η) (segments : List JsString) :
    (paths.foldl (setPrefixChain layers) root).lookup noChains segments =
      { (root.lookup noChains segments) with
        prefixChain := (if segments ∈ paths then chainOf (handlersForSegments layers segments false)
          else none).or (root.lookup noChains segments).prefixChain } := by
  induction paths generalizing root with
  | nil => rfl
  | cons path paths ih =>
      rw [List.foldl_cons, ih, lookup_setPrefixChain]
      by_cases h : segments = path
      · subst h
        rw [if_pos rfl, if_pos List.mem_cons_self]
        cases chainOf (handlersForSegments layers segments false) with
        | none => simp
        | some chain => by_cases hp : segments ∈ paths <;> simp [hp]
      · simp only [h, List.mem_cons, false_or, if_false]

/-- The stack's derived fields are the ones its layers determine. -/
structure Coherent (stack : MiddlewareStack η) : Prop where
  global : stack.global = (stack.layers.filter fun l => l.scope.isNone).map MiddlewareLayer.handler
  globalChain : stack.globalChain = chainOf stack.global
  exactChain : ∀ segments, (stack.fallbackRoot.lookup noChains segments).exactChain =
    if segments ∈ (scopesOf false stack.layers).map Prod.snd then
      chainOf (handlersForSegments stack.layers segments true) else none
  prefixChain : ∀ segments, (stack.fallbackRoot.lookup noChains segments).prefixChain =
    if segments ∈ (scopesOf true stack.layers).map Prod.snd then
      chainOf (handlersForSegments stack.layers segments false) else none

theorem coherent_createMiddlewareStack : Coherent (createMiddlewareStack : MiddlewareStack η) where
  global := rfl
  globalChain := rfl
  exactChain segments := by
    show ((PrefixTree.leaf noChains).lookup noChains segments).exactChain = none
    rw [PrefixTree.lookup_leaf]
    rfl
  prefixChain segments := by
    show ((PrefixTree.leaf noChains).lookup noChains segments).prefixChain = none
    rw [PrefixTree.lookup_leaf]
    rfl

theorem fallbackRoot_rebuildFallbacks (stack : MiddlewareStack η) :
    (rebuildFallbacks stack).fallbackRoot =
      ((scopesOf true stack.layers).map Prod.snd).foldl (setPrefixChain stack.layers)
        (((scopesOf false stack.layers).map Prod.snd).foldl (setExactChain stack.layers)
          createFallbackNode) := rfl

theorem Coherent.addMiddleware {stack : MiddlewareStack η} (h : Coherent stack)
    (scope : Option MiddlewareScope) (handlers : List η) :
    Coherent (addMiddleware stack scope handlers) where
  global := by
    show (if scope.isNone then stack.global ++ handlers else stack.global) = _
    have hlayers : (Core.addMiddleware stack scope handlers).layers =
        stack.layers ++ handlers.map fun handler => ⟨scope, handler⟩ := rfl
    rw [hlayers, List.filter_append, List.map_append, ← h.global]
    cases scope with
    | none => simp [List.filter_map, Function.comp_def]
    | some scope => simp [List.filter_map, Function.comp_def]
  globalChain := rfl
  exactChain segments := by
    rw [Core.addMiddleware, fallbackRoot_rebuildFallbacks, lookup_prefixChains, lookup_exactChains,
    createFallbackNode, PrefixTree.lookup_leaf]
    exact Option.or_none
  prefixChain segments := by
    rw [Core.addMiddleware, fallbackRoot_rebuildFallbacks, lookup_prefixChains, lookup_exactChains,
    createFallbackNode, PrefixTree.lookup_leaf]
    exact Option.or_none

/-! ### The walk -/

/-- The walk ends with the exact chain of its path, else with the prefix chain
`answer` gives it, provided `answer` is kept up at every node. -/
theorem descend_eq (root node : FallbackNode η) (globalChain : Option (Composed η))
    (answer : List JsString → Option (Composed η))
    (hanswer : ∀ path segment, answer (path ++ [segment]) =
      (root.lookup noChains (path ++ [segment])).prefixChain.or (answer path))
    (path segments : List JsString) (hnode : root.at? path = some node) :
    descend globalChain node (answer path) segments =
      ((root.lookup noChains (path ++ segments)).exactChain.or
        (answer (path ++ segments))).or globalChain := by
  induction segments generalizing node path with
  | nil =>
      rw [descend, List.append_nil, PrefixTree.lookup, hnode]
      rfl
  | cons segment segments ih =>
      have hsplit : path ++ segment :: segments = (path ++ [segment]) ++ segments := by simp
      rw [descend]
      cases hchild : node.child? segment with
      | none =>
          -- Nothing is stored further down, so the answer stays the same.
          have hout : ∀ more, root.lookup noChains ((path ++ [segment]) ++ more) = noChains := by
            intro more
            rw [PrefixTree.lookup, PrefixTree.at?_append, PrefixTree.at?_append, hnode,
              Option.bind_some, PrefixTree.at?, hchild]
            rfl
          have hkeep : ∀ more, answer ((path ++ [segment]) ++ more) = answer path := by
            intro more
            induction more using List.reverseRecOn with
            | nil =>
                have hnil := hout []
                rw [List.append_nil] at hnil ⊢
                rw [hanswer, hnil]
                rfl
            | append_singleton more s ihm =>
                have hmore := hout (more ++ [s])
                rw [← List.append_assoc] at hmore ⊢
                rw [hanswer, hmore, ihm]
                rfl
          rw [hsplit, hout, hkeep]
          rfl
      | some child =>
          have hat : root.at? (path ++ [segment]) = some child := by
            rw [PrefixTree.at?_append, hnode, Option.bind_some, PrefixTree.at?, hchild]
            rfl
          have hvalue : root.lookup noChains (path ++ [segment]) = child.value := by
            rw [PrefixTree.lookup, hat]
            rfl
          rw [hsplit, ← ih child (path ++ [segment]) hat, hanswer, hvalue]

def MiddlewareScope.Covers (scope : MiddlewareScope) (segments : List JsString) : Prop :=
  if scope.isPrefix then scope.segments <+: segments else scope.segments = segments

instance (scope : MiddlewareScope) (segments : List JsString) :
    Decidable (scope.Covers segments) :=
  inferInstanceAs (Decidable
    (if scope.isPrefix then scope.segments <+: segments else scope.segments = segments))

theorem scopeMatchesSegments_iff (scope : MiddlewareScope) (segments : List JsString) :
    scopeMatchesSegments scope segments = true ↔ scope.Covers segments := by
  rw [scopeMatchesSegments, MiddlewareScope.Covers, startsWithSegments]
  split
  · exact List.isPrefixOf_iff_prefix
  · rw [Bool.and_eq_true, beq_iff_eq, List.isPrefixOf_iff_prefix]
    constructor
    · rintro ⟨hlen, hpre⟩
      exact hpre.eq_of_length hlen
    · intro heq
      rw [heq]
      exact ⟨rfl, List.prefix_rfl⟩

def MiddlewareLayer.appliesTo (segments : List JsString) (layer : MiddlewareLayer η) : Bool :=
  match layer.scope with
  | none => true
  | some scope => decide (scope.Covers segments)

def selected (layers : List (MiddlewareLayer η)) (segments : List JsString) : List η :=
  (layers.filter (MiddlewareLayer.appliesTo segments)).map MiddlewareLayer.handler

theorem handlersForSegments_true (layers : List (MiddlewareLayer η)) (segments : List JsString) :
    handlersForSegments layers segments true = selected layers segments := by
  rw [handlersForSegments, selected]
  congr 1
  refine List.filter_congr fun layer _ => ?_
  rw [layerCovers, MiddlewareLayer.appliesTo]
  cases layer.scope with
  | none => rfl
  | some scope =>
      have hmatch : scopeMatchesSegments scope segments = decide (scope.Covers segments) := by
        rw [Bool.eq_iff_iff, scopeMatchesSegments_iff, decide_eq_true_iff]
      simp only
      rw [← hmatch]
      cases hk : scope.isPrefix with
      | false => simp
      | true => simp [hk, scopeMatchesSegments]

theorem chainOf_ne_none {handlers : List η} (h : handlers ≠ []) : chainOf handlers ≠ none := by
  rw [chainOf, if_neg h]
  simp

def Covered (layers : List (MiddlewareLayer η)) (segments : List JsString) : Prop :=
  ∃ path, path <+: segments ∧ path ∈ (scopesOf true layers).map Prod.snd

theorem Covered.ne_nil {layers : List (MiddlewareLayer η)} {segments : List JsString}
    (h : Covered layers segments) : handlersForSegments layers segments false ≠ [] := by
  obtain ⟨path, hpre, hpath⟩ := h
  obtain ⟨layer, hlayer, scope, hscope, hkind, rfl⟩ := (mem_scopesOf true layers path).mp hpath
  refine List.ne_nil_of_mem (List.mem_map_of_mem (List.mem_filter.mpr ⟨hlayer, ?_⟩))
  simp only [layerCovers, hscope, hkind, if_true, startsWithSegments]
  exact List.isPrefixOf_iff_prefix.mpr hpre

theorem layerCovers_append {layers : List (MiddlewareLayer η)} {path : List JsString}
    {segment : JsString} (h : path ++ [segment] ∉ (scopesOf true layers).map Prod.snd) :
    handlersForSegments layers (path ++ [segment]) false =
      handlersForSegments layers path false := by
  rw [handlersForSegments, handlersForSegments]
  congr 1
  refine List.filter_congr fun layer hlayer => ?_
  rw [layerCovers, layerCovers]
  cases hscope : layer.scope with
  | none => rfl
  | some scope =>
      cases hkind : scope.isPrefix with
      | false => simp [hkind]
      | true =>
          have hne : scope.segments ≠ path ++ [segment] := by
            intro heq
            exact h ((mem_scopesOf true layers _).mpr ⟨layer, hlayer, scope, hscope, hkind, heq⟩)
          simp only [hkind, if_true, startsWithSegments]
          rw [Bool.eq_iff_iff, List.isPrefixOf_iff_prefix, List.isPrefixOf_iff_prefix,
            List.prefix_concat_iff]
          simp [hne]

open Classical in
noncomputable def inherited (layers : List (MiddlewareLayer η)) (segments : List JsString) :
    Option (Composed η) :=
  if Covered layers segments then chainOf (handlersForSegments layers segments false) else none

theorem inherited_append {stack : MiddlewareStack η} (h : Coherent stack) (path : List JsString)
    (segment : JsString) : inherited stack.layers (path ++ [segment]) =
      (stack.fallbackRoot.lookup noChains (path ++ [segment])).prefixChain.or
        (inherited stack.layers path) := by
  rw [h.prefixChain]
  by_cases hmem : path ++ [segment] ∈ (scopesOf true stack.layers).map Prod.snd
  · have hcov : Covered stack.layers (path ++ [segment]) := ⟨_, List.prefix_rfl, hmem⟩
    obtain ⟨chain, hchain⟩ := Option.ne_none_iff_exists'.mp (chainOf_ne_none hcov.ne_nil)
    rw [inherited, if_pos hcov, if_pos hmem, hchain]
    rfl
  · have hcov : Covered stack.layers (path ++ [segment]) ↔ Covered stack.layers path := by
      constructor
      · rintro ⟨p, hpre, hp⟩
        rcases List.prefix_concat_iff.mp hpre with rfl | hpre
        · exact absurd hp hmem
        · exact ⟨p, hpre, hp⟩
      · rintro ⟨p, hpre, hp⟩
        exact ⟨p, hpre.trans (List.prefix_append _ _), hp⟩
    rw [if_neg hmem, inherited, inherited, layerCovers_append hmem, Option.none_or]
    by_cases hpath : Covered stack.layers path
    · rw [if_pos hpath, if_pos (hcov.mpr hpath)]
    · rw [if_neg hpath, if_neg (mt hcov.mp hpath)]

theorem inherited_nil {stack : MiddlewareStack η} (h : Coherent stack) :
    inherited stack.layers [] = stack.fallbackRoot.value.prefixChain := by
  have hlookup := h.prefixChain []
  rw [show stack.fallbackRoot.lookup noChains [] = stack.fallbackRoot.value from rfl] at hlookup
  rw [hlookup, inherited]
  have hcov : Covered stack.layers [] ↔ [] ∈ (scopesOf true stack.layers).map Prod.snd := by
    constructor
    · rintro ⟨p, hpre, hp⟩
      rwa [List.prefix_nil.mp hpre] at hp
    · exact fun hp => ⟨[], List.prefix_rfl, hp⟩
  simp only [hcov]

theorem selected_of_not_exact {layers : List (MiddlewareLayer η)} {segments : List JsString}
    (h : segments ∉ (scopesOf false layers).map Prod.snd) :
    handlersForSegments layers segments false = selected layers segments := by
  rw [handlersForSegments, selected]
  congr 1
  refine List.filter_congr fun layer hlayer => ?_
  rw [layerCovers, MiddlewareLayer.appliesTo]
  cases hscope : layer.scope with
  | none => rfl
  | some scope =>
      cases hkind : scope.isPrefix with
      | true =>
          simp only [if_true, startsWithSegments, MiddlewareScope.Covers, hkind]
          rw [Bool.eq_iff_iff, List.isPrefixOf_iff_prefix, decide_eq_true_iff]
      | false =>
          have hne : scope.segments ≠ segments := by
            intro heq
            exact h ((mem_scopesOf false layers _).mpr ⟨layer, hlayer, scope, hscope, hkind, heq⟩)
          simp [MiddlewareScope.Covers, hkind, hne]

theorem selected_of_not_covered {stack : MiddlewareStack η} (h : Coherent stack)
    {segments : List JsString} (hcov : ¬Covered stack.layers segments) :
    handlersForSegments stack.layers segments false = stack.global := by
  rw [h.global, handlersForSegments]
  congr 1
  refine List.filter_congr fun layer hlayer => ?_
  rw [layerCovers]
  cases hscope : layer.scope with
  | none => rfl
  | some scope =>
      cases hkind : scope.isPrefix with
      | false => simp [hkind]
      | true =>
          simp only [hkind, if_true, startsWithSegments, Option.isNone_some]
          rw [Bool.eq_false_iff, Ne, List.isPrefixOf_iff_prefix]
          intro hpre
          exact hcov ⟨_, hpre, (mem_scopesOf true stack.layers _).mpr
            ⟨layer, hlayer, scope, hscope, hkind, rfl⟩⟩

/-- On a coherent stack the precompiled chain is the one of the layers that
apply. -/
theorem Coherent.fallback_eq {stack : MiddlewareStack η} (h : Coherent stack) (path : JsString) :
    fallbackMiddlewareForPath stack path = chainOf (selected stack.layers (pathSegments path)) := by
  rw [fallbackMiddlewareForPath]
  split
  · next hlen =>
      have hall : stack.layers.filter (fun l => l.scope.isNone) = stack.layers := by
        rw [h.global, List.length_map] at hlen
        exact List.filter_sublist.eq_of_length hlen.symm
      have hnone : ∀ layer ∈ stack.layers, layer.scope.isNone = true :=
        List.filter_eq_self.mp hall
      have happlies : stack.layers.filter (MiddlewareLayer.appliesTo (pathSegments path)) =
          stack.layers := by
        refine List.filter_eq_self.mpr fun layer hlayer => ?_
        rw [MiddlewareLayer.appliesTo, Option.isNone_iff_eq_none.mp (hnone layer hlayer)]
      rw [h.globalChain, h.global, selected, hall, happlies]
  · rw [← inherited_nil h, descend_eq stack.fallbackRoot stack.fallbackRoot stack.globalChain
      (inherited stack.layers) (inherited_append h) [] (pathSegments path) rfl, List.nil_append,
      h.exactChain]
    generalize pathSegments path = segments
    by_cases hexact : segments ∈ (scopesOf false stack.layers).map Prod.snd
    · obtain ⟨layer, hlayer, scope, hscope, hkind, rfl⟩ :=
        (mem_scopesOf false stack.layers segments).mp hexact
      have hne : selected stack.layers scope.segments ≠ [] := by
        refine List.ne_nil_of_mem (List.mem_map_of_mem (List.mem_filter.mpr ⟨hlayer, ?_⟩))
        simp [MiddlewareLayer.appliesTo, hscope, MiddlewareScope.Covers, hkind]
      obtain ⟨chain, hchain⟩ := Option.ne_none_iff_exists'.mp (chainOf_ne_none hne)
      rw [if_pos hexact, handlersForSegments_true, hchain]
      rfl
    · rw [if_neg hexact, ← selected_of_not_exact hexact, Option.none_or, inherited]
      by_cases hcov : Covered stack.layers segments
      · obtain ⟨chain, hchain⟩ := Option.ne_none_iff_exists'.mp (chainOf_ne_none hcov.ne_nil)
        rw [if_pos hcov, hchain]
        rfl
      · rw [if_neg hcov, selected_of_not_covered h hcov, Option.none_or, h.globalChain]

theorem Coherent.has_eq {stack : MiddlewareStack η} (h : Coherent stack) (path : JsString) :
    hasMiddlewareForPath stack path = !(selected stack.layers (pathSegments path)).isEmpty := by
  have hselected : (selected stack.layers (pathSegments path)).isEmpty = true ↔
      ∀ layer ∈ stack.layers, ¬layer.appliesTo (pathSegments path) = true := by
    rw [List.isEmpty_iff, selected, List.map_eq_nil_iff, List.filter_eq_nil_iff]
  rw [hasMiddlewareForPath, Bool.eq_iff_iff, Bool.not_eq_true', ← Bool.not_eq_true, hselected]
  split
  · next hlen =>
      obtain ⟨handler, hhandler⟩ := List.exists_mem_of_length_pos hlen
      rw [h.global] at hhandler
      obtain ⟨layer, hlayer, -⟩ := List.mem_map.mp hhandler
      obtain ⟨hmem, hnone⟩ := List.mem_filter.mp hlayer
      simp only [true_iff, not_forall]
      refine ⟨layer, hmem, ?_⟩
      rw [MiddlewareLayer.appliesTo, Option.isNone_iff_eq_none.mp hnone]
      simp
  · next hlen =>
      have hnil : stack.layers.filter (fun l => l.scope.isNone) = [] := by
        rw [h.global, List.length_map] at hlen
        exact List.length_eq_zero_iff.mp (Nat.eq_zero_of_not_pos hlen)
      rw [List.any_eq_true]
      simp only [not_forall, not_not]
      refine exists_congr fun layer => ?_
      rw [exists_prop]
      refine and_congr_right fun hlayer => ?_
      rw [MiddlewareLayer.appliesTo]
      cases hscope : layer.scope with
      | none =>
          have hnone := List.filter_eq_nil_iff.mp hnil layer hlayer
          simp [hscope] at hnone
      | some scope => simp only [scopeMatchesSegments_iff, decide_eq_true_iff]

def layersOf (call : Option MiddlewareScope × List η) : List (MiddlewareLayer η) :=
  call.2.map fun handler => ⟨call.1, handler⟩

def addAll (calls : List (Option MiddlewareScope × List η)) : MiddlewareStack η :=
  calls.foldl (fun stack call => addMiddleware stack call.1 call.2) createMiddlewareStack

theorem addAll_spec (calls : List (Option MiddlewareScope × List η)) :
    Coherent (addAll calls) ∧ (addAll calls).layers = calls.flatMap layersOf := by
  induction calls using List.reverseRecOn with
  | nil => exact ⟨coherent_createMiddlewareStack, rfl⟩
  | append_singleton calls call ih =>
      obtain ⟨hcoherent, hlayers⟩ := ih
      have hstep : addAll (calls ++ [call]) = addMiddleware (addAll calls) call.1 call.2 := by
        rw [addAll, List.foldl_append]
        rfl
      rw [hstep]
      refine ⟨hcoherent.addMiddleware call.1 call.2, ?_⟩
      rw [List.flatMap_append, ← hlayers, List.flatMap_singleton]
      rfl

/-- After any sequence of `addMiddleware` calls and for every path, the
fallback chain composes exactly the layers that apply, in `app.use` order. -/
theorem fallbackMiddlewareForPath_selects (calls : List (Option MiddlewareScope × List η))
    (path : JsString) :
    fallbackMiddlewareForPath (addAll calls) path =
        chainOf (selected (calls.flatMap layersOf) (pathSegments path)) ∧
      hasMiddlewareForPath (addAll calls) path =
        !(selected (calls.flatMap layersOf) (pathSegments path)).isEmpty := by
  obtain ⟨hcoherent, hlayers⟩ := addAll_spec calls
  rw [← hlayers]
  exact ⟨hcoherent.fallback_eq path, hcoherent.has_eq path⟩

end Keala.Core
