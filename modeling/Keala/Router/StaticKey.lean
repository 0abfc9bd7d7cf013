import Keala.Router.TrieMatch
import Keala.Router.Match
import Keala.Js.Split

/-!
Canonical keys of static routes. Decoding undoes re-escaping, so two paths have
one key exactly when their decoded segments are equal.
-/

namespace Keala.Router

open Keala.Js

/-! ### Escaping -/

theorem slash_not_mem_reescape (value : JsString) : slash ∉ reescape value := by
  intro h
  obtain ⟨c, -, hc⟩ := List.mem_flatMap.mp h
  split at hc
  · exact absurd hc (by decide)
  · split at hc
    · exact absurd hc (by decide)
    · next hne =>
        rw [List.mem_singleton] at hc
        exact hne hc.symm

theorem reescape_eq_self {value : JsString} (h : percent ∉ reescape value) :
    reescape value = value := by
  induction value with
  | nil => rfl
  | cons c value ih =>
      have hcons : reescape (c :: value) = (if c = percent then js "%25" else
          if c = slash then js "%2F" else [c]) ++ reescape value := rfl
      rw [hcons] at h ⊢
      by_cases hp : c = percent
      · rw [if_pos hp] at h
        exact absurd (List.mem_append_left _ (by decide)) h
      · by_cases hs : c = slash
        · rw [if_neg hp, if_pos hs] at h
          exact absurd (List.mem_append_left _ (by decide)) h
        · rw [if_neg hp, if_neg hs] at h ⊢
          rw [ih fun hm => h (List.mem_append_right _ hm)]
          rfl

theorem decodeWithin_reescape (value : JsString) (fuel : ℕ)
    (h : (reescape value).length ≤ fuel) : decodeWithin fuel (reescape value) = some value := by
  induction value generalizing fuel with
  | nil => cases fuel <;> rfl
  | cons c value ih =>
      have hcons : reescape (c :: value) = (if c = percent then js "%25" else
          if c = slash then js "%2F" else [c]) ++ reescape value := rfl
      rw [hcons] at h ⊢
      by_cases hp : c = percent
      · subst hp
        rw [if_pos rfl] at h ⊢
        have hlen : (js "%25").length = 3 := by decide
        rw [List.length_append, hlen] at h
        obtain ⟨fuel, rfl⟩ : ∃ n, fuel = n + 1 := ⟨fuel - 1, by omega⟩
        have hesc : escaped (js "%25" ++ reescape value) = some ([percent], reescape value) := rfl
        exact (decodeWithin_escaped hesc fuel).trans (by rw [ih fuel (by omega)]; rfl)
      · by_cases hs : c = slash
        · subst hs
          rw [if_neg hp, if_pos rfl] at h ⊢
          have hlen : (js "%2F").length = 3 := by decide
          rw [List.length_append, hlen] at h
          obtain ⟨fuel, rfl⟩ : ∃ n, fuel = n + 1 := ⟨fuel - 1, by omega⟩
          have hesc : escaped (js "%2F" ++ reescape value) = some ([slash], reescape value) := rfl
          exact (decodeWithin_escaped hesc fuel).trans (by rw [ih fuel (by omega)]; rfl)
        · rw [if_neg hp, if_neg hs] at h ⊢
          rw [List.length_append, List.length_singleton] at h
          obtain ⟨fuel, rfl⟩ : ∃ n, fuel = n + 1 := ⟨fuel - 1, by omega⟩
          rw [List.singleton_append, decodeWithin_plain hp, ih fuel (by omega)]
          rfl

/-- Decoding undoes re-escaping. -/
theorem decodeSegment_reescape (value : JsString) : decodeSegment (reescape value) = value := by
  rw [decodeSegment]
  split
  · rw [decodeURIComponent, decodeWithin_reescape value _ (Nat.le_refl _)]
    rfl
  · next h => exact reescape_eq_self h

/-! ### The segments behind a key -/

/-- The decoded segments of a path as it is spelled, empty ones included. -/
def rawSegments (path : JsString) : List JsString := (split slash path).map decodeSegment

theorem rawSegments_canonicalKey (path : JsString) :
    rawSegments (canonicalKey path) = rawSegments path := by
  rw [rawSegments, canonicalKey, split_join]
  · rw [List.map_map, rawSegments]
    exact List.map_congr_left fun segment _ => decodeSegment_reescape _
  · intro part hpart
    obtain ⟨segment, -, rfl⟩ := List.mem_map.mp hpart
    exact slash_not_mem_reescape _
  · exact List.map_eq_nil_iff.not.mpr (split_ne_nil slash path)

theorem rawSegments_staticKey (path : JsString) :
    rawSegments (staticKey path) = rawSegments path := by
  rw [staticKey]
  split
  · exact rawSegments_canonicalKey path
  · rfl

/-- Two paths have one canonical key exactly when they decode to the same. -/
theorem canonicalKey_eq_iff (path other : JsString) :
    canonicalKey path = canonicalKey other ↔ rawSegments path = rawSegments other := by
  constructor
  · intro h
    rw [← rawSegments_canonicalKey path, h, rawSegments_canonicalKey]
  · intro h
    have hmap : ∀ p, canonicalKey p = join slash ((rawSegments p).map reescape) := by
      intro p
      rw [rawSegments, List.map_map]
      rfl
    rw [hmap, hmap, h]

theorem rawSegments_concat_slash (path : JsString) :
    rawSegments (path ++ [slash]) = rawSegments path ++ [[]] := by
  rw [rawSegments, split_concat_self, List.map_append]
  rfl

/-- Normalizing takes at most an empty segment off the end. -/
theorem rawSegments_normalizePath (path : JsString) :
    ∃ k, rawSegments path = rawSegments (normalizePath path) ++ List.replicate k [] := by
  rw [normalizePath]
  split
  · next h =>
      obtain ⟨front, rfl⟩ := List.getLast?_eq_some_iff.mp h.2
      refine ⟨1, ?_⟩
      rw [List.dropLast_concat]
      exact rawSegments_concat_slash front
  · exact ⟨0, (List.append_nil _).symm⟩

theorem normalizePath_rooted {path : JsString} (h : path.head? = some slash) :
    (normalizePath path).head? = some slash := by
  rw [normalizePath]
  split
  · next hlen =>
      obtain ⟨c, rest, rfl⟩ := List.exists_cons_of_length_pos (by omega : 0 < path.length)
      obtain ⟨d, rest, rfl⟩ := List.exists_cons_of_length_pos (l := rest)
        (by rw [List.length_cons] at hlen; omega)
      exact h
  · exact h

theorem splitSegments_of_normalizePath {path rest : JsString}
    (h : normalizePath path = slash :: rest) :
    splitSegments path = if split slash rest = [[]] then [] else split slash rest := by
  rw [splitSegments, h, split_cons_self]
  rfl

/-- The segments that matching reads, up to empty ones at the end. -/
theorem rawSegments_rooted {path : JsString} (h : path.head? = some slash) :
    ∃ k, rawSegments path = [] :: (decodedSegments path ++ List.replicate k []) := by
  obtain ⟨k, hk⟩ := rawSegments_normalizePath path
  obtain ⟨rest, hrest⟩ := List.head?_eq_some_iff.mp (normalizePath_rooted h)
  have hraw : rawSegments (normalizePath path) = [] :: (split slash rest).map decodeSegment := by
    rw [rawSegments, hrest, split_cons_self]
    rfl
  have hdecoded : decodedSegments path =
      (if split slash rest = [[]] then [] else split slash rest).map decodeSegment := by
    rw [decodedSegments, splitSegments_of_normalizePath hrest]
  rw [hk, hraw, hdecoded]
  split
  · next hempty =>
      rw [hempty]
      exact ⟨k + 1, by rw [List.replicate_succ]; rfl⟩
  · exact ⟨k, rfl⟩

/-- The segments of a path from its spelling. -/
theorem decodedSegments_eq (path : JsString) :
    decodedSegments path =
      if (rawSegments (normalizePath path)).tail = [[]] then []
      else (rawSegments (normalizePath path)).tail := by
  have hblank : (rawSegments (normalizePath path)).tail = [[]] ↔
      (split slash (normalizePath path)).tail = [[]] := by
    rw [rawSegments, ← List.map_tail]
    constructor
    · intro h
      obtain ⟨part, hpart, hdecode⟩ := List.map_eq_singleton_iff.mp h
      rw [hpart, (decodeSegment_eq_nil_iff part).mp hdecode]
    · intro h
      rw [h]
      rfl
  rw [decodedSegments, splitSegments]
  by_cases h : (split slash (normalizePath path)).tail = [[]]
  · rw [if_pos h, if_pos (hblank.mpr h)]
    rfl
  · rw [if_neg h, if_neg (hblank.not.mpr h), rawSegments, List.map_tail]

theorem rawSegments_eq_singleton {path : JsString} (h : rawSegments path = [[]]) : path = [] := by
  obtain ⟨part, hpart, hdecode⟩ := List.map_eq_singleton_iff.mp h
  rw [← join_split slash path, hpart, (decodeSegment_eq_nil_iff part).mp hdecode]
  rfl

theorem normalizePath_eq_self_iff (path : JsString) :
    normalizePath path = path ↔ ¬(1 < path.length ∧ path.getLast? = some slash) := by
  rw [normalizePath]
  split
  · next h =>
      refine iff_of_false (fun heq => ?_) (not_not.mpr h)
      have hlength := congrArg List.length heq
      rw [List.length_dropLast] at hlength
      omega
  · next h => exact iff_of_true rfl h

theorem normalizePath_concat_slash {pattern : JsString} (hkept : normalizePath pattern ≠ pattern) :
    normalizePath (pattern ++ [slash]) = pattern := by
  rw [Ne, normalizePath_eq_self_iff, not_not] at hkept
  rw [normalizePath, if_pos, List.dropLast_concat]
  rw [List.length_append, List.getLast?_concat]
  exact ⟨by omega, rfl⟩

/-- A normalized path does not decode like one with a slash too many. -/
theorem decodedSegments_of_rawSegments {path other : JsString} (hroot : path.head? = some slash)
    (hnormal : normalizePath path = path)
    (h : rawSegments path = rawSegments other ∨
      rawSegments path = rawSegments (normalizePath other)) :
    decodedSegments other = decodedSegments path := by
  have hstripped : rawSegments path = rawSegments (normalizePath other) →
      decodedSegments other = decodedSegments path := by
    intro hraw
    rw [decodedSegments_eq other, decodedSegments_eq path, hnormal, hraw]
  rcases h with hraw | hraw
  · by_cases hother : normalizePath other = other
    · exact hstripped (hraw.trans (congrArg rawSegments hother.symm))
    · exfalso
      rw [normalizePath_eq_self_iff, not_not] at hother
      obtain ⟨front, rfl⟩ := List.getLast?_eq_some_iff.mp hother.2
      rw [rawSegments_concat_slash] at hraw
      have hlast : path.getLast? = some slash := by
        rw [getLast?_eq_sep_iff slash (by rintro rfl; cases hroot)]
        have hmap := congrArg List.getLast? hraw
        rw [List.getLast?_concat, rawSegments, List.getLast?_map] at hmap
        obtain ⟨part, hpart, hdecode⟩ := Option.map_eq_some_iff.mp hmap
        rw [hpart, (decodeSegment_eq_nil_iff part).mp hdecode]
      have hshort := (normalizePath_eq_self_iff path).mp hnormal
      obtain ⟨rest, rfl⟩ := List.head?_eq_some_iff.mp hroot
      have hrest : rest = [] := by
        apply List.eq_nil_of_length_eq_zero
        by_contra hne
        exact hshort ⟨by rw [List.length_cons]; omega, hlast⟩
      rw [hrest] at hraw
      change [[]] ++ [[]] = _ at hraw
      have hfront := rawSegments_eq_singleton (List.append_inj' hraw rfl).1.symm
      rw [hfront] at hother
      exact absurd hother.1 (Nat.lt_irrefl 1)
  · exact hstripped hraw

end Keala.Router
