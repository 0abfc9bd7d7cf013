import Keala.Negotiation.Accepts

/-!
What the parser makes of a preference header: its ranges in order, each with
the quality of its first weight, and none for a weight that is no number.
-/

namespace Keala.Negotiation

open Keala.Js

variable (lower : JsString → JsString)

def parameterOf (segment : JsString) : Option (JsString × JsString) :=
  let param := trim segment
  (indexOf param 61).map fun eq => (lower (trim (param.take eq)), param.drop (eq + 1))

def isWeight (param : JsString × JsString) : Bool := param.1 = js "q"

/-- The quality that the first weight gives, 1 without one; `none` for a malformed weight. -/
def quality (params : List (JsString × JsString)) : Option ℚ :=
  match params.find? isWeight with
  | none => some 1
  | some weight => clampQuality (parseFloat weight.2)

def constraints (params : List (JsString × JsString)) : List JsString :=
  ((params.takeWhile fun param => !isWeight param).filter fun param => param.1 ≠ []).map
    fun param => param.1 ++ 61 :: trim param.2

/-- No list is `null`. -/
def addConstraints (params : Option (List JsString)) (added : List JsString) :
    Option (List JsString) :=
  if added = [] then params else some (params.getD [] ++ added)

def rangeOf (part : JsString) : Option Preference :=
  let segments := split 59 part
  let value := lower (trim (segments.headD []))
  let params := segments.tail.filterMap (parameterOf lower)
  if value = [] then none
  else (quality params).map fun q => ⟨value, q, 0, addConstraints none (constraints params)⟩

def ranges (header : JsString) : List Preference :=
  ((splitHeader header).filterMap (rangeOf lower)).mapIdx fun i range => { range with order := i }

variable {lower}

/-- Behind a weight the parameters change nothing. -/
theorem readParams_weighted (segments : List JsString) {state : EntryParams}
    (h : state.weighted = true) : readParams lower segments state = some state := by
  induction segments with
  | nil => rfl
  | cons segment segments ih =>
      rw [readParams]
      dsimp only
      cases indexOf (trim segment) 61 with
      | none => exact ih
      | some eq =>
          dsimp only
          rw [if_neg (by simp [h]), if_pos h, ih]

theorem addConstraints_cons (params : Option (List JsString)) (param : JsString)
    (added : List JsString) :
    addConstraints (some (params.getD [] ++ [param])) added =
      addConstraints params (param :: added) := by
  rw [addConstraints, addConstraints, if_neg (List.cons_ne_nil _ _)]
  split
  · next h => rw [h]
  · rw [Option.getD_some, List.append_assoc, List.singleton_append]

/-- The loop over the parameters in closed form. -/
theorem readParams_eq (segments : List JsString) (params : Option (List JsString)) :
    (readParams lower segments ⟨1, false, params⟩).map (fun state => (state.q, state.params)) =
      (quality (segments.filterMap (parameterOf lower))).map fun q =>
        (q, addConstraints params (constraints (segments.filterMap (parameterOf lower)))) := by
  induction segments generalizing params with
  | nil => rfl
  | cons segment segments ih =>
      rw [readParams]
      dsimp only
      cases heq : indexOf (trim segment) 61 with
      | none =>
          have hparam : parameterOf lower segment = none := by simp [parameterOf, heq]
          rw [List.filterMap_cons_none hparam]
          exact ih params
      | some eq =>
          have hparam : parameterOf lower segment =
              some (lower (trim ((trim segment).take eq)), (trim segment).drop (eq + 1)) := by
            simp [parameterOf, heq]
          rw [List.filterMap_cons_some hparam]
          dsimp only
          generalize lower (trim ((trim segment).take eq)) = name
          generalize (trim segment).drop (eq + 1) = text
          by_cases hweight : name = js "q"
          · -- The first weight settles the entry.
            have hfirst : isWeight (name, text) = true := by simp [isWeight, hweight]
            rw [if_pos (by simp [hweight]), quality, List.find?_cons_of_pos hfirst, constraints,
              List.takeWhile_cons_of_neg (by simp [hfirst])]
            dsimp only
            cases clampQuality (parseFloat text) with
            | none => rfl
            | some q =>
                dsimp only
                rw [readParams_weighted segments rfl]
                rfl
          · have hother : isWeight (name, text) = false := by simp [isWeight, hweight]
            rw [if_neg (by simp [hweight]), if_neg (by simp), quality,
              List.find?_cons_of_neg (by simp [hother]), constraints,
              List.takeWhile_cons_of_pos (by simp [hother])]
            split
            · next hempty =>
                rw [ih params, quality, constraints, List.filter_cons_of_neg (by simp [hempty])]
            · next hnamed =>
                rw [ih, quality, constraints, List.filter_cons_of_pos (by simpa using hnamed),
                  List.map_cons]
                simp only [addConstraints_cons]

theorem parseEntry_eq (part : JsString) (order : ℕ) :
    parseEntry lower part order =
      (rangeOf lower part).map fun range => { range with order := order } := by
  rw [parseEntry, rangeOf]
  split
  · rfl
  · have hloop := @readParams_eq lower (split 59 part).tail none
    cases hread : readParams lower (split 59 part).tail ⟨1, false, none⟩ with
    | none =>
        rw [hread, Option.map_none] at hloop
        rw [Option.map_none, Option.map_map, eq_comm, Option.map_eq_none_iff]
        exact Option.map_eq_none_iff.mp hloop.symm
    | some state =>
        rw [hread, Option.map_some] at hloop
        obtain ⟨q, hq, hstate⟩ := Option.map_eq_some_iff.mp hloop.symm
        rw [hq]
        simp only [Prod.mk.injEq] at hstate
        simp [hstate]

theorem parseParts_eq (parts : List JsString) (out : List Preference) :
    parseParts lower parts out =
      out ++ (parts.filterMap (rangeOf lower)).mapIdx
        fun i range => { range with order := out.length + i } := by
  induction parts generalizing out with
  | nil => simp [parseParts]
  | cons part parts ih =>
      rw [parseParts, parseEntry_eq]
      cases hrange : rangeOf lower part with
      | none =>
          rw [List.filterMap_cons_none hrange]
          exact ih out
      | some range =>
          rw [List.filterMap_cons_some hrange, Option.map_some]
          dsimp only
          rw [ih, List.mapIdx_cons, List.append_assoc, List.singleton_append, List.length_append,
            List.length_singleton]
          simp only [Nat.add_assoc, Nat.add_comm 1]
          rfl

/-- The entries of a header are its ranges. -/
theorem parsePreferenceEntries_eq {header : JsString} (h : header ≠ []) :
    parsePreferenceEntries lower (some header) = ranges lower header := by
  rw [parsePreferenceEntries, if_neg h, parseParts_eq, List.nil_append, ranges]
  simp

/-- The ranges stand in the order of their numbers. -/
theorem ranges_ordered (header : JsString) :
    (ranges lower header).Pairwise fun a b => a.order < b.order := by
  rw [ranges, List.pairwise_iff_getElem]
  intro i j hi hj hlt
  rw [List.getElem_mapIdx, List.getElem_mapIdx]
  exact hlt

end Keala.Negotiation
