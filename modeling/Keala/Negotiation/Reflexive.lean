import Keala.Negotiation.BestMatch
import Keala.Negotiation.MediaType

/-!
A client that names a media type as the server does. The client's side keeps
the quotes of a value and cuts at every semicolon, the server's side does
neither: they agree on values without quotes, one to a name.
-/

namespace Keala.Negotiation

open Keala.Js Keala.Http

variable {lower normalize : JsString → JsString} {score : Preference → JsString → ℕ}

/-! ### One provided value -/

/-- Some range of a positive weight is among the most specific ones. -/
def Accepted (score : Preference → JsString → ℕ) (ranges : List Preference) (target : JsString) :
    Prop :=
  ∃ range ∈ ranges, 0 < score range target ∧ 0 < range.q ∧
    ∀ other ∈ ranges, score other target ≤ score range target

theorem Defines.accepted_iff {ranges : List Preference} {target : JsString} {range : Preference}
    (h : Defines score ranges target range) : Accepted score ranges target ↔ 0 < range.q := by
  constructor
  · rintro ⟨other, hother, -, hq, hmost⟩
    have hrange := hmost range h.mem
    rcases h.first other hother with hless | ⟨-, hless | ⟨heq, -⟩⟩
    · omega
    · exact hq.trans hless
    · exact heq ▸ hq
  · intro hq
    refine ⟨range, h.mem, h.matched, hq, fun other hother => ?_⟩
    rcases h.first other hother with hless | ⟨heq, -⟩ <;> omega

theorem pickPreference_lone {header value : JsString} (hheader : header ≠ [])
    (hvalue : normalize value ≠ []) :
    pickPreference lower (some header) [value] normalize score = some value ↔
      Accepted score (ranges lower header) (normalize value) := by
  have hfound : Found score (ranges lower header) (normalize value)
      (definingMatch score (ranges lower header) (normalize value)) :=
    definingMatch_found _ (ranges_ordered header)
  rw [pickPreference, if_neg (by simpa using hheader), parsePreferenceEntries_eq hheader]
  change ((pickStep normalize score (ranges lower header) ⟨none, 0, 0, ⊤⟩ (value, 0)).index.bind
    fun index => [value][index]?) = some value ↔ _
  rw [pickStep, if_neg hvalue]
  dsimp only
  generalize definingMatch score (ranges lower header) (normalize value) = found at hfound
  obtain ⟨range, s⟩ := found
  cases range with
  | none =>
      refine iff_of_false (fun h => by cases h) ?_
      rintro ⟨range, hrange, hmatched, -⟩
      rw [hfound.2 range hrange] at hmatched
      exact absurd hmatched (Nat.lt_irrefl 0)
  | some range =>
      rw [hfound.2.accepted_iff]
      dsimp only
      by_cases hq : 0 < range.q
      · have hbeats : beats range s ⟨none, 0, 0, ⊤⟩ = true := by simp [beats, hq]
        rw [if_neg (not_le.mpr hq), if_pos hbeats]
        exact iff_of_true rfl hq
      · rw [if_pos (not_lt.mp hq)]
        exact iff_of_false (fun h => by cases h) hq

/-- The numbers of the ranges do not matter to a score that does not read them. -/
theorem accepted_ranges {header target : JsString} :
    Accepted (mediaScore lower) (ranges lower header) target ↔
      Accepted (mediaScore lower) ((splitHeader header).filterMap (rangeOf lower)) target := by
  rw [ranges]
  generalize (splitHeader header).filterMap (rangeOf lower) = parts
  have hscore : ∀ (range : Preference) (i : ℕ),
      mediaScore lower { range with order := i } target = mediaScore lower range target :=
    fun _ _ => rfl
  constructor
  · rintro ⟨numbered, hnumbered, hmatched, hq, hmost⟩
    obtain ⟨i, hi, rfl⟩ := List.mem_mapIdx.mp hnumbered
    refine ⟨parts[i], List.getElem_mem hi, hmatched, hq, fun other hother => ?_⟩
    obtain ⟨j, hj, rfl⟩ := List.mem_iff_getElem.mp hother
    exact hmost { parts[j] with order := j } (List.mem_mapIdx.mpr ⟨j, hj, rfl⟩)
  · rintro ⟨range, hrange, hmatched, hq, hmost⟩
    obtain ⟨i, hi, rfl⟩ := List.mem_iff_getElem.mp hrange
    refine ⟨{ parts[i] with order := i }, List.mem_mapIdx.mpr ⟨i, hi, rfl⟩, hmatched, hq, ?_⟩
    intro numbered hnumbered
    obtain ⟨j, hj, rfl⟩ := List.mem_mapIdx.mp hnumbered
    exact hmost parts[j] (List.getElem_mem hj)

/-- A range that does not match changes nothing. -/
theorem accepted_cons {range : Preference} {ranges : List Preference} {target : JsString}
    (h : score range target = 0) :
    Accepted score (range :: ranges) target ↔ Accepted score ranges target := by
  constructor
  · rintro ⟨found, hfound, hmatched, hq, hmost⟩
    rcases List.mem_cons.mp hfound with rfl | hrest
    · omega
    · exact ⟨found, hrest, hmatched, hq, fun other hother =>
        hmost other (List.mem_cons_of_mem _ hother)⟩
  · rintro ⟨found, hfound, hmatched, hq, hmost⟩
    refine ⟨found, List.mem_cons_of_mem _ hfound, hmatched, hq, fun other hother => ?_⟩
    rcases List.mem_cons.mp hother with rfl | hrest
    · omega
    · exact hmost other hrest

/-! ### The client's cut -/

theorem split_render {ps : List Parameter} (htokens : ∀ p ∈ ps, isToken p.value = true)
    {current behind : JsString} (hcurrent : (59 : CodeUnit) ∉ current)
    (hbehind : (59 : CodeUnit) ∉ behind) :
    split 59 (current ++ (ps.flatMap Parameter.render ++ behind)) =
      (current ++ lead behind ps) :: segments behind ps := by
  have hlone : ∀ {t : JsString}, (59 : CodeUnit) ∉ t → split 59 t = [t] :=
    fun h => List.splitOn_eq_singleton h
  induction ps generalizing current with
  | nil =>
      rw [List.flatMap_nil, List.nil_append, lead, hlone]
      · rfl
      · rw [List.mem_append, not_or]
        exact ⟨hcurrent, hbehind⟩
  | cons p ps ih =>
      have hbefore : (59 : CodeUnit) ∉ current ++ p.before := by
        rw [List.mem_append, not_or]
        exact ⟨hcurrent, not_mem_ows p.before_blank (by decide)⟩
      have htext : (59 : CodeUnit) ∉ p.after ++ p.text := by
        rw [Parameter.text, List.mem_append, List.mem_append, List.mem_cons]
        rintro (h | h | h | h)
        · exact not_mem_ows p.after_blank (by decide) h
        · exact not_mem_token p.name_token (by decide) h
        · cases h
        · exact not_mem_token (htokens p List.mem_cons_self) (by decide) h
      have hshape : current ++ ((p :: ps).flatMap Parameter.render ++ behind) =
          (current ++ p.before) ++ 59 ::
            ((p.after ++ p.text) ++ (ps.flatMap Parameter.render ++ behind)) := by
        rw [List.flatMap_cons, Parameter.render]
        simp only [List.append_assoc, List.cons_append]
      rw [hshape, split_append_cons, hlone hbefore,
        ih (fun q hq => htokens q (List.mem_cons_of_mem _ hq)) htext]
      rfl

/-- What follows the equals sign of a segment is its value. -/
theorem parameterOf_open (hlower : LowersLatin lower) (p : Parameter) (rest : JsString) :
    parameterOf lower (p.after ++ (p.name ++ 61 :: rest)) =
      some (p.name.map lowerUnit, rest.rdropWhile isSpace) := by
  have hspaceless := token_spaceless p.name_token
  have htrim : trim (p.after ++ (p.name ++ 61 :: rest)) =
      p.name ++ 61 :: rest.rdropWhile isSpace := by
    rw [trim_blank_append (ows_blank p.after_blank)]
    exact trim_append_cons (fun c hc => hspaceless c (List.mem_of_mem_head? hc)) rfl
  rw [parameterOf, htrim, indexOf_append_cons (equals_not_mem_token p.name_token), Option.map_some,
    List.take_left, trim_of_no_space hspaceless, (lower_name hlower p.name_token).1,
    ← List.drop_drop, List.drop_left]
  rfl

theorem rdropWhile_value (p : Parameter) {behind : JsString} (h : ∀ c ∈ behind, isOws c = true) :
    (p.value ++ behind).rdropWhile isSpace = p.value := by
  rw [rdropWhile_append_of_forall (ows_blank h), List.rdropWhile_eq_self_iff]
  intro hne
  have hlast : p.value.getLast hne ∈ (trim p.value).getLast? := by
    rw [trim_value p.value_formed, List.getLast?_eq_some_getLast hne]
    rfl
  simpa using trim_getLast? hlast

/-- A segment gives its parameter back, the quotes with the value. -/
theorem parameterOf_segment (hlower : LowersLatin lower) (p : Parameter) {behind : JsString}
    (h : ∀ c ∈ behind, isOws c = true) :
    parameterOf lower (p.after ++ p.text ++ behind) = some (p.name.map lowerUnit, p.value) := by
  have hshape : p.after ++ p.text ++ behind = p.after ++ (p.name ++ 61 :: (p.value ++ behind)) := by
    simp only [Parameter.text, List.append_assoc, List.cons_append]
  rw [hshape, parameterOf_open hlower, rdropWhile_value p h]

theorem parameters_segments (hlower : LowersLatin lower) (ps : List Parameter) {behind : JsString}
    (h : ∀ c ∈ behind, isOws c = true) :
    (segments behind ps).filterMap (parameterOf lower) =
      ps.map fun p => (p.name.map lowerUnit, p.value) := by
  induction ps with
  | nil => rfl
  | cons p ps ih =>
      rw [segments, List.filterMap_cons_some (parameterOf_segment hlower p (lead_blank h ps)), ih]
      rfl

/-! ### The client's range -/

theorem isWeight_name (p : Parameter) (value : JsString) :
    isWeight (p.name.map lowerUnit, value) = false :=
  decide_eq_false p.name_unweighted

def Parameter.constraint (p : Parameter) : JsString := p.name.map lowerUnit ++ 61 :: p.value

theorem name_ne_nil (p : Parameter) : p.name.map lowerUnit ≠ [] := by
  have htoken := isToken_lower p.name_token
  rw [isToken, Bool.and_eq_true, decide_eq_true_eq] at htoken
  exact htoken.1

theorem constraints_cons (p : Parameter) (value : JsString) (more : List (JsString × JsString)) :
    constraints ((p.name.map lowerUnit, value) :: more) =
      (p.name.map lowerUnit ++ 61 :: trim value) :: constraints more := by
  rw [constraints, List.takeWhile_cons, isWeight_name, Bool.not_false, if_pos rfl,
    List.filter_cons, if_pos (by simpa using name_ne_nil p), List.map_cons]
  rfl

/-- In front of anything, parameters that are no weights are constraints. -/
theorem constraints_append (ps : List Parameter) (more : List (JsString × JsString)) :
    constraints ((ps.map fun p => (p.name.map lowerUnit, p.value)) ++ more) =
      ps.map Parameter.constraint ++ constraints more := by
  induction ps with
  | nil => rfl
  | cons p ps ih =>
      rw [List.map_cons, List.cons_append, constraints_cons, ih,
        trim_value p.value_formed]
      rfl

theorem addConstraints_some {added : List JsString} (h : added ≠ []) :
    addConstraints none added = some added :=
  if_neg h

theorem quality_append (ps : List Parameter) (more : List (JsString × JsString)) :
    quality ((ps.map fun p => (p.name.map lowerUnit, p.value)) ++ more) = quality more := by
  induction ps with
  | nil => rfl
  | cons p ps ih =>
      rw [quality] at ih ⊢
      rw [List.map_cons, List.cons_append, List.find?_cons_of_neg (by simp [isWeight_name]), ih]

theorem rangeOf_params {ps : List Parameter} {part value : JsString} {cut : List JsString}
    {more : List (JsString × JsString)} (hcut : split 59 part = value :: cut)
    (hvalue : lower (trim value) ≠ [])
    (hparams : cut.filterMap (parameterOf lower) =
      (ps.map fun p => (p.name.map lowerUnit, p.value)) ++ more) :
    rangeOf lower part = (quality more).map fun q =>
      ⟨lower (trim value), q, 0,
        addConstraints none (ps.map Parameter.constraint ++ constraints more)⟩ := by
  rw [rangeOf, hcut, List.headD_cons, if_neg hvalue, List.tail_cons, hparams, quality_append,
    constraints_append]

/-! ### The first piece -/

/-- Outside quotes, text without a comma is kept. -/
theorem splitQuoted_plain {t : JsString} (h : ∀ c ∈ t, c ≠ 34 ∧ c ≠ 44) (rest current : JsString) :
    splitQuoted (t ++ rest) current false = splitQuoted rest (current ++ t) false := by
  induction t generalizing current with
  | nil => rw [List.nil_append, List.append_nil]
  | cons c t ih =>
      obtain ⟨hquote, hcomma⟩ := h c List.mem_cons_self
      rw [List.cons_append, splitQuoted, if_neg hquote,
        if_neg (by simp [hcomma]), ih fun d hd => h d (List.mem_cons_of_mem _ hd),
        List.append_assoc, List.singleton_append]

theorem splitQuoted_uncut {header : JsString} (h : (44 : CodeUnit) ∉ header) (current : JsString)
    (quoted : Bool) : splitQuoted header current quoted = [current ++ header] := by
  induction header generalizing current quoted with
  | nil => rw [splitQuoted, List.append_nil]
  | cons c header ih =>
      rw [List.mem_cons, not_or] at h
      rw [splitQuoted, if_neg (by simp [Ne.symm h.1]), ih h.2, List.append_assoc,
        List.singleton_append]

/-- The first piece begins with what the scan has read. -/
theorem splitQuoted_lead (header current : JsString) (quoted : Bool) :
    ∃ y more, splitQuoted header current quoted = (current ++ y) :: more ∧
      ∀ c ∈ y, c ∈ header := by
  induction header generalizing current quoted with
  | nil => exact ⟨[], [], by rw [splitQuoted, List.append_nil], fun _ h => h⟩
  | cons ch header ih =>
      rw [splitQuoted]
      generalize (if ch = 34 then !quoted else quoted) = now
      split
      · exact ⟨[], _, by rw [List.append_nil], fun _ h => absurd h List.not_mem_nil⟩
      · obtain ⟨y, more, hcut, hmem⟩ := ih (current ++ [ch]) now
        refine ⟨ch :: y, more, ?_, ?_⟩
        · rw [hcut, List.append_assoc, List.singleton_append]
        · exact List.forall_mem_cons.mpr
            ⟨List.mem_cons_self, fun c hc => List.mem_cons_of_mem _ (hmem c hc)⟩

theorem splitHeader_eq (header : JsString) : splitHeader header = splitQuoted header [] false := by
  rw [splitHeader]
  split
  · rfl
  · next h => rw [splitQuoted_uncut h, List.nil_append]

/-- Likewise of the first segment. -/
theorem split_lead {sep : CodeUnit} {text : JsString} (h : sep ∉ text) (rest : JsString) :
    ∃ y more, split sep (text ++ rest) = (text ++ y) :: more ∧ ∀ c ∈ y, c ∈ rest := by
  induction text with
  | nil =>
      cases hcut : split sep rest with
      | nil => exact absurd hcut (split_ne_nil sep rest)
      | cons y more =>
          have hy : y ∈ split sep rest := hcut ▸ List.mem_cons_self
          exact ⟨y, more, hcut, fun c hc => mem_of_mem_split hy hc⟩
  | cons c text ih =>
      rw [List.mem_cons, not_or] at h
      obtain ⟨y, more, hcut, hmem⟩ := ih h.2
      refine ⟨y, more, ?_, hmem⟩
      rw [split] at hcut ⊢
      rw [List.cons_append, List.splitOn_cons_eq_if_modifyHead,
        if_neg (by simpa using Ne.symm h.1), hcut]
      rfl

/-- The first parameter with a quoted string. -/
theorem exists_first_quoted {ps : List Parameter} (h : ¬∀ p ∈ ps, isToken p.value = true) :
    ∃ front p back, ps = front ++ p :: back ∧ (∀ q ∈ front, isToken q.value = true) ∧
      IsQuotedString p.value := by
  induction ps with
  | nil => exact absurd (fun _ hp => absurd hp List.not_mem_nil) h
  | cons p ps ih =>
      rcases p.value_formed with htoken | hquoted
      · have hrest : ¬∀ q ∈ ps, isToken q.value = true :=
          fun hall => h (List.forall_mem_cons.mpr ⟨htoken, hall⟩)
        obtain ⟨front, q, back, rfl, hfront, hq⟩ := ih hrest
        exact ⟨p :: front, q, back, rfl, List.forall_mem_cons.mpr ⟨htoken, hfront⟩, hq⟩
      · exact ⟨[], p, ps, rfl, fun _ hq => absurd hq List.not_mem_nil, hquoted⟩

theorem token_uncut {t : JsString} (h : isToken t = true) : ∀ c ∈ t, c ≠ 34 ∧ c ≠ 44 := by
  rw [isToken, Bool.and_eq_true, List.all_eq_true] at h
  exact fun c hc => ⟨ne_of_tokenChar (h.2 c hc) (by decide), ne_of_tokenChar (h.2 c hc) (by decide)⟩

theorem ows_uncut {t : JsString} (h : ∀ c ∈ t, isOws c = true) : ∀ c ∈ t, c ≠ 34 ∧ c ≠ 44 := by
  intro c hc
  have hows := h c hc
  rw [isOws, Bool.or_eq_true, decide_eq_true_eq, decide_eq_true_eq] at hows
  rcases hows with rfl | rfl <;> decide

theorem essence_uncut (T : MediaType) : ∀ c ∈ T.essence, c ≠ 34 ∧ c ≠ 44 := by
  rw [MediaType.essence, List.forall_mem_append, List.forall_mem_cons]
  exact ⟨token_uncut T.type_token, by decide, token_uncut T.subtype_token⟩

theorem tokens_uncut {ps : List Parameter} (h : ∀ p ∈ ps, isToken p.value = true) :
    ∀ c ∈ ps.flatMap Parameter.render, c ≠ 34 ∧ c ≠ 44 := by
  intro c hc
  obtain ⟨p, hp, hc⟩ := List.mem_flatMap.mp hc
  have hrender : ∀ c ∈ p.render, c ≠ 34 ∧ c ≠ 44 := by
    simp only [Parameter.render, Parameter.text, List.forall_mem_append, List.forall_mem_cons]
    exact ⟨ows_uncut p.before_blank, by decide, ows_uncut p.after_blank,
      token_uncut p.name_token, by decide, token_uncut (h p hp)⟩
  exact hrender c hc

/-- Up to its first quote a header is one piece. -/
theorem splitHeader_open {front : JsString} (h : ∀ c ∈ front, c ≠ 34 ∧ c ≠ 44) (rest : JsString) :
    ∃ y more, splitHeader (front ++ 34 :: rest) = (front ++ 34 :: y) :: more ∧
      ∀ c ∈ y, c ∈ rest := by
  obtain ⟨y, more, hcut, hmem⟩ := splitQuoted_lead rest (front ++ [34]) true
  refine ⟨y, more, ?_, hmem⟩
  rw [splitHeader_eq, splitQuoted_plain h, List.nil_append, splitQuoted, if_pos rfl,
    if_neg (by decide)]
  change splitQuoted rest (front ++ [34]) true = _
  rw [hcut, List.append_assoc, List.singleton_append]

theorem lower_essence (hlower : LowersLatin lower) (T : MediaType) {behind : JsString}
    (h : ∀ c ∈ behind, isOws c = true) (ps : List Parameter) :
    lower (trim (T.essence ++ lead behind ps)) = T.essence.map lowerUnit := by
  rw [trim_append_blank (ows_blank (lead_blank h ps)), trim_essence,
    hlower T.essence T.essence_latin]

theorem essence_ne_nil (T : MediaType) : T.essence.map lowerUnit ≠ [] := by
  rw [MediaType.essence, List.map_append]
  exact List.append_ne_nil_of_right_ne_nil _ (List.cons_ne_nil _ _)

theorem trim_quote (text : JsString) : trim (34 :: text) = 34 :: text.rdropWhile isSpace :=
  @trim_append_cons [] text 34 (fun _ h => by cases h) rfl

/-- The value of a constraint that a quoted string leaves begins with its quote. -/
theorem constraint_open (hlower : LowersLatin lower) {T : MediaType} {front : List Parameter}
    (hfront : ∀ q ∈ front, isToken q.value = true) (p : Parameter) {y : JsString}
    (hlatin : ∀ c ∈ y, isLatin c = true) {range : Preference}
    (h : rangeOf lower (T.essence ++ (front.flatMap Parameter.render ++ p.before) ++
      59 :: (p.after ++ (p.name ++ [61, 34]) ++ y)) = some range) :
    ∃ params w, range.params = some params ∧ p.name.map lowerUnit ++ 61 :: 34 :: w ∈ params ∧
      ∀ c ∈ w, isLatin c = true := by
  have hopen : (59 : CodeUnit) ∉ p.after ++ (p.name ++ [61, 34]) := by
    rw [List.mem_append, List.mem_append]
    rintro (h | h | h)
    · exact not_mem_ows p.after_blank (by decide) h
    · exact not_mem_token p.name_token (by decide) h
    · revert h
      decide
  obtain ⟨z, more, hcut, hz⟩ := split_lead hopen y
  have hsplit : split 59 (T.essence ++ (front.flatMap Parameter.render ++ p.before) ++
      59 :: (p.after ++ (p.name ++ [61, 34]) ++ y)) = (T.essence ++ lead p.before front) ::
        (segments p.before front ++ (p.after ++ (p.name ++ [61, 34]) ++ z) :: more) := by
    rw [split_append_cons, hcut, split_render hfront (semicolon_not_mem_essence T)
      (not_mem_ows p.before_blank (by decide)), List.cons_append]
  have hparam : parameterOf lower (p.after ++ (p.name ++ [61, 34]) ++ z) =
      some (p.name.map lowerUnit, 34 :: z.rdropWhile isSpace) := by
    have hread := parameterOf_open hlower p (34 :: z)
    change _ = some (_, trim (34 :: z)) at hread
    rw [← trim_quote, ← hread]
    simp only [List.append_assoc, List.cons_append, List.nil_append]
  have hessence := lower_essence hlower T p.before_blank front
  have hrange := rangeOf_params hsplit (hessence ▸ essence_ne_nil T)
    (by rw [List.filterMap_append, parameters_segments hlower front p.before_blank,
      List.filterMap_cons_some hparam])
  rw [hrange, constraints_cons, addConstraints_some
    (List.append_ne_nil_of_right_ne_nil _ (List.cons_ne_nil _ _))] at h
  obtain ⟨q, -, rfl⟩ := Option.map_eq_some_iff.mp h
  refine ⟨_, (z.rdropWhile isSpace).rdropWhile isSpace, rfl, ?_, ?_⟩
  · rw [trim_quote]
    exact List.mem_append_right _ List.mem_cons_self
  · intro c hc
    apply hlatin c
    apply hz c
    exact (List.rdropWhile_prefix _ _).mem ((List.rdropWhile_prefix _ _).mem hc)

/-- A constraint that begins with a quote is on no provided value. -/
theorem mediaScore_open (hlower : LowersLatin lower) {ps : List Parameter} {server type : JsString}
    (hserver : serverMediaOf lower server = (type, recordOf ps)) {range : Preference}
    {params : List JsString} (hparams : range.params = some params) {name w : JsString}
    (hname : (61 : CodeUnit) ∉ name) (hlatin : ∀ c ∈ w, isLatin c = true)
    (h : name ++ 61 :: 34 :: w ∈ params) : mediaScore lower range server = 0 := by
  have hfail : paramsMatch lower (recordOf ps) params = false := by
    rw [paramsMatch, List.all_eq_false]
    refine ⟨_, h, ?_⟩
    rw [indexOf_append_cons hname]
    dsimp only
    rw [← List.drop_drop, List.drop_left, List.take_left, decide_eq_true_eq]
    intro hfound
    refine head_recordOf hfound ?_
    rw [List.drop_succ_cons, List.drop_zero, hlower (34 :: w) (by simpa [isLatin] using hlatin)]
    rfl
  rw [mediaScore, hserver]
  dsimp only
  rw [hparams]
  dsimp only
  rw [hfail, if_neg Bool.false_ne_true]
  exact ite_self 0

/-! ### The text as its own range -/

theorem rangeOf_render (hlower : LowersLatin lower) {T : MediaType}
    (h : ∀ p ∈ T.params, isToken p.value = true) :
    rangeOf lower T.render =
      some ⟨T.essence.map lowerUnit, 1, 0,
        addConstraints none (T.params.map Parameter.constraint)⟩ := by
  have hblank : ∀ c ∈ ([] : JsString), isOws c = true := fun _ hc => absurd hc List.not_mem_nil
  have hsplit := split_render h (semicolon_not_mem_essence T) (List.not_mem_nil (a := 59))
  rw [List.append_nil] at hsplit
  have hessence := lower_essence hlower T hblank T.params
  have hparams := parameters_segments hlower T.params hblank
  rw [← List.append_nil (T.params.map _)] at hparams
  rw [MediaType.render, rangeOf_params hsplit (hessence ▸ essence_ne_nil T) hparams, hessence]
  exact congrArg (fun added => some (Preference.mk _ 1 0 (addConstraints none added)))
    (List.append_nil _)

/-- A type matches itself, also where it has a star. -/
theorem mediaScore_own {range : Preference} {server a b : JsString}
    {record : List (JsString × JsString)}
    (hserver : serverMediaOf lower server = (range.value, record))
    (hvalue : range.value = a ++ 47 :: b) (ha : (47 : CodeUnit) ∉ a) (hb : (47 : CodeUnit) ∉ b) :
    0 < mediaScore lower range server ↔
      ∀ params, range.params = some params → paramsMatch lower record params = true := by
  have hlone : ∀ {t : JsString}, (47 : CodeUnit) ∉ t → split 47 t = [t] :=
    fun h => List.splitOn_eq_singleton h
  have hsplit : split 47 range.value = [a, b] := by
    rw [hvalue, split_append_cons, hlone ha, hlone hb]
    rfl
  -- A subtype that is itself a star scores as a wildcard, and so does a type.
  have hend : endsWith range.value (js "/*") = true →
      some (range.value.take (range.value.length - 2)) = (split 47 range.value)[0]? := by
    intro h
    obtain ⟨front, hfront⟩ := List.isSuffixOf_iff_suffix.mp h
    have hcut : split 47 front ++ [[42]] = [a] ++ [b] := by
      rw [← split_append_cons 47 front [42] |>.trans (congrArg _ (hlone (by decide)))]
      exact (congrArg (split 47) hfront).trans hsplit
    have hfront' : front = a := by
      rw [← join_split 47 front, (List.append_inj' hcut rfl).1,
        join_singleton]
    rw [hsplit, ← hfront, hfront', List.length_append]
    exact congrArg some List.take_left
  have hstart : startsWith range.value (js "*/") = true →
      some (range.value.drop 2) = (split 47 range.value)[1]? := by
    intro h
    obtain ⟨rest, hrest⟩ := startsWith_iff.mp h
    have hcut : [[42]] ++ split 47 rest = [a] ++ [b] := by
      rw [← hlone (show (47 : CodeUnit) ∉ [42] by decide), ← split_append_cons]
      exact (congrArg (split 47) hrest).symm.trans hsplit
    have hrest' : rest = b := by
      rw [← join_split 47 rest, (List.append_inj hcut rfl).2, join_singleton]
    rw [hsplit, hrest, hrest']
    rfl
  have hscore : 0 < (if range.value = js "*" ∨ range.value = js "*/*" then 1
      else if endsWith range.value (js "/*") then
        if some (range.value.take (range.value.length - 2)) = (split 47 range.value)[0]?
          then 2 else 0
      else if startsWith range.value (js "*/") then
        if some (range.value.drop 2) = (split 47 range.value)[1]? then 2 else 0
      else if range.value = range.value then 3 else 0) := by
    -- In every case the score is above zero.
    split
    · exact Nat.one_pos
    · split
      · next h =>
          rw [if_pos (hend h)]
          exact Nat.two_pos
      · split
        · next h =>
            rw [if_pos (hstart h)]
            exact Nat.two_pos
        · rw [if_pos rfl]
          exact Nat.succ_pos 2
  rw [mediaScore, hserver]
  dsimp only
  generalize (if range.value = js "*" ∨ range.value = js "*/*" then 1 else _) = score at hscore ⊢
  rw [if_neg (Nat.ne_of_gt hscore)]
  cases range.params with
  | none => exact iff_of_true hscore fun _ h => by cases h
  | some params =>
      dsimp only
      by_cases hmatch : paramsMatch lower record params = true
      · rw [if_pos hmatch]
        refine iff_of_true ?_ fun _ h => Option.some.inj h ▸ hmatch
        split <;> omega
      · rw [if_neg hmatch]
        exact iff_of_false (Nat.lt_irrefl 0) fun h => hmatch (h params rfl)

/-! ### Its constraints on itself -/

/-- Values without quotes, in any case the same for the same name. -/
structure Plain (T : MediaType) : Prop where
  bare : ∀ p ∈ T.params, ¬Quoted p.value
  agree : ∀ p ∈ T.params, ∀ p' ∈ T.params, p.name.map lowerUnit = p'.name.map lowerUnit →
    p.value.map lowerUnit = p'.value.map lowerUnit

theorem quoted_map {value : JsString} (h : Quoted value) : Quoted (value.map lowerUnit) := by
  obtain ⟨inner, rfl | rfl⟩ := h
  · exact ⟨inner.map lowerUnit, .inl (by rw [List.map_cons, List.map_append]; rfl)⟩
  · exact ⟨inner.map lowerUnit, .inr (by rw [List.map_cons, List.map_append]; rfl)⟩

/-- Quotes that are taken off are missing. -/
theorem length_unquote {value : JsString} (h : Quoted value) :
    (unquote value).length < value.length := by
  obtain ⟨inner, rfl | rfl⟩ := h
  · rw [unquote_between (.inl rfl)]
    simp
  · rw [unquote_between (.inr rfl)]
    simp

/-- The record has some value of every name in it. -/
theorem exists_recorded {ps : List Parameter} {p : Parameter} (hp : p ∈ ps) :
    ∃ r ∈ ps, r.name.map lowerUnit = p.name.map lowerUnit ∧
      OrderedMap.get? (recordOf (ps.map Parameter.lowered)) (p.name.map lowerUnit) =
        some ((unquote (r.value.map lowerUnit)).map lowerUnit) := by
  rw [get?_recordOf]
  cases hfind : (ps.map Parameter.lowered).reverse.find?
      fun r => r.name.map lowerUnit = p.name.map lowerUnit with
  | none =>
      have hnone := List.find?_eq_none.mp hfind p.lowered
        (List.mem_reverse.mpr (List.mem_map_of_mem hp))
      rw [decide_eq_true_eq] at hnone
      exact absurd (map_lower_lower p.name_latin) hnone
  | some found =>
      obtain ⟨r, hr, rfl⟩ := List.mem_map.mp (List.mem_reverse.mp (List.mem_of_find?_eq_some hfind))
      have hname := List.find?_some hfind
      rw [decide_eq_true_eq] at hname
      exact ⟨r, hr, (map_lower_lower r.name_latin).symm.trans hname, rfl⟩

theorem paramsMatch_iff (hlower : LowersLatin lower) {record : List (JsString × JsString)}
    (ps : List Parameter) :
    paramsMatch lower record (ps.map Parameter.constraint) = true ↔
      ∀ p ∈ ps, OrderedMap.get? record (p.name.map lowerUnit) = some (p.value.map lowerUnit) := by
  have hname : ∀ p : Parameter, (61 : CodeUnit) ∉ p.name.map lowerUnit :=
    fun p => not_mem_token (isToken_lower p.name_token) (by decide)
  rw [paramsMatch, List.all_map, List.all_eq_true]
  refine forall₂_congr fun p _ => ?_
  rw [Function.comp_apply, Parameter.constraint, indexOf_append_cons (hname p)]
  dsimp only
  rw [← List.drop_drop, List.drop_left, List.take_left, decide_eq_true_eq, List.drop_succ_cons,
    List.drop_zero, hlower p.value p.value_latin]

theorem paramsMatch_added {record : List (JsString × JsString)} (added : List JsString) :
    (∀ params, addConstraints none added = some params → paramsMatch lower record params = true) ↔
      paramsMatch lower record added = true := by
  cases added with
  | nil => exact iff_of_true (fun _ h => by cases h) rfl
  | cons param added =>
      rw [addConstraints_some (List.cons_ne_nil _ _)]
      exact ⟨fun h => h _ rfl, fun h _ heq => Option.some.inj heq ▸ h⟩

theorem recorded_iff (T : MediaType) :
    (∀ p ∈ T.params, OrderedMap.get? (recordOf (T.params.map Parameter.lowered))
      (p.name.map lowerUnit) = some (p.value.map lowerUnit)) ↔ Plain T := by
  constructor
  · intro hall
    refine ⟨fun p hp hquoted => ?_, fun p hp p' hp' hname => ?_⟩
    · -- The last parameter of the name has the value of all.
      obtain ⟨r, hr, hname, hrecord⟩ := exists_recorded hp
      have hvalue := Option.some.inj ((hall p hp).symm.trans hrecord)
      have hlast := Option.some.inj ((hall r hr).symm.trans (hname ▸ hrecord))
      have hshort : _ < (r.value.map lowerUnit).length :=
        length_unquote (hlast.trans hvalue.symm ▸ quoted_map hquoted)
      exact absurd ((congrArg List.length hlast).trans (List.length_map _)) (Nat.ne_of_gt hshort)
    · have hrecord := hall p' hp'
      rw [← hname, hall p hp] at hrecord
      exact Option.some.inj hrecord
  · intro hplain p hp
    obtain ⟨r, hr, hname, hrecord⟩ := exists_recorded hp
    have hbare : ¬Quoted (r.value.map lowerUnit) :=
      fun h => hplain.bare r hr (quoted_lower r.value_latin h)
    rw [hrecord, unquote_bare hbare, map_lower_lower r.value_latin, hplain.agree r hr p hp hname]

/-! ### Reflexivity -/

/-- Behind a comma that follows an escaped quote stands a range that accepts the type. -/
def Smuggled (lower : JsString → JsString) (T : MediaType) : Prop :=
  Accepted (mediaScore lower) ((splitHeader T.render).tail.filterMap (rangeOf lower))
    (T.render.map lowerUnit)

theorem render_ne_nil (T : MediaType) : T.render ≠ [] := by
  rw [MediaType.render, MediaType.essence, List.append_assoc]
  exact List.append_ne_nil_of_right_ne_nil _ (List.cons_ne_nil _ _)

/-- No shorthand has a slash. -/
theorem expand_render (hlower : LowersLatin lower) (T : MediaType) :
    expand lower T.render = T.render.map lowerUnit := by
  have hslash : (47 : CodeUnit) ∈ T.render.map lowerUnit := by
    rw [MediaType.render, MediaType.essence, List.append_assoc, List.map_append]
    exact List.mem_append_right _ List.mem_cons_self
  have hfree : ∀ {table : List (JsString × JsString)},
      (OrderedMap.keys table).all (fun key => !key.contains 47) = true →
      OrderedMap.get? table (T.render.map lowerUnit) = none := by
    intro table h
    rw [OrderedMap.get?_eq_none_iff]
    intro hkey
    have hcontains := List.all_eq_true.mp h _ hkey
    rw [List.contains_iff_mem.mpr hslash] at hcontains
    cases hcontains
  rw [expand, hlower T.render T.render_latin, expandShorthand, hfree (by decide), hfree (by decide)]
  rfl

theorem serverMediaOf_lowered (hlower : LowersLatin lower) (T : MediaType) :
    serverMediaOf lower (T.render.map lowerUnit) =
      (T.essence.map lowerUnit, recordOf (T.params.map Parameter.lowered)) := by
  rw [← T.render_lowered, serverMediaOf_render hlower T.lowered, ← map_lower_lower T.essence_latin]
  simp only [MediaType.essence, MediaType.lowered, List.map_append, List.map_cons]
  rfl

/-- Without a comma the text is its only range. -/
theorem accepted_tokens (hlower : LowersLatin lower) {T : MediaType}
    (h : ∀ p ∈ T.params, isToken p.value = true) :
    Accepted (mediaScore lower) ((splitHeader T.render).filterMap (rangeOf lower))
      (T.render.map lowerUnit) ↔ Plain T ∨ Smuggled lower T := by
  have hcomma : (44 : CodeUnit) ∉ T.render := by
    rw [MediaType.render, List.mem_append, not_or]
    exact ⟨fun hc => (essence_uncut T 44 hc).2 rfl, fun hc => (tokens_uncut h 44 hc).2 rfl⟩
  have hheader : splitHeader T.render = [T.render] := if_neg hcomma
  have hsmuggled : ¬Smuggled lower T := by
    rw [Smuggled, hheader]
    rintro ⟨range, hrange, -⟩
    cases hrange
  have hmatch := @mediaScore_own _ ⟨T.essence.map lowerUnit, 1, 0,
    addConstraints none (T.params.map Parameter.constraint)⟩ _ _ _ _
    (serverMediaOf_lowered hlower T)
    (by rw [MediaType.essence, List.map_append]; rfl)
    (not_mem_token (isToken_lower T.type_token) (by decide))
    (not_mem_token (isToken_lower T.subtype_token) (by decide))
  rw [paramsMatch_added, paramsMatch_iff hlower, recorded_iff] at hmatch
  rw [hheader, List.filterMap_cons_some (rangeOf_render hlower h), or_iff_left hsmuggled, ← hmatch]
  constructor
  · rintro ⟨range, hrange, hmatched, -⟩
    obtain rfl := List.mem_singleton.mp hrange
    exact hmatched
  · intro hmatched
    refine ⟨_, List.mem_singleton.mpr rfl, hmatched, one_pos, fun other hother => ?_⟩
    obtain rfl := List.mem_singleton.mp hother
    exact Nat.le_refl _

/-- With a quoted string the first piece is no range that matches. -/
theorem accepted_quoted (hlower : LowersLatin lower) {T : MediaType}
    (h : ¬∀ p ∈ T.params, isToken p.value = true) :
    Accepted (mediaScore lower) ((splitHeader T.render).filterMap (rangeOf lower))
      (T.render.map lowerUnit) ↔ Plain T ∨ Smuggled lower T := by
  obtain ⟨front, p, back, hparams, hfront, body, hbody, hvalue⟩ := exists_first_quoted h
  have hplain : ¬Plain T := fun hplain =>
    hplain.bare p (hparams ▸ List.mem_append_right _ List.mem_cons_self) ⟨body, .inl hvalue⟩
  have hshape : T.render = (T.essence ++ (front.flatMap Parameter.render ++ p.before) ++
      59 :: (p.after ++ (p.name ++ [61]))) ++
        34 :: (body ++ [34] ++ back.flatMap Parameter.render) := by
    rw [MediaType.render, hparams, List.flatMap_append, List.flatMap_cons]
    simp only [Parameter.render, Parameter.text, hvalue, List.append_assoc, List.cons_append,
      List.nil_append]
  have huncut : ∀ c ∈ T.essence ++ (front.flatMap Parameter.render ++ p.before) ++
      59 :: (p.after ++ (p.name ++ [61])), c ≠ 34 ∧ c ≠ 44 := by
    simp only [List.forall_mem_append, List.forall_mem_cons]
    exact ⟨⟨essence_uncut T, tokens_uncut hfront, ows_uncut p.before_blank⟩, by decide,
      ows_uncut p.after_blank, token_uncut p.name_token, by decide, by simp⟩
  obtain ⟨y, more, hcut, hmem⟩ := splitHeader_open huncut (body ++ [34] ++ back.flatMap _)
  rw [← hshape] at hcut
  have hlatin : ∀ c ∈ y, isLatin c = true := by
    intro c hc
    apply T.render_latin
    rw [hshape]
    exact List.mem_append_right _ (List.mem_cons_of_mem _ (hmem c hc))
  rw [or_iff_right hplain, Smuggled, hcut, List.tail_cons]
  cases hrange : rangeOf lower _ with
  | none => rw [List.filterMap_cons_none hrange]
  | some range =>
      rw [List.filterMap_cons_some hrange]
      have hpiece : T.essence ++ (front.flatMap Parameter.render ++ p.before) ++
          59 :: (p.after ++ (p.name ++ [61])) ++ 34 :: y =
          T.essence ++ (front.flatMap Parameter.render ++ p.before) ++
            59 :: (p.after ++ (p.name ++ [61, 34]) ++ y) := by
        simp only [List.append_assoc, List.cons_append, List.nil_append]
      rw [hpiece] at hrange
      obtain ⟨params, w, hconstraints, hw, hlatin⟩ :=
        constraint_open hlower hfront p hlatin hrange
      exact accepted_cons (mediaScore_open hlower (serverMediaOf_lowered hlower T) hconstraints
        (not_mem_token (isToken_lower p.name_token) (by decide)) hlatin hw)

/-- A client that names a media type is served it exactly if its values are plain,
or if a quoted string smuggles another range in. -/
theorem acceptsType_self_iff (hlower : LowersLatin lower) (T : MediaType) :
    acceptsType lower (some T.render) [T.render] = some T.render ↔
      Plain T ∨ Smuggled lower T := by
  have hexpand := expand_render hlower T
  have hne : expand lower T.render ≠ [] := by
    rw [hexpand]
    simpa using render_ne_nil T
  rw [acceptsType, pickPreference_lone (render_ne_nil T) hne, accepted_ranges, hexpand]
  by_cases h : ∀ p ∈ T.params, isToken p.value = true
  · exact accepted_tokens hlower h
  · exact accepted_quoted hlower h

-- An escaped quote ends the quotes for the cut at the commas.
example : acceptsType (List.map lowerUnit) (some (js "text/html;x=\"\\\",*/*;\""))
    [js "text/html;x=\"\\\",*/*;\""] = some (js "text/html;x=\"\\\",*/*;\"") := by
  decide +kernel

def levelled : MediaType where
  type := js "text"
  subtype := js "html"
  type_token := by decide
  subtype_token := by decide
  params := [⟨[], [], js "level", js "1", by simp, by simp, by decide, by decide, .inl (by decide)⟩]

theorem acceptsType_self_levelled :
    acceptsType (List.map lowerUnit) (some (js "text/html;level=1")) [js "text/html;level=1"] =
      some (js "text/html;level=1") := by
  have hplain : Plain levelled := by
    refine ⟨fun p hp => ?_, fun p hp p' hp' _ => ?_⟩
    · obtain rfl := List.mem_singleton.mp hp
      rintro ⟨inner, h | h⟩
      · have hhead : (js "1").head? = some 34 := congrArg List.head? h
        exact absurd hhead (by decide)
      · have hhead : (js "1").head? = some 39 := congrArg List.head? h
        exact absurd hhead (by decide)
    · rw [List.mem_singleton.mp hp, List.mem_singleton.mp hp']
  exact (acceptsType_self_iff lowersLatin_map levelled).mpr (.inl hplain)

def quotedType : MediaType where
  type := js "text"
  subtype := js "html"
  type_token := by decide
  subtype_token := by decide
  params := [⟨[], [], js "x", js "\"a\"", by simp, by simp, by decide, by decide,
    .inr ⟨js "a", .text (by decide) .nil, by decide⟩⟩]

theorem acceptsType_self_quoted :
    quotedType.render = js "text/html;x=\"a\"" ∧
      acceptsType (List.map lowerUnit) (some quotedType.render) [quotedType.render] = none := by
  decide +kernel

end Keala.Negotiation
