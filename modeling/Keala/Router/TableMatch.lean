import Keala.Router.TableSource
import Keala.Router.StaticKey

/-!
What the table regex matches. An alternative reads the raw parts of a path one
by one, and what its groups capture is what the trie captures from the decoded
segments.
-/

namespace Keala.Router

open Keala.Js

/-! ### Alternatives -/

def routeText (parts : List JsString) : JsString := parts.flatMap (slash :: ·)

/-- What an alternative captures from the raw parts of a path; the trailing
slash makes one more, empty part. -/
def rawCaptures : List CompiledSegment → List JsString → Option (List JsString)
  | [], parts => if parts = [] ∨ parts = [[]] then some [] else none
  | .static _ :: _, [] => none
  | .static value :: segments, part :: parts =>
      if value = part then rawCaptures segments parts else none
  | .param _ _ _ :: _, [] => none
  | .param _ _ _ :: segments, part :: parts =>
      if part = [] then none else (rawCaptures segments parts).map (part :: ·)
  | .wildcard :: _, [] => none
  | .wildcard :: _, part :: parts => some [join slash (part :: parts)]

def setGroups (groups : ℕ → Option JsString) : ℕ → List JsString → ℕ → Option JsString
  | _, [] => groups
  | k, value :: values =>
      setGroups (Function.update groups (k + 1) (some value)) (k + 1) values

structure Readable (part : JsString) : Prop where
  no_slash : slash ∉ part
  no_terminator : ∀ c ∈ part, isLineTerminator c = false

theorem routeText_cons (part : JsString) (parts : List JsString) :
    routeText (part :: parts) = slash :: (part ++ routeText parts) := rfl

theorem routeText_eq_join (part : JsString) (parts : List JsString) :
    part ++ routeText parts = join slash (part :: parts) := by
  induction parts generalizing part with
  | nil => simp [routeText, join]
  | cons next parts ih => rw [routeText_cons, ih, join_cons_cons]

theorem takeWhile_part {part : JsString} (h : slash ∉ part) (parts : List JsString) :
    (part ++ routeText parts).takeWhile (· != slash) = part ∧
      (part ++ routeText parts).dropWhile (· != slash) = routeText parts := by
  have hall : ∀ c ∈ part, (c != slash) = true := by
    intro c hc
    simpa using fun heq : c = slash => h (heq ▸ hc)
  have hstop : (routeText parts).takeWhile (· != slash) = [] ∧
      (routeText parts).dropWhile (· != slash) = routeText parts := by
    cases parts with
    | nil => exact ⟨rfl, rfl⟩
    | cons next parts => simp [routeText_cons]
  rw [List.takeWhile_append_of_pos hall, List.dropWhile_append_of_pos hall, hstop.1, hstop.2,
    List.append_nil]
  exact ⟨rfl, rfl⟩

structure Fast (segments : List CompiledSegment) : Prop where
  eligible : eligibleCaptures segments ≠ none
  comparable : fastComparable segments = true

theorem Fast.tail {segment : CompiledSegment} {segments : List CompiledSegment}
    (h : Fast (segment :: segments)) (hne : segment ≠ .wildcard) : Fast segments := by
  constructor
  · intro hnone
    apply h.eligible
    cases segment with
    | static value => exact hnone
    | param name pattern optional =>
        rw [eligibleCaptures, hnone]
        split <;> rfl
    | wildcard => exact absurd rfl hne
  · have hall := h.comparable
    rw [fastComparable, List.all_cons, Bool.and_eq_true] at hall
    exact hall.2

theorem Fast.wildcard {segments : List CompiledSegment} (h : Fast (.wildcard :: segments)) :
    segments = [] := by
  by_contra hne
  apply h.eligible
  rw [eligibleCaptures, if_neg hne]

theorem Fast.value {value : JsString} {segments : List CompiledSegment}
    (h : Fast (.static value :: segments)) : slash ∉ value := by
  have hall := h.comparable
  rw [fastComparable, List.all_cons, Bool.and_eq_true] at hall
  simpa using hall.1

theorem routeTerms_cons (k : ℕ) {segment : CompiledSegment} {segments : List CompiledSegment}
    (h : segments ≠ [] ∨ segment ≠ .wildcard) :
    routeTerms k (segment :: segments) =
      segmentTerms k segment ++ routeTerms (k + (paramNamesOf [segment]).length) segments := by
  have hlast : wildLast (segment :: segments) = wildLast segments := by
    rw [wildLast, wildLast]
    cases segments with
    | nil => simpa using h
    | cons next rest => rw [List.getLast?_cons_cons]
  rw [routeTerms, routeTerms, segmentsTerms, hlast, List.append_assoc]

section

variable (length : ℕ)

/-- What follows a segment starts with a slash. -/
theorem complete_routeTerms_ne {a : CodeUnit} (ha : a ≠ slash) (k : ℕ)
    (segments : List CompiledSegment) (text : JsString) (g : ℕ → Option JsString) :
    Regex.complete length (routeTerms k segments) ⟨a :: text, g⟩ = [] := by
  have hclass : (a == slash) = false := by simpa using ha
  cases segments with
  | nil =>
      show Regex.complete length [.opt (· == slash)] ⟨a :: text, g⟩ = []
      rw [Regex.complete_opt, hclass]
      simp
  | cons segment segments =>
      have hhead : ∃ rs, routeTerms k (segment :: segments) = .one (· == slash) :: rs := by
        cases segment <;> exact ⟨_, rfl⟩
      obtain ⟨rs, hrs⟩ := hhead
      rw [hrs, Regex.complete_one_cons, hclass]
      rfl

theorem complete_literal (value text : JsString) (rs : List (Regex CodeUnit))
    (g : ℕ → Option JsString) :
    Regex.complete length (literal value ++ rs) ⟨text, g⟩ =
      if value.isPrefixOf text then Regex.complete length rs ⟨text.drop value.length, g⟩
      else [] := by
  induction value generalizing text with
  | nil => simp [literal]
  | cons c value ih =>
      show Regex.complete length (.one (· == c) :: (literal value ++ rs)) ⟨text, g⟩ = _
      cases text with
      | nil => simp
      | cons a text =>
          rw [Regex.complete_one_cons, ih]
          by_cases hc : c = a
          · subst hc
            simp
          · have hca : (a == c) = false := by simpa using fun h : a = c => hc h.symm
            simp [hca, hc]

/-- A literal reads a part only when it is that part. -/
theorem complete_static {value part : JsString} (hvalue : slash ∉ value) (hpart : slash ∉ part)
    (k : ℕ) (segments : List CompiledSegment) (parts : List JsString)
    (g : ℕ → Option JsString) :
    Regex.complete length (literal value ++ routeTerms k segments)
        ⟨part ++ routeText parts, g⟩ =
      if value = part then Regex.complete length (routeTerms k segments) ⟨routeText parts, g⟩
      else [] := by
  rw [complete_literal]
  by_cases heq : value = part
  · subst heq
    rw [if_pos rfl, if_pos (List.isPrefixOf_iff_prefix.mpr (List.prefix_append ..)),
      List.drop_left]
  · rw [if_neg heq]
    split
    · next hpre =>
        -- A proper prefix of the part leaves a character that is no slash.
        obtain ⟨rest, hrest⟩ := List.isPrefixOf_iff_prefix.mp hpre
        have hread : value.isPrefixOf part = true := by
          have h := (takeWhile_part hpart parts).1
          rw [← hrest, List.takeWhile_append_of_pos fun c hc => by
            simpa using fun h : c = slash => hvalue (h ▸ hc)] at h
          exact List.isPrefixOf_iff_prefix.mpr ⟨_, h⟩
        obtain ⟨tail, rfl⟩ := List.isPrefixOf_iff_prefix.mp hread
        rw [List.append_assoc, List.drop_left]
        cases tail with
        | nil => exact absurd (List.append_nil value).symm heq
        | cons a tail =>
            have ha : a ≠ slash := by
              rintro rfl
              exact hpart (by simp)
            exact complete_routeTerms_ne length ha k segments _ g
    · rfl

/-- An alternative matches exactly the parts it captures from. -/
theorem complete_routeTerms {segments : List CompiledSegment} (hfast : Fast segments) (k : ℕ)
    {parts : List JsString} (hparts : ∀ part ∈ parts, Readable part)
    (g : ℕ → Option JsString) :
    Regex.complete length (routeTerms k segments) ⟨routeText parts, g⟩ =
      ((rawCaptures segments parts).map fun values => ⟨[], setGroups g k values⟩).toList := by
  induction segments generalizing k parts g with
  | nil =>
      have hterms : routeTerms k [] = [.opt (· == slash)] := rfl
      rw [hterms, rawCaptures]
      -- The one slash that the alternative takes at its end.
      cases parts with
      | nil => rfl
      | cons part parts =>
          rw [routeText_cons, Regex.complete_opt]
          have hempty : part ++ routeText parts = [] ↔ part = [] ∧ parts = [] := by
            rw [List.append_eq_nil_iff]
            cases parts <;> simp [routeText]
          by_cases hlast : part = [] ∧ parts = []
          · rw [if_pos ⟨by decide, hempty.mpr hlast⟩, if_pos (by simp [hlast])]
            rfl
          · rw [if_neg fun h => hlast (hempty.mp h.2), if_neg (by simpa using hlast)]
            rfl
  | cons segment segments ih =>
      cases parts with
      | nil =>
          have hhead : ∃ rs, routeTerms k (segment :: segments) = .one (· == slash) :: rs := by
            cases segment <;> exact ⟨_, rfl⟩
          obtain ⟨rs, hrs⟩ := hhead
          have hnil : rawCaptures (segment :: segments) [] = none := by cases segment <;> rfl
          rw [hrs, hnil]
          exact Regex.complete_one_nil ..
      | cons part parts =>
          have hpart := hparts part List.mem_cons_self
          have hrest : ∀ p ∈ parts, Readable p := fun p hp => hparts p (List.mem_cons_of_mem _ hp)
          rw [routeText_cons]
          cases segment with
          | static value =>
              have hterms : routeTerms k (.static value :: segments) =
                  .one (· == slash) :: (literal value ++ routeTerms k segments) :=
                routeTerms_cons k (.inr (by simp))
              rw [hterms, Regex.complete_one_cons, if_pos (by simp),
                complete_static length hfast.value hpart.no_slash, rawCaptures]
              split
              · exact ih (hfast.tail (by simp)) k hrest g
              · rfl
          | param name pattern optional =>
              have hterms : routeTerms k (.param name pattern optional :: segments) =
                  .one (· == slash) :: .group (k + 1) (.plus (· != slash)) ::
                    routeTerms (k + 1) segments :=
                routeTerms_cons k (.inr (by simp))
              -- The group takes the part to its end, which must not be empty.
              obtain ⟨htake, hdrop⟩ := takeWhile_part hpart.no_slash parts
              rw [hterms, Regex.complete_one_cons, if_pos (by simp),
                Regex.complete_group_plus length fun a text g ha =>
                  complete_routeTerms_ne length (by simpa using ha) (k + 1) segments text g,
                htake, hdrop, rawCaptures]
              split
              · rfl
              · rw [ih (hfast.tail (by simp)) (k + 1) hrest, Option.map_map]
                rfl
          | wildcard =>
              -- No part has a line terminator, so the dot takes all that is left.
              obtain rfl := hfast.wildcard
              have hterms : routeTerms k [.wildcard] = [.one (· == slash),
                  .group (k + 1) (.star fun c => !isLineTerminator c)] := rfl
              have hread : ∀ c ∈ part ++ routeText parts, (!isLineTerminator c) = true := by
                intro c hc
                rcases List.mem_append.mp hc with hc | hc
                · simp [hpart.no_terminator c hc]
                · obtain ⟨p, hp, hc⟩ := List.mem_flatMap.mp hc
                  rcases List.mem_cons.mp hc with rfl | hc
                  · rfl
                  · simp [(hrest p hp).no_terminator c hc]
              rw [hterms, Regex.complete_one_cons, if_pos (by simp),
                Regex.complete_group_star length hread, routeText_eq_join]
              rfl

end

/-! ### Groups -/

theorem setGroups_of_le (groups : ℕ → Option JsString) {k j : ℕ} (values : List JsString)
    (h : j ≤ k) : setGroups groups k values j = groups j := by
  induction values generalizing groups k with
  | nil => rfl
  | cons value values ih =>
      rw [setGroups, ih _ (by omega), Function.update_of_ne (by omega)]

theorem setGroups_getElem? (groups : ℕ → Option JsString) (k : ℕ) {values : List JsString}
    {i : ℕ} {value : JsString} (h : values[i]? = some value) :
    setGroups groups k values (i + (k + 1)) = some value := by
  induction values generalizing groups k i with
  | nil => cases h
  | cons v values ih =>
      rw [setGroups]
      cases i with
      | zero =>
          cases h
          rw [Nat.zero_add, setGroups_of_le _ _ (Nat.le_refl _), Function.update_self]
      | succ i =>
          have hnext : i + 1 + (k + 1) = i + (k + 1 + 1) := by omega
          rw [hnext]
          exact ih _ _ h

theorem rawCaptures_length {segments : List CompiledSegment} (hfast : Fast segments)
    {parts values : List JsString} (h : rawCaptures segments parts = some values) :
    values.length = (paramNamesOf segments).length := by
  fun_induction rawCaptures segments parts generalizing values with
  | case1 => cases h; rfl
  | case2 => cases h
  | case3 => cases h
  | case4 part segments parts ih => exact ih (hfast.tail (by simp)) h
  | case5 => cases h
  | case6 => cases h
  | case7 => cases h
  | case8 name pattern optional segments part parts hpart ih =>
      obtain ⟨values', hvalues, rfl⟩ := Option.map_eq_some_iff.mp h
      rw [List.length_cons, ih (hfast.tail (by simp)) hvalues]
      rfl
  | case9 => cases h
  | case10 segments part parts =>
      obtain rfl := hfast.wildcard
      cases h
      rfl

/-- The first alternative that captures answers, and sets its own groups. -/
theorem complete_alternatives (length k : ℕ) {entries : List EligiblePattern}
    (hfast : ∀ entry ∈ entries, Fast entry.segments) {parts : List JsString}
    (hparts : ∀ part ∈ parts, Readable part) {run : Regex.Run CodeUnit}
    (h : ((alternatives k entries).flatMap fun r =>
      Regex.complete length [r] ⟨routeText parts, fun _ => none⟩).head? = some run) :
    ∃ before entry behind values, entries = before ++ entry :: behind ∧
      (∀ e ∈ before, rawCaptures e.segments parts = none) ∧
      rawCaptures entry.segments parts = some values ∧
      run = ⟨[], setGroups (fun _ => none) (k + groupCount before) values⟩ := by
  induction entries generalizing k with
  | nil => cases h
  | cons entry entries ih =>
      have hhead : Regex.complete length [Regex.seqOf (routeTerms k entry.segments)]
          ⟨routeText parts, fun _ => none⟩ = _ :=
        complete_routeTerms length (hfast entry List.mem_cons_self) k hparts fun _ => none
      rw [alternatives, List.flatMap_cons, hhead] at h
      cases hcaptures : rawCaptures entry.segments parts with
      | some values =>
          rw [hcaptures] at h
          cases h
          exact ⟨[], entry, entries, values, rfl, by simp, hcaptures, rfl⟩
      | none =>
          rw [hcaptures] at h
          obtain ⟨before, e, behind, values, rfl, hnone, hsome, rfl⟩ :=
            ih _ (fun e he => hfast e (List.mem_cons_of_mem _ he)) h
          refine ⟨entry :: before, e, behind, values, rfl, ?_, hsome, ?_⟩
          · intro b hb
            rcases List.mem_cons.mp hb with rfl | hb
            · exact hcaptures
            · exact hnone b hb
          · rw [groupCount_cons, Nat.add_assoc]

/-! ### The match product -/

def EndsOnce (path : JsString) : Prop :=
  ¬(path.getLast? = some slash ∧ 1 < path.length ∧ path.dropLast.getLast? = some slash)

def trimSlash (capture : JsString) : JsString :=
  if 1 < capture.length ∧ capture.getLast? = some slash then capture.dropLast else capture

def trimmed (segments : List CompiledSegment) (path : JsString) (values : List JsString) :
    List JsString :=
  if wildLast segments = true ∧ path.getLast? = some slash ∧ 1 < path.length then
    values.modify (values.length - 1) trimSlash
  else values

/-- The first route of the table whose alternative captures answers. -/
structure TableAnswer (entries : List EligiblePattern) (path : JsString) (parts : List JsString)
    (m : RouteMatch) (before : List EligiblePattern) (entry : EligiblePattern)
    (behind : List EligiblePattern) (values : List JsString) : Prop where
  split : entries = before ++ entry :: behind
  first : ∀ e ∈ before, rawCaptures e.segments parts = none
  captured : rawCaptures entry.segments parts = some values
  once : EndsOnce path
  target : m.target = entry.target
  names : m.names = routeNames entry.segments
  reads : ∀ (i : ℕ) value, (trimmed entry.segments path values)[i]? = some value →
    m.values[i + m.offset]? = some (some value)

theorem regexRoutes_append (k : ℕ) (xs ys : List EligiblePattern) :
    regexRoutes k (xs ++ ys) = regexRoutes k xs ++ regexRoutes (k + groupCount xs) ys := by
  induction xs generalizing k with
  | nil => rfl
  | cons x xs ih =>
      rw [List.cons_append, regexRoutes, regexRoutes, ih, groupCount_cons, Nat.add_assoc]
      rfl

theorem groupStart_le (k : ℕ) {xs : List EligiblePattern}
    (hsome : ∀ x ∈ xs, 0 < (routeNames x.segments).length) :
    ∀ route ∈ regexRoutes k xs, 0 < route.groupStart ∧ route.groupStart ≤ k + groupCount xs := by
  induction xs generalizing k with
  | nil => intro route hroute; cases hroute
  | cons x xs ih =>
      intro route hroute
      have hx := hsome x List.mem_cons_self
      rw [groupCount_cons]
      rcases List.mem_cons.mp hroute with rfl | hroute
      · exact ⟨Nat.succ_pos k, by show k + 1 ≤ _; omega⟩
      · have hrest := ih _ (fun y hy => hsome y (List.mem_cons_of_mem _ hy)) route hroute
        omega

theorem groupCount_append (xs ys : List EligiblePattern) :
    groupCount (xs ++ ys) = groupCount xs + groupCount ys := by
  simp [groupCount]

/-- What `exec` returns, by the groups of the run. -/
theorem exec_getElem? (whole : JsString) (groups : ℕ → Option JsString) {captures j : ℕ}
    (hpos : 0 < j) (hle : j ≤ captures) :
    (some whole :: (List.range captures).map fun i => groups (i + 1))[j]? = some (groups j) := by
  obtain ⟨i, rfl⟩ : ∃ i, j = i + 1 := ⟨j - 1, by omega⟩
  rw [List.getElem?_cons_succ, List.getElem?_map, List.getElem?_range (by omega)]
  rfl

/-- The anchored alternation matches by the first alternative that captures. -/
theorem exec_table {entries : List EligiblePattern} (hne : entries ≠ [])
    (hfast : ∀ e ∈ entries, Fast e.segments) {parts : List JsString}
    (hparts : ∀ part ∈ parts, Readable part) {result : List (Option JsString)}
    (h : CompiledRegExp.exec ⟨Regex.seqOf [.start, Regex.altOf (alternatives 0 entries), .stop],
      groupCount entries⟩ (routeText parts) = some result) :
    ∃ before entry behind values, entries = before ++ entry :: behind ∧
      (∀ e ∈ before, rawCaptures e.segments parts = none) ∧
      rawCaptures entry.segments parts = some values ∧
      ∃ whole, result = some whole :: (List.range (groupCount entries)).map fun i =>
        setGroups (fun _ => none) (groupCount before) values (i + 1) := by
  have halts : alternatives 0 entries ≠ [] := by
    cases entries with
    | nil => exact absurd rfl hne
    | cons e entries => exact List.cons_ne_nil _ _
  have hexec := Regex.exec_anchored [Regex.altOf (alternatives 0 entries)] (routeText parts)
  have hcomplete := Regex.complete_altOf (routeText parts).length halts
    ⟨routeText parts, fun _ => none⟩
  rw [Regex.complete] at hcomplete
  rw [hcomplete] at hexec
  change (Regex.exec (Regex.seqOf [.start, Regex.altOf (alternatives 0 entries), .stop])
    (routeText parts)) = _ at hexec
  rw [CompiledRegExp.exec, hexec, Option.map_map, Option.map_eq_some_iff] at h
  obtain ⟨run, hrun, rfl⟩ := h
  obtain ⟨before, entry, behind, values, hsplit, hfirst, hcaptured, rfl⟩ :=
    complete_alternatives _ 0 hfast hparts hrun
  refine ⟨before, entry, behind, values, hsplit, hfirst, hcaptured,
    (routeText parts).take ((routeText parts).length - 0), ?_⟩
  rw [Nat.zero_add]
  rfl

/-- Trimming touches the last capture only. -/
theorem trimCapture_getElem? {route : RegexRoute} {result : List (Option JsString)}
    {values : List JsString} (hlength : values.length = route.names.length)
    (hread : ∀ (i : ℕ) value, values[i]? = some value →
      result[i + route.groupStart]? = some (some value)) {i : ℕ} {value : JsString}
    (h : (values.modify (values.length - 1) trimSlash)[i]? = some value) :
    (trimCapture route result)[i + route.groupStart]? = some (some value) := by
  rw [List.getElem?_modify] at h
  obtain ⟨capture, hcapture, rfl⟩ := Option.map_eq_some_iff.mp h
  have hlt : i < values.length := (List.getElem?_eq_some_iff.mp hcapture).1
  have hlast : values[values.length - 1]? = some values[values.length - 1] :=
    List.getElem?_eq_getElem (by omega)
  have hindex : route.groupStart + route.names.length - 1 =
      values.length - 1 + route.groupStart := by omega
  have hat : at? result (values.length - 1 + route.groupStart) =
      some values[values.length - 1] := by
    rw [at?, hread _ _ hlast]
    rfl
  rw [trimCapture, hindex, hat]
  dsimp only
  by_cases hi : values.length - 1 = i
  · subst hi
    rw [hlast, Option.some.injEq] at hcapture
    subst hcapture
    rw [if_pos rfl, trimSlash]
    split
    · have hbound := (List.getElem?_eq_some_iff.mp (hread _ _ hlast)).1
      rw [List.getElem?_set_self hbound]
    · exact hread _ _ hlast
  · rw [if_neg hi]
    split
    · rw [List.getElem?_set_ne (by omega)]
      exact hread i capture hcapture
    · exact hread i capture hcapture

/-- The route that the scan finds is the one whose alternative matched. -/
theorem find?_regexRoutes {before behind : List EligiblePattern} {entry : EligiblePattern}
    (hsome : ∀ e ∈ before ++ entry :: behind, 0 < (routeNames e.segments).length)
    {values : List JsString} (hvalues : values.length = (routeNames entry.segments).length)
    (whole : JsString) {result : List (Option JsString)}
    (hresult : result = some whole :: (List.range (groupCount (before ++ entry :: behind))).map
      fun i => setGroups (fun _ => none) (groupCount before) values (i + 1)) :
    (regexRoutes 0 (before ++ entry :: behind)).find?
        (fun route => (at? result route.groupStart).isSome) =
      some { target := entry.target, names := routeNames entry.segments
             groupStart := groupCount before + 1, wildLast := wildLast entry.segments } := by
  have hentry := hsome entry (by simp)
  have hcount : groupCount (before ++ entry :: behind) =
      groupCount before + ((routeNames entry.segments).length + groupCount behind) := by
    rw [groupCount_append, groupCount_cons]
  rw [regexRoutes_append, Nat.zero_add, List.find?_append, List.find?_eq_none.mpr,
    Option.none_or, regexRoutes, List.find?_cons_of_pos]
  · have hfirst : values[0]? = some values[0] := List.getElem?_eq_getElem (by omega)
    have hset := setGroups_getElem? (fun _ => none) (groupCount before) hfirst
    rw [Nat.zero_add] at hset
    dsimp only
    rw [at?, hresult, exec_getElem? whole _ (Nat.succ_pos _) (by omega), hset]
    rfl
  · intro route hroute
    obtain ⟨hpos, hle⟩ := groupStart_le 0 (fun e he => hsome e (List.mem_append_left _ he))
      route hroute
    rw [Nat.zero_add] at hle
    rw [at?, hresult, exec_getElem? whole _ hpos (by omega), setGroups_of_le _ _ hle]
    simp

theorem matchTableRegex_some {entries : List EligiblePattern} (hne : entries ≠ [])
    (helig : ∀ e ∈ entries, isRegexEligible e.segments = true ∧ Fast e.segments ∧
      0 < (routeNames e.segments).length)
    {regex : CompiledRegExp} (hregex : compileRegExp (tableSource entries) = some regex)
    {parts : List JsString} (hparts : ∀ part ∈ parts, Readable part) {m : RouteMatch}
    (h : matchTableRegex ⟨regex, regexRoutes 0 entries⟩ (routeText parts) = some m) :
    ∃ before entry behind values,
      TableAnswer entries (routeText parts) parts m before entry behind values := by
  rw [compileRegExp_tableSource hne fun e he => (helig e he).1] at hregex
  cases hregex
  rw [matchTableRegex] at h
  split at h
  · cases h
  · next honce =>
      split at h
      · cases h
      · next result hexec =>
          obtain ⟨before, entry, behind, values, rfl, hfirst, hcaptured, whole, hresult⟩ :=
            exec_table hne (fun e he => (helig e he).2.1) hparts hexec
          obtain ⟨hentry, hfast, hnames⟩ := helig entry (by simp)
          have hlength : values.length = (routeNames entry.segments).length := by
            rw [rawCaptures_length hfast hcaptured, paramNamesOf_eligible hentry]
          dsimp only at h
          rw [find?_regexRoutes (fun e he => (helig e he).2.2) hlength whole hresult,
            Option.map_some, Option.some.injEq] at h
          subst h
          refine ⟨before, entry, behind, values, rfl, hfirst, hcaptured, honce, rfl, rfl, ?_⟩
          have hread : ∀ (i : ℕ) value, values[i]? = some value →
              result[i + (groupCount before + 1)]? = some (some value) := by
            intro i value hi
            have hlt : i < values.length := (List.getElem?_eq_some_iff.mp hi).1
            rw [hresult, exec_getElem? whole _ (by omega) (by
              rw [groupCount_append, groupCount_cons]; omega), setGroups_getElem? _ _ hi]
          intro i value hi
          dsimp only
          rw [trimmed] at hi
          split at hi
          · next htrim =>
              rw [if_pos htrim]
              exact trimCapture_getElem? hlength hread hi
          · next htrim =>
              rw [if_neg htrim]
              exact hread i value hi

end Keala.Router
