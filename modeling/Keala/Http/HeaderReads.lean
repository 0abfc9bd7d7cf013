import Keala.Http.Fields

/-!
Reading a `Headers`: what `entries()` yields of it, and what a client reads of a
name once the headers were copied and sent.
-/

namespace Keala.Http

open Keala.Js

/-! ### `entries()` -/

theorem getOf_eq_none_iff (values : List JsString) : getOf values = none ↔ values = [] := by
  cases values with
  | nil => exact ⟨fun _ => rfl, fun _ => rfl⟩
  | cons _ _ => exact ⟨nofun, nofun⟩

theorem values_ne_nil_iff (headers : Headers) (n : JsString) :
    headers.values n ≠ [] ↔ n ∈ headers.entries.map Prod.fst := by
  rw [Headers.values, ne_eq, List.map_eq_nil_iff, List.filter_eq_nil_iff, List.mem_map]
  simp only [decide_eq_true_eq, not_forall, not_not, exists_prop]

theorem has_eq_true_iff (headers : Headers) (n : JsString) :
    headers.has n = true ↔ headers.values n ≠ [] := by
  rw [values_ne_nil_iff, Headers.has, List.any_eq_true, List.mem_map]
  simp only [decide_eq_true_eq]

theorem nodup_eraseDups (names : List JsString) : names.eraseDups.Nodup := by
  induction hlength : names.length using Nat.strong_induction_on generalizing names with
  | _ length ih =>
      cases names with
      | nil => exact List.nodup_nil
      | cons name names =>
          rw [List.eraseDups_cons, List.nodup_cons, List.mem_eraseDups]
          refine ⟨by simp, ih _ ?_ _ rfl⟩
          rw [← hlength, List.length_cons]
          exact Nat.lt_succ_of_le (List.length_filter_le _ _)

def Headers.names (headers : Headers) : List JsString :=
  ((headers.entries.map Prod.fst).eraseDups.filter fun name =>
    !decide (name = js "set-cookie")).mergeSort fun a b => decide (a ≤ b)

theorem combined_eq (headers : Headers) :
    headers.combined =
      headers.names.map fun name => (name, Headers.joinValues (headers.values name)) := rfl

theorem nodup_names (headers : Headers) : headers.names.Nodup :=
  (List.mergeSort_perm _ _).nodup_iff.mpr ((nodup_eraseDups _).filter _)

theorem mem_names (headers : Headers) (n : JsString) :
    n ∈ headers.names ↔ headers.values n ≠ [] ∧ n ≠ js "set-cookie" := by
  rw [Headers.names, List.mem_mergeSort, List.mem_filter, List.mem_eraseDups, values_ne_nil_iff]
  simp only [Bool.not_eq_true', decide_eq_false_iff_not]

theorem get?_map_names (names : List JsString) (f : JsString → JsString) (n : JsString) :
    OrderedMap.get? (names.map fun name => (name, f name)) n =
      if n ∈ names then some (f n) else none := by
  induction names with
  | nil => rfl
  | cons name names ih =>
      rw [List.map_cons, OrderedMap.get?_cons, ih]
      by_cases heq : name = n
      · simp [heq]
      · simp [heq, Ne.symm heq]

theorem get?_combined (headers : Headers) {n : JsString} (h : n ≠ js "set-cookie") :
    OrderedMap.get? headers.combined n = headers.get n := by
  rw [combined_eq, get?_map_names, Headers.get]
  cases hvalues : headers.values n with
  | nil => simp [mem_names, hvalues, getOf]
  | cons value values =>
      rw [if_pos ((mem_names headers n).mpr ⟨by simp [hvalues], h⟩), getOf]
      simp

theorem get?_combined_cookie (headers : Headers) :
    OrderedMap.get? headers.combined (js "set-cookie") = none := by
  rw [combined_eq, get?_map_names, if_neg]
  rw [mem_names]
  exact fun h => h.2 rfl

theorem keys_combined (headers : Headers) : OrderedMap.keys headers.combined = headers.names := by
  rw [combined_eq, OrderedMap.keys, List.map_map]
  exact List.map_id _

/-! ### What a client reads -/

theorem filter_map_names {names : List JsString} (hnodup : names.Nodup)
    (f : JsString → JsString) (n : JsString) :
    ((names.map fun name => (name, f name)).filter fun entry => decide (entry.1 = n)).map Prod.snd =
      if n ∈ names then [f n] else [] := by
  induction names with
  | nil => rfl
  | cons name names ih =>
      rw [List.nodup_cons] at hnodup
      rw [List.map_cons]
      by_cases heq : name = n
      · subst heq
        rw [List.filter_cons_of_pos (by simp), List.map_cons, ih hnodup.2, if_neg hnodup.1]
        simp
      · rw [List.filter_cons_of_neg (by simpa using heq), ih hnodup.2]
        simp [Ne.symm heq]

/-- What a client reads of the values of a name, without the white space that
HTTP takes off: the cookies one by one, the others joined. -/
def readingOf (n : JsString) (values : List JsString) : List JsString :=
  if n = js "set-cookie" then values.map normalized else ((getOf values).map normalized).toList

@[simp] theorem readingOf_nil (n : JsString) : readingOf n [] = [] := by
  rw [readingOf]
  split <;> rfl

@[simp] theorem readingOf_singleton (n value : JsString) :
    readingOf n [value] = [normalized value] := by
  rw [readingOf]
  split <;> rfl

theorem readingOf_readingOf (n : JsString) (values : List JsString) :
    readingOf n (readingOf n values) = readingOf n values := by
  by_cases hcookie : n = js "set-cookie"
  · rw [readingOf, readingOf, if_pos hcookie, if_pos hcookie, List.map_map]
    apply List.map_congr_left
    exact fun value _ => normalized_normalized value
  · rw [readingOf, readingOf, if_neg hcookie, if_neg hcookie]
    cases getOf values with
    | none => rfl
    | some text => exact congrArg (fun text => [text]) (normalized_normalized text)

theorem readingOf_eq_nil_iff (n : JsString) (values : List JsString) :
    readingOf n values = [] ↔ values = [] := by
  rw [readingOf]
  split
  · rw [List.map_eq_nil_iff]
  · rw [Option.toList_eq_nil_iff, Option.map_eq_none_iff, getOf_eq_none_iff]

namespace Headers

def reading (headers : Headers) (n : JsString) : List JsString := readingOf n (headers.values n)

/-- A copy holds of each name what a client reads of it. -/
theorem values_copy (headers : Headers) (n : JsString) :
    headers.copy.values n = headers.reading n := by
  have hmap : ∀ entries : List (JsString × JsString),
      values ⟨entries.map fun entry => (entry.1, normalized entry.2), false⟩ n =
        (values ⟨entries, false⟩ n).map normalized := by
    intro entries
    rw [values, values, List.filter_map, List.map_map, List.map_map]
    rfl
  have hcookies := values_append_entries ⟨headers.combined, false⟩
    (headers.getSetCookie.map fun cookie => (js "set-cookie", cookie)) n
  rw [copy, hmap, hcookies, reading, readingOf]
  by_cases hcookie : n = js "set-cookie"
  · subst hcookie
    have hnone : values ⟨headers.combined, false⟩ (js "set-cookie") = [] := by
      rw [values, combined_eq, filter_map_names (nodup_names headers), if_neg]
      exact fun h => ((mem_names headers _).mp h).2 rfl
    rw [if_pos rfl, hnone, List.nil_append, List.filter_eq_self.mpr, List.map_map, List.map_map]
    · rfl
    · intro entry hentry
      obtain ⟨cookie, -, rfl⟩ := List.mem_map.mp hentry
      exact decide_eq_true rfl
  · have hnone : ((headers.getSetCookie.map fun cookie => (js "set-cookie", cookie)).filter
        fun entry => decide (entry.1 = n)) = [] := by
      apply List.filter_eq_nil_iff.mpr
      intro entry hentry
      obtain ⟨cookie, -, rfl⟩ := List.mem_map.mp hentry
      simpa using Ne.symm hcookie
    rw [if_neg hcookie, hnone, List.map_nil, List.append_nil, values, combined_eq,
      filter_map_names (nodup_names headers)]
    cases hvalues : headers.values n with
    | nil => simp [mem_names, hvalues, getOf]
    | cons value values =>
        rw [if_pos ((mem_names headers n).mpr ⟨by simp [hvalues], hcookie⟩)]
        rfl

@[simp] theorem reading_copy (headers : Headers) (n : JsString) :
    headers.copy.reading n = headers.reading n := by
  rw [reading, values_copy]
  exact readingOf_readingOf n _

theorem reading_eq {n : JsString} (headers : Headers) (hn : n ≠ js "set-cookie") :
    headers.reading n = ((headers.get n).map normalized).toList := by
  rw [reading, readingOf, if_neg hn]
  rfl

theorem reading_cookie (headers : Headers) :
    headers.reading (js "set-cookie") = (headers.values (js "set-cookie")).map normalized := by
  rw [reading, readingOf, if_pos rfl]

theorem reading_eq_iff {a b : Headers} {n : JsString} (hn : n ≠ js "set-cookie") :
    a.reading n = b.reading n ↔ (a.get n).map normalized = (b.get n).map normalized := by
  rw [reading_eq a hn, reading_eq b hn]
  refine ⟨fun h => ?_, congrArg Option.toList⟩
  cases ha : (a.get n).map normalized <;> cases hb : (b.get n).map normalized <;> simp_all

theorem reading_eq_nil_iff (headers : Headers) (n : JsString) :
    headers.reading n = [] ↔ headers.get n = none := by
  rw [reading, readingOf_eq_nil_iff, get, getOf_eq_none_iff]

theorem has_iff_reading (headers : Headers) (n : JsString) :
    headers.has n = true ↔ headers.reading n ≠ [] := by
  rw [has_eq_true_iff, reading, ne_eq, ne_eq, readingOf_eq_nil_iff]

end Headers

/-! ### The joined value -/

theorem joinValues_concat {front : List JsString} (h : front ≠ []) (last : JsString) :
    Headers.joinValues (front ++ [last]) = Headers.joinValues front ++ js ", " ++ last := by
  induction front with
  | nil => exact absurd rfl h
  | cons value front ih =>
      cases front with
      | nil => rfl
      | cons next front =>
          have hrest := ih (List.cons_ne_nil _ _)
          have hnext : ∀ others : List JsString, others ≠ [] →
              Headers.joinValues (value :: others) =
              value ++ js ", " ++ Headers.joinValues others := by
            intro others hothers
            rw [Headers.joinValues]
            exact fun heq => absurd heq hothers
          rw [List.cons_append, hnext _ (by simp), hrest, hnext _ (by simp)]
          simp only [List.append_assoc]

/-- Each item but the first brings a comma. -/
theorem count_joinValues {values : List JsString} (h : values ≠ []) :
    (Headers.joinValues values).count 44 + 1 =
      (values.map fun value => value.count 44 + 1).sum := by
  induction values with
  | nil => exact absurd rfl h
  | cons value values ih =>
      cases values with
      | nil => rfl
      | cons other others =>
          rw [List.map_cons, List.sum_cons, ← ih (List.cons_ne_nil _ _), Headers.joinValues]
          · have hcomma : (js ", ").count 44 = 1 := by decide
            rw [List.count_append, List.count_append, hcomma]
            omega
          · simp

theorem comma_not_space : isHttpSpace 44 = false := by decide

theorem count_normalized (value : JsString) : (normalized value).count 44 = value.count 44 :=
  count_trimBy comma_not_space value

/-- The items that are left out have no comma of their own. -/
theorem sum_filter_count (values : List JsString) :
    (((values.filter fun value => !value.isEmpty).map normalized).map
        fun value => value.count 44 + 1).sum + values.count [] =
      ((values.map normalized).map fun value => value.count 44 + 1).sum := by
  induction values with
  | nil => rfl
  | cons value values ih =>
      rw [List.map_cons, List.map_cons, List.sum_cons, ← ih]
      cases value with
      | nil =>
          rw [List.filter_cons_of_neg (by simp), List.count_cons_self, normalized_nil,
            List.count_nil]
          omega
      | cons c rest =>
          rw [List.filter_cons_of_pos (by simp), List.map_cons, List.map_cons, List.sum_cons,
            List.count_cons_of_ne (by simp)]
          omega

def EndsBlank (values : List JsString) : Prop :=
  ∃ front last, front ≠ [] ∧ values = front ++ [last] ∧ normalized last = []

theorem endsBlank_map_normalized (values : List JsString) :
    EndsBlank (values.map normalized) ↔ EndsBlank values := by
  constructor
  · rintro ⟨front, last, hfront, heq, hblank⟩
    obtain ⟨before, behind, rfl, rfl, hlast⟩ := List.map_eq_append_iff.mp heq
    obtain ⟨value, rfl, rfl⟩ := List.map_eq_singleton_iff.mp hlast
    refine ⟨before, value, fun hnil => hfront (by rw [hnil]; rfl), rfl, ?_⟩
    rw [← normalized_normalized, hblank]
  · rintro ⟨front, last, hfront, rfl, hblank⟩
    refine ⟨front.map normalized, normalized last, ?_, by rw [List.map_append]; rfl, ?_⟩
    · rwa [ne_eq, List.map_eq_nil_iff]
    · rw [normalized_normalized, hblank]

theorem head_of_normal {value : JsString} (h : normalized value = value) :
    ∀ c ∈ value.head?, isHttpSpace c = false := by
  intro c hc
  rw [← h] at hc
  exact trimBy_head? hc

theorem last_of_normal {value : JsString} (h : normalized value = value) :
    ∀ c ∈ value.getLast?, isHttpSpace c = false := by
  intro c hc
  rw [← h] at hc
  exact trimBy_getLast? hc

theorem head_joinValues {values : List JsString} (h : ∀ value ∈ values, normalized value = value) :
    ∀ c ∈ (Headers.joinValues values).head?, isHttpSpace c = false := by
  intro c hc
  cases values with
  | nil => cases hc
  | cons value values =>
      have hvalue := head_of_normal (h value List.mem_cons_self)
      cases values with
      | nil => exact hvalue c hc
      | cons next values =>
          rw [Headers.joinValues] at hc
          · cases value with
            | nil =>
                obtain rfl := Option.some.inj hc
                decide
            | cons first rest => exact hvalue c hc
          · exact nofun

theorem last_joinValues {values : List JsString} (h : ∀ value ∈ values, normalized value = value)
    (hends : ¬EndsBlank values) :
    ∀ c ∈ (Headers.joinValues values).getLast?, isHttpSpace c = false := by
  rcases values.eq_nil_or_concat' with rfl | ⟨front, last, rfl⟩
  · exact nofun
  · have hlast := h last (List.mem_append_right _ List.mem_cons_self)
    intro c hc
    cases front with
    | nil => exact last_of_normal hlast c hc
    | cons value front =>
        have hne : last ≠ [] := by
          rintro rfl
          exact hends ⟨value :: front, [], List.cons_ne_nil _ _, rfl, rfl⟩
        rw [joinValues_concat (List.cons_ne_nil _ _), List.getLast?_append_of_ne_nil _ hne] at hc
        exact last_of_normal hlast c hc

/-- A joined value keeps its ends exactly when the last value is not a blank one
behind others. -/
theorem getOf_normal_iff {values : List JsString} (h : ∀ value ∈ values, normalized value = value) :
    getOf values = (getOf values).map normalized ↔ ¬EndsBlank values := by
  constructor
  · rintro heq ⟨front, last, hfront, rfl, hblank⟩
    rw [h last (List.mem_append_right _ List.mem_cons_self)] at hblank
    subst hblank
    have hsome : getOf (front ++ [[]]) = some (Headers.joinValues front ++ js ", ") := by
      have hjoin := joinValues_concat hfront []
      rw [List.append_nil] at hjoin
      rw [← hjoin]
      cases front <;> rfl
    rw [hsome] at heq
    have hself : normalized (Headers.joinValues front ++ js ", ") =
        Headers.joinValues front ++ js ", " := (Option.some.inj heq).symm
    have hspace := last_of_normal hself 32 (by
      rw [List.getLast?_append_of_ne_nil _ (by decide)]
      decide)
    exact absurd hspace (by decide)
  · intro hends
    cases values with
    | nil => rfl
    | cons value values =>
        exact congrArg some (normalized_eq_self (head_joinValues h) (last_joinValues h hends)).symm

theorem getOf_filter_eq_iff (values : List JsString) :
    getOf ((values.filter fun value => !value.isEmpty).map normalized) =
        (getOf (values.map normalized)).map normalized ↔ [] ∉ values ∧ ¬EndsBlank values := by
  have hnormal : ∀ value ∈ values.map normalized, normalized value = value := by
    intro value hvalue
    obtain ⟨item, -, rfl⟩ := List.mem_map.mp hvalue
    exact normalized_normalized item
  have hkeep : [] ∉ values → values.filter (fun value => !value.isEmpty) = values := by
    intro hnone
    rw [List.filter_eq_self]
    intro value hvalue
    cases value with
    | nil => exact absurd hvalue hnone
    | cons _ _ => rfl
  constructor
  · intro heq
    have hnone : [] ∉ values := by
      intro hmem
      have hne : values ≠ [] := List.ne_nil_of_mem hmem
      have hmap : values.map normalized ≠ [] := by rwa [ne_eq, List.map_eq_nil_iff]
      have hjoin : ∀ {items : List JsString}, items ≠ [] →
          getOf items = some (Headers.joinValues items) := by
        intro items hitems
        cases items with
        | nil => exact absurd rfl hitems
        | cons _ _ => rfl
      rw [hjoin hmap] at heq
      have hfilter : (values.filter fun value => !value.isEmpty).map normalized ≠ [] := by
        intro hnil
        rw [hnil] at heq
        cases heq
      rw [hjoin hfilter] at heq
      have hcount := congrArg (List.count 44) (Option.some.inj heq)
      rw [count_normalized] at hcount
      have hsum := sum_filter_count values
      rw [← count_joinValues hmap, ← count_joinValues hfilter, hcount] at hsum
      have hpos : 0 < values.count [] := List.count_pos_iff.mpr hmem
      omega
    refine ⟨hnone, ?_⟩
    rw [hkeep hnone, getOf_normal_iff hnormal, endsBlank_map_normalized] at heq
    exact heq
  · rintro ⟨hnone, hends⟩
    rw [hkeep hnone, getOf_normal_iff hnormal, endsBlank_map_normalized]
    exact hends

def Headers.Normal (headers : Headers) : Prop :=
  ∀ entry ∈ headers.entries, normalized entry.2 = entry.2

theorem normal_values {headers : Headers} (h : headers.Normal) (n : JsString) :
    ∀ value ∈ headers.values n, normalized value = value := by
  intro value hvalue
  obtain ⟨entry, hentry, rfl⟩ := List.mem_map.mp hvalue
  exact h entry (List.mem_of_mem_filter hentry)

end Keala.Http
