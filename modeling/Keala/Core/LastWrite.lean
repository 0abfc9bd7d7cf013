import Keala.Core.Headers
import Keala.Http.HeaderReads

/-!
What a response carries in the end. The finalizer replays the staged record
over the committed response, so of the writes of a name before and after the
commit the last one decides.
-/

namespace Keala.Core

open Keala.Js Keala.Http

variable {σ β τ : Type}

/-! ### The replay of the record -/

/-- The items of a staged header that are written: an empty one never is. -/
def writtenItems : HeaderValue → List JsString
  | .one value => [value]
  | .many values => values.filter fun value => !value.isEmpty

def wireOf : HeaderValue → List JsString
  | .one value => [normalized value]
  | .many values => (values.filter fun value => !value.isEmpty).map normalized

theorem wireOf_eq (value : HeaderValue) : wireOf value = (writtenItems value).map normalized := by
  cases value <;> rfl

/-- One header of the record, written with the items of an array that `keep` leaves. -/
def mergeEntry (keep : List JsString → List JsString) (headers : Headers)
    (entry : JsString × HeaderValue) : Except (Thrown τ) Headers :=
  if entry.1 = js "set-cookie" then
    match entry.2 with
    | .one value => headers.append entry.1 value
    | .many values => headers.appendAll entry.1 (keep values)
  else do
    let headers ← headers.delete entry.1
    match entry.2 with
    | .one value => headers.set entry.1 value
    | .many values => headers.appendAll entry.1 (keep values)

def keptOf (keep : List JsString → List JsString) : HeaderValue → List JsString
  | .one value => [normalized value]
  | .many values => (keep values).map normalized

theorem mergeEntry_spec (keep : List JsString → List JsString) (headers : Headers)
    (h : headers.immutable = false) (entry : JsString × HeaderValue) :
    ∃ after, (mergeEntry keep headers entry : Except (Thrown τ) _) = .ok after ∧
      after.immutable = false ∧ ∀ n, after.values n =
        if entry.1 = n then
          if n = js "set-cookie" then headers.values n ++ keptOf keep entry.2
          else keptOf keep entry.2
        else headers.values n := by
  obtain ⟨name, value⟩ := entry
  rw [mergeEntry]
  dsimp only
  split
  · next hcookie =>
      subst hcookie
      cases value with
      | one value =>
          refine ⟨_, Headers.append_eq headers h _ value, h, fun n => ?_⟩
          have hvalues := Headers.values_added headers (js "set-cookie") [value] n
          rw [show ([value].map fun value => (js "set-cookie", normalized value)) =
            [(js "set-cookie", normalized value)] from rfl] at hvalues
          rw [hvalues]
          by_cases hn : js "set-cookie" = n
          · rw [if_pos hn, if_pos hn, if_pos hn.symm]
            rfl
          · rw [if_neg hn, if_neg hn, List.append_nil]
      | many values =>
          refine ⟨_, Headers.appendAll_eq headers h _ _, h, fun n => ?_⟩
          rw [Headers.values_added]
          by_cases hn : js "set-cookie" = n
          · rw [if_pos hn, if_pos hn, if_pos hn.symm]
            rfl
          · rw [if_neg hn, if_neg hn, List.append_nil]
  · next hplain =>
      have hleft := Headers.values_deleted headers name
      rw [Headers.delete_eq headers h]
      set left : Headers :=
        { headers with entries := headers.entries.filter fun entry => !decide (entry.1 = name) }
      have hopen : left.immutable = false := h
      have hn : ∀ n, name = n → n ≠ js "set-cookie" := fun n heq => heq ▸ hplain
      cases value with
      | one value =>
          refine ⟨_, Headers.set_eq left hopen name value, hopen, fun n => ?_⟩
          rw [Headers.values_set, hleft]
          split
          · next heq => rw [if_neg (hn n heq)]; rfl
          · rfl
      | many values =>
          refine ⟨_, Headers.appendAll_eq left hopen name _, hopen, fun n => ?_⟩
          rw [Headers.values_added, hleft]
          split
          · next heq => rw [if_neg (hn n heq), List.nil_append]; rfl
          · rw [List.append_nil]

def mergedBy (keep : List JsString → List JsString) (record : HeaderMap) (headers : Headers)
    (n : JsString) : List JsString :=
  match OrderedMap.get? record n with
  | none => headers.values n
  | some value =>
      if n = js "set-cookie" then headers.values n ++ keptOf keep value else keptOf keep value

theorem foldlM_mergeEntry_spec (keep : List JsString → List JsString) {record : HeaderMap}
    (hnodup : (OrderedMap.keys record).Nodup) (headers : Headers)
    (h : headers.immutable = false) :
    ∃ after, (record.foldlM (mergeEntry keep) headers : Except (Thrown τ) _) = .ok after ∧
      after.immutable = false ∧ ∀ n, after.values n = mergedBy keep record headers n := by
  induction record generalizing headers with
  | nil => exact ⟨headers, rfl, h, fun _ => rfl⟩
  | cons entry record ih =>
      rw [OrderedMap.keys_cons, List.nodup_cons] at hnodup
      obtain ⟨next, hnext, hopen, hvalues⟩ := mergeEntry_spec (τ := τ) keep headers h entry
      obtain ⟨after, hafter, hmutable, hmerged⟩ := ih hnodup.2 next hopen
      refine ⟨after, ?_, hmutable, fun n => ?_⟩
      · rw [List.foldlM_cons, hnext]
        exact hafter
      · rw [hmerged, mergedBy, mergedBy, hvalues, OrderedMap.get?_cons]
        by_cases heq : entry.1 = n
        · have hlater : OrderedMap.get? record n = none := by
            rw [OrderedMap.get?_eq_none_iff, ← heq]
            exact hnodup.1
          rw [hlater, if_pos heq, if_pos heq]
        · rw [if_neg heq, if_neg heq]

def replayed (record : HeaderMap) (headers : Headers) (n : JsString) : List JsString :=
  match OrderedMap.get? record n with
  | none => headers.values n
  | some value => if n = js "set-cookie" then headers.values n ++ wireOf value else wireOf value

theorem foldlM_applyStaged_spec {record : HeaderMap} (hnodup : (OrderedMap.keys record).Nodup)
    (headers : Headers) (h : headers.immutable = false) :
    ∃ after, (record.foldlM applyStagedHeader headers : Except (Thrown τ) _) = .ok after ∧
      after.immutable = false ∧ ∀ n, after.values n = replayed record headers n :=
  foldlM_mergeEntry_spec (fun values => values.filter fun value => !value.isEmpty) hnodup headers h

theorem mergeStaged_spec {runtime : Runtime β} {res merged : Response β}
    {record : Option HeaderMap} (hnodup : (OrderedMap.keys (record.getD [])).Nodup)
    (hmutable : res.headers.immutable = false)
    (h : (mergeStaged runtime res record : Except (Thrown τ) _) = .ok merged) :
    merged.status = res.status ∧ merged.headers.immutable = false ∧
      ∀ n, merged.headers.values n = replayed (record.getD []) res.headers n := by
  match record, hnodup, h with
  | none, _, h =>
      obtain rfl := Except.ok.inj h
      exact ⟨rfl, hmutable, fun _ => rfl⟩
  | some [], _, h =>
      obtain rfl := Except.ok.inj h
      exact ⟨rfl, hmutable, fun _ => rfl⟩
  | some (entry :: record), hnodup, h =>
      obtain ⟨headers, hheaders, hopen, hvalues⟩ :=
        foldlM_applyStaged_spec (τ := τ) hnodup res.headers hmutable
      rw [mergeStaged, applyStagedHeaders] at h
      · rw [Option.getD_some] at hheaders
        rw [hheaders] at h
        obtain rfl := Except.ok.inj h
        exact ⟨rfl, hopen, hvalues⟩
      · exact nofun

/-! ### The closer -/

theorem construct_spec {runtime : Runtime β} {body : Option (Body β)} {status : ℕ}
    {statusText : JsString} {headers : Headers} {res : Response β}
    (h : (construct runtime body status statusText headers : Except (Thrown τ) _) = .ok res) :
    res.status = status ∧ res.headers.immutable = false ∧
      res.headers.entries = headers.entries := by
  rw [construct] at h
  split at h
  · cases h
  · split at h
    · cases h
    · obtain rfl := Except.ok.inj h
      exact ⟨rfl, rfl, rfl⟩

theorem values_withoutContent (headers : Headers) (n : JsString) :
    (withoutContentHeaders headers).values n =
      if n ∈ CONTENT_HEADERS then [] else headers.reading n := by
  rw [withoutContentHeaders, Headers.values, List.filter_filter]
  split
  · next hmem =>
      rw [List.map_eq_nil_iff, List.filter_eq_nil_iff]
      intro entry _ hentry
      simp only [Bool.and_eq_true, decide_eq_true_eq, Bool.not_eq_true',
        decide_eq_false_iff_not] at hentry
      exact hentry.2 (hentry.1 ▸ hmem)
  · next hmem =>
      rw [← Headers.values_copy, Headers.values]
      congr 1
      apply List.filter_congr
      intro entry _
      by_cases hentry : entry.1 = n
      · simp [hentry, hmem]
      · simp [hentry]

/-- What a client reads of the headers of an empty status. -/
theorem reading_withoutContent (headers : Headers) (n : JsString) :
    (withoutContentHeaders headers).reading n =
      if n ∈ CONTENT_HEADERS then [] else headers.reading n := by
  rw [Headers.reading, values_withoutContent]
  split
  · exact readingOf_nil n
  · exact readingOf_readingOf n _

theorem values_nil_of_not_has {headers : Headers} {n : JsString} (h : headers.has n = false) :
    headers.values n = [] := by
  rw [Headers.values, List.map_eq_nil_iff, List.filter_eq_nil_iff]
  rw [Headers.has, List.any_eq_false] at h
  exact h

theorem values_of_entries {a b : Headers} (h : a.entries = b.entries) (n : JsString) :
    a.values n = b.values n := by
  rw [Headers.values, Headers.values, h]

/-- An empty status ships no content describing header. -/
def shipped (status : ℕ) (n : JsString) (values : List JsString) : List JsString :=
  if isEmptyStatus status = true ∧ n ∈ CONTENT_HEADERS then [] else values

@[simp] theorem shipped_nil (status : ℕ) (n : JsString) : shipped status n [] = [] := ite_self _

theorem readingOf_shipped (status : ℕ) (n : JsString) (values : List JsString) :
    readingOf n (shipped status n values) = shipped status n (readingOf n values) := by
  rw [shipped, shipped]
  split
  · exact readingOf_nil n
  · rfl

/-- What the closer leaves of the merged headers, as they are or as a copy holds
them: all but the content describing ones of an empty status. -/
theorem finishCommitted_values {app : Application σ β τ} {c : Context σ β}
    {committed final : Response β} (h : finishCommitted app c committed = .ok final) :
    ∃ merged, mergeStaged app.runtime committed c.staged.headersRecord =
      .ok (ε := Thrown τ) merged ∧
      final.status = merged.status ∧
      ((∀ n, final.headers.values n = shipped final.status n (merged.headers.values n)) ∨
        ∀ n, final.headers.values n = shipped final.status n (merged.headers.reading n)) := by
  obtain ⟨merged, hmerged, h⟩ := Except.ok_of_bind h
  refine ⟨merged, hmerged, ?_⟩
  split at h
  · next hempty =>
      rw [Bool.and_eq_true] at hempty
      rw [sanitizeEmptyStatus] at h
      obtain ⟨hstatus, -, hentries⟩ := construct_spec h
      refine ⟨hstatus, .inr fun n => ?_⟩
      rw [values_of_entries hentries, Headers.values_copy, reading_withoutContent, hstatus]
      simp [shipped, hempty.1]
  · next hclean =>
      -- Without a content describing header there is nothing to drop.
      have hnothing : isEmptyStatus merged.status = true →
          ∀ n ∈ CONTENT_HEADERS, merged.headers.values n = [] := by
        intro hempty n hn
        have hnone : describesContent merged.headers = false := by
          rw [hempty, Bool.true_and] at hclean
          exact (Bool.or_eq_false_iff.mp (Bool.eq_false_iff.mpr hclean)).2
        rw [describesContent, List.any_eq_false] at hnone
        exact values_nil_of_not_has (Bool.eq_false_iff.mpr (hnone n hn))
      have hplain : ∀ n, merged.headers.values n =
          shipped merged.status n (merged.headers.values n) := by
        intro n
        rw [shipped]
        split
        · next hboth => exact hnothing hboth.1 n hboth.2
        · rfl
      have hcopied : ∀ {headers : Headers}, headers.entries = merged.headers.copy.entries →
          ∀ n, headers.values n = shipped merged.status n (merged.headers.reading n) := by
        intro headers hentries n
        rw [values_of_entries hentries, Headers.values_copy, Headers.reading, hplain,
          readingOf_shipped]
        rw [shipped, shipped]
        split <;> rfl
      split at h
      · rw [stripBody] at h
        obtain ⟨hstatus, -, hentries⟩ := construct_spec h
        exact ⟨hstatus, .inr (hstatus ▸ hcopied hentries)⟩
      · split at h
        · obtain ⟨observed, -, h⟩ := Except.ok_of_bind h
          obtain ⟨hstatus, -, hentries⟩ := construct_spec h
          exact ⟨hstatus, .inr (hstatus ▸ hcopied hentries)⟩
        · obtain rfl := Except.ok.inj h
          exact ⟨rfl, .inl hplain⟩

/-- What a client reads of the answer. -/
theorem finishCommitted_spec {app : Application σ β τ} {c : Context σ β}
    {committed final : Response β} (h : finishCommitted app c committed = .ok final) :
    ∃ merged, mergeStaged app.runtime committed c.staged.headersRecord =
      .ok (ε := Thrown τ) merged ∧
      final.status = merged.status ∧
      ∀ n, final.headers.reading n = shipped final.status n (merged.headers.reading n) := by
  obtain ⟨merged, hmerged, hstatus, hvalues⟩ := finishCommitted_values h
  refine ⟨merged, hmerged, hstatus, fun n => ?_⟩
  rcases hvalues with hvalues | hvalues
  · rw [Headers.reading, hvalues, readingOf_shipped]
    rfl
  · rw [Headers.reading, hvalues, readingOf_shipped]
    exact congrArg _ (readingOf_readingOf n _)

end Keala.Core
