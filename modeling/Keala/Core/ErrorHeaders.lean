import Keala.Core.ErrorResponse
import Keala.Core.HeaderRuns

/-!
The headers of an error response. Whatever path builds it, it carries what was
staged and what the discarded response carried, under the error's own headers
and those of a takeover.
-/

namespace Keala.Core

open Keala.Js Keala.Http

variable {σ β τ : Type}

/-! ### What is discarded -/

/-- The value of a name on what is discarded: the staged one, else what the
committed response carries. -/
def sourceAt (c : Context σ β) (n : JsString) : Option HeaderValue :=
  c.stagedAt n <|> (c.res.bind fun res => res.headers.get n).map HeaderValue.one

theorem get?_setAll {record : HeaderMap} (hnodup : (OrderedMap.keys record).Nodup)
    (out : HeaderMap) (n : JsString) :
    OrderedMap.get? (setAll out record) n =
      (OrderedMap.get? record n <|> OrderedMap.get? out n) := by
  induction record generalizing out with
  | nil => rfl
  | cons entry record ih =>
      rw [OrderedMap.keys_cons, List.nodup_cons] at hnodup
      have htail := ih hnodup.2 (OrderedMap.set out entry.1 entry.2)
      rw [OrderedMap.get?_set] at htail
      rw [OrderedMap.get?_cons]
      refine htail.trans ?_
      by_cases heq : entry.1 = n
      · have hnone : OrderedMap.get? record n = none := by
          rw [OrderedMap.get?_eq_none_iff, ← heq]
          exact hnodup.1
        rw [hnone, if_pos heq, if_pos heq]
        rfl
      · rw [if_neg heq, if_neg heq]

theorem nodup_setAll (record : HeaderMap) {out : HeaderMap}
    (hnodup : (OrderedMap.keys out).Nodup) :
    (OrderedMap.keys (setAll out record)).Nodup := by
  induction record generalizing out with
  | nil => exact hnodup
  | cons entry record ih => exact ih (OrderedMap.nodup_set hnodup _ _)

theorem get?_filter_key (record : HeaderMap) (p : JsString → Bool) (n : JsString) :
    OrderedMap.get? (record.filter fun entry => p entry.1) n =
      if p n = true then OrderedMap.get? record n else none := by
  induction record with
  | nil => split <;> rfl
  | cons entry record ih =>
      cases hp : p entry.1 with
      | true =>
          rw [List.filter_cons_of_pos (by simpa using hp), OrderedMap.get?_cons,
            OrderedMap.get?_cons, ih]
          by_cases heq : entry.1 = n
          · subst heq
            simp [hp]
          · simp [heq]
      | false =>
          rw [List.filter_cons_of_neg (by simp [hp]), ih, OrderedMap.get?_cons]
          by_cases heq : entry.1 = n
          · subst heq
            simp [hp]
          · simp [heq]

/-- The entries of the committed response that the record does not shadow. -/
theorem get?_kept (entries : List (JsString × JsString)) (record : HeaderMap) (n : JsString) :
    OrderedMap.get? ((entries.filter fun entry =>
      (OrderedMap.get? record entry.1).isNone).map fun entry =>
        (entry.1, HeaderValue.one entry.2)) n =
      if (OrderedMap.get? record n).isNone then (OrderedMap.get? entries n).map HeaderValue.one
      else none := by
  induction entries with
  | nil => split <;> rfl
  | cons entry entries ih =>
      cases hnone : (OrderedMap.get? record entry.1).isNone with
      | true =>
          rw [List.filter_cons_of_pos (by simpa using hnone), List.map_cons, OrderedMap.get?_cons,
            OrderedMap.get?_cons, ih]
          by_cases heq : entry.1 = n
          · subst heq
            simp [hnone]
          · simp [heq]
      | false =>
          rw [List.filter_cons_of_neg (by simp [hnone]), ih, OrderedMap.get?_cons]
          by_cases heq : entry.1 = n
          · subst heq
            simp [hnone]
          · simp [heq]

def cookieSources (c : Context σ β) : List JsString :=
  (c.res.map fun res => res.headers.getSetCookie).getD [] ++
    ((c.stagedAt (js "set-cookie")).map itemsOf).getD []

/-- What reaches the wire is stored as it is. -/
theorem map_normalized_wireOf (value : HeaderValue) :
    (wireOf value).map normalized = wireOf value := by
  rw [wireOf_eq, List.map_map]
  apply List.map_congr_left
  exact fun item _ => normalized_normalized item

theorem mem_writtenItems {value : HeaderValue} {item : JsString} (h : item ∈ itemsOf value)
    (hne : item ≠ []) : item ∈ writtenItems value := by
  cases value with
  | one value => exact h
  | many values =>
      rw [writtenItems, List.mem_filter]
      refine ⟨h, ?_⟩
      cases item with
      | nil => exact absurd rfl hne
      | cons _ _ => rfl

theorem nodup_harvested (committed : Headers) (record : HeaderMap) :
    (OrderedMap.keys (harvested committed record)).Nodup := by
  have hkept : (OrderedMap.keys ((committed.combined.filter fun entry =>
      (OrderedMap.get? record entry.1).isNone).map fun entry =>
        (entry.1, HeaderValue.one entry.2))).Nodup := by
    have hsub : (OrderedMap.keys ((committed.combined.filter fun entry =>
        (OrderedMap.get? record entry.1).isNone).map fun entry =>
          (entry.1, HeaderValue.one entry.2))).Sublist (OrderedMap.keys committed.combined) := by
      rw [OrderedMap.keys, OrderedMap.keys, List.map_map]
      exact List.filter_sublist.map Prod.fst
    rw [keys_combined] at hsub
    exact (nodup_names _).sublist hsub
  rw [harvested]
  split
  · exact OrderedMap.nodup_set hkept _ _
  · exact hkept

theorem get?_harvested (committed : Headers) (record : HeaderMap) {n : JsString}
    (h : n ≠ js "set-cookie") :
    OrderedMap.get? (harvested committed record) n =
      if (OrderedMap.get? record n).isNone then (committed.get n).map HeaderValue.one
      else none := by
  have hkept := get?_kept committed.combined record n
  rw [get?_combined committed h] at hkept
  rw [harvested]
  split
  · rw [OrderedMap.get?_set_ne _ _ (Ne.symm h), hkept]
  · exact hkept

theorem get?_harvested_cookie (committed : Headers) (record : HeaderMap) :
    OrderedMap.get? (harvested committed record) (js "set-cookie") =
      if committed.getSetCookie ≠ [] ∨ (OrderedMap.get? record (js "set-cookie")).isSome then
        some (.many (committed.getSetCookie ++
          ((OrderedMap.get? record (js "set-cookie")).map itemsOf).getD []))
      else none := by
  rw [harvested]
  split
  · rw [OrderedMap.get?_set_self]
  · rw [get?_kept, get?_combined_cookie]
    split <;> rfl

/-- The sources of a discarded response: nothing of the record or of the
response is lost, the record wins, and cookies join. -/
theorem reconciled_spec {c : Context σ β} (hnodup : (OrderedMap.keys c.record).Nodup) :
    (OrderedMap.keys ((reconciledHeaderSources c).getD [])).Nodup ∧
      (∀ n, n ≠ js "set-cookie" →
        OrderedMap.get? ((reconciledHeaderSources c).getD []) n = sourceAt c n) ∧
      ((OrderedMap.get? ((reconciledHeaderSources c).getD []) (js "set-cookie")).map
        itemsOf).getD [] = cookieSources c := by
  cases hres : c.res with
  | none =>
      have hsources : reconciledHeaderSources c = c.staged.headersRecord := by
        rw [reconciledHeaderSources, hres]
      rw [hsources]
      refine ⟨hnodup, fun n _ => ?_, ?_⟩
      · rw [sourceAt, hres]
        change c.stagedAt n = (c.stagedAt n <|> none)
        cases c.stagedAt n <;> rfl
      · rw [cookieSources, hres]
        rfl
  | some committed =>
      have hplain := fun n (h : n ≠ js "set-cookie") =>
        get?_harvested committed.headers c.record h
      have hcookie := get?_harvested_cookie committed.headers c.record
      have hsource : ∀ n, sourceAt c n =
          (c.stagedAt n <|> (committed.headers.get n).map HeaderValue.one) := by
        intro n
        rw [sourceAt, hres]
        rfl
      have hcookies : cookieSources c = committed.headers.getSetCookie ++
          ((c.stagedAt (js "set-cookie")).map itemsOf).getD [] := by
        rw [cookieSources, hres]
        rfl
      cases hout : harvested committed.headers c.record with
      | nil =>
          -- The record shadows all that was committed.
          have hsources : reconciledHeaderSources c = c.staged.headersRecord := by
            rw [reconciledHeaderSources, hres]
            dsimp only
            rw [hout]
          rw [hout] at hplain hcookie
          rw [hsources]
          refine ⟨hnodup, fun n hn => ?_, ?_⟩
          · rw [hsource]
            change c.stagedAt n = _
            have hnone := hplain n hn
            change none = if (c.stagedAt n).isNone = true then _ else none at hnone
            cases hstaged : c.stagedAt n with
            | none =>
                rw [hstaged] at hnone
                exact hnone
            | some _ => rfl
          · -- Neither side has a cookie.
            split at hcookie
            · cases hcookie
            · next hneither =>
                rw [not_or, not_not, Option.not_isSome_iff_eq_none] at hneither
                have hstaged : c.stagedAt (js "set-cookie") = none := hneither.2
                change ((c.stagedAt (js "set-cookie")).map itemsOf).getD [] = _
                rw [hcookies, hneither.1, hstaged]
                rfl
      | cons entry rest =>
          -- The record is written over what was harvested, and the cookies of both are joined.
          have hsources : reconciledHeaderSources c = some (setAll (entry :: rest)
              (c.record.filter fun entry => !decide (entry.1 = js "set-cookie"))) := by
            rw [reconciledHeaderSources, hres]
            dsimp only
            rw [hout]
          have hfiltered : (OrderedMap.keys
              (c.record.filter fun entry => !decide (entry.1 = js "set-cookie"))).Nodup :=
            hnodup.sublist (List.filter_sublist.map Prod.fst)
          have hread : ∀ n, OrderedMap.get? ((reconciledHeaderSources c).getD []) n =
              ((if (!decide (n = js "set-cookie")) = true then c.stagedAt n else none) <|>
                OrderedMap.get? (harvested committed.headers c.record) n) := by
            intro n
            rw [hsources, Option.getD_some, get?_setAll hfiltered, hout]
            congr 1
            exact get?_filter_key c.record (fun name => !decide (name = js "set-cookie")) n
          refine ⟨?_, fun n hn => ?_, ?_⟩
          · rw [hsources, Option.getD_some]
            apply nodup_setAll
            rw [← hout]
            exact nodup_harvested _ _
          · rw [hread, hsource, hplain n hn, if_pos (by simpa using hn)]
            change (c.stagedAt n <|> if (c.stagedAt n).isNone = true then _ else none) = _
            cases c.stagedAt n <;> rfl
          · rw [hread, if_neg (by simp), hcookie, hcookies]
            split
            · rfl
            · next hneither =>
                rw [not_or, not_not, Option.not_isSome_iff_eq_none] at hneither
                have hstaged : c.stagedAt (js "set-cookie") = none := hneither.2
                rw [hneither.1, hstaged]
                rfl

/-! ### Legal values -/

/-- A text without a unit that is refused is taken. -/
theorem fetchAccepts_of_all {value : JsString} (h : value.all isFieldUnit = true) :
    fetchAccepts value = true := by
  rw [fetchAccepts, List.all_eq_true]
  exact fun c hc => List.all_eq_true.mp h c (mem_of_mem_normalized hc)

theorem all_joinValues {values : List JsString}
    (h : ∀ value ∈ values, value.all isFieldUnit = true) :
    (Headers.joinValues values).all isFieldUnit = true := by
  induction values with
  | nil => rfl
  | cons value values ih =>
      have hrest := ih fun other hother => h other (List.mem_cons_of_mem _ hother)
      cases values with
      | nil => exact h value List.mem_cons_self
      | cons next values =>
          rw [Headers.joinValues, List.all_append, List.all_append, h value List.mem_cons_self,
            hrest]
          · rfl
          · exact List.cons_ne_nil _ _

/-- A value that passes the check of a write site is one that `Headers` takes. -/
theorem fetchAccepts_of_faultless {value : JsString} (h : value.findSome? valueFault = none) :
    fetchAccepts value = true := by
  apply fetchAccepts_of_all
  rw [List.all_eq_true]
  intro c hc
  have hnone := List.findSome?_eq_none_iff.mp h c hc
  rw [valueFault] at hnone
  split at hnone
  · cases hnone
  · next hline =>
      split at hnone
      · cases hnone
      · split at hnone
        · cases hnone
        · next hbyte =>
            rw [not_or, not_or] at hline
            have hle : c ≤ 255 := UInt16.not_lt.mp hbyte
            simp [isFieldUnit, hline.1, hline.2.1, hline.2.2, hle]

/-- What is staged could be written, and what is committed was. -/
structure Legal (c : Context σ β) : Prop where
  nodup : (OrderedMap.keys c.record).Nodup
  staged : ∀ n value, c.stagedAt n = some value →
    ∀ item ∈ itemsOf value, fetchAccepts item = true
  committed : ∀ res, c.res = some res → ∀ n, ∀ item ∈ res.headers.values n,
    item.all isFieldUnit = true

theorem itemsOf_of_writtenItems {value : HeaderValue} {item : JsString}
    (h : item ∈ writtenItems value) :
    item ∈ itemsOf value := by
  cases value with
  | one value => exact h
  | many values => exact List.mem_of_mem_filter h

theorem legal_sourceAt {c : Context σ β} (hc : Legal c) {n : JsString} {value : HeaderValue}
    (h : sourceAt c n = some value) : ∀ item ∈ itemsOf value, fetchAccepts item = true := by
  rw [sourceAt] at h
  cases hstaged : c.stagedAt n with
  | some staged =>
      rw [hstaged] at h
      obtain rfl := Option.some.inj h
      exact hc.staged n staged hstaged
  | none =>
      rw [hstaged] at h
      change (c.res.bind fun res => res.headers.get n).map HeaderValue.one = some value at h
      obtain ⟨text, htext, rfl⟩ := Option.map_eq_some_iff.mp h
      obtain ⟨res, hres, hget⟩ := Option.bind_eq_some_iff.mp htext
      intro item hitem
      obtain rfl := List.mem_singleton.mp hitem
      rw [Headers.get] at hget
      have hvalues := hc.committed res hres n
      cases hlist : res.headers.values n with
      | nil =>
          rw [hlist] at hget
          cases hget
      | cons first rest =>
          rw [hlist] at hget hvalues
          obtain rfl := Option.some.inj hget
          exact fetchAccepts_of_all (all_joinValues hvalues)

theorem legal_cookieSources {c : Context σ β} (hc : Legal c) :
    ∀ value ∈ cookieSources c, fetchAccepts value = true := by
  intro value hvalue
  rcases List.mem_append.mp hvalue with hcommitted | hstaged
  · cases hres : c.res with
    | none =>
        rw [hres] at hcommitted
        cases hcommitted
    | some res =>
        rw [hres] at hcommitted
        exact fetchAccepts_of_all (hc.committed res hres _ value hcommitted)
  · cases hread : c.stagedAt (js "set-cookie") with
    | none =>
        rw [hread] at hstaged
        cases hstaged
    | some staged =>
        rw [hread] at hstaged
        exact hc.staged _ staged hread value hstaged

end Keala.Core
