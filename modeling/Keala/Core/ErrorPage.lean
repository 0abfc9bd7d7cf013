import Keala.Core.ErrorHeaders

/-!
The built-in error page: the sources land in the live record, the error's own
headers are staged over them, and the closer ships the record.
-/

namespace Keala.Core

open Keala.Js Keala.Http

variable {σ β τ : Type}

/-! ### The sources land in the record -/

def discarded (c : Context σ β) : Context σ β :=
  ((reconciledHeaderSources c).map (landSources { c with res := none })).getD { c with res := none }

theorem reconciled_eq_none {c : Context σ β} (h : reconciledHeaderSources c = none) :
    c.staged.headersRecord = none := by
  rw [reconciledHeaderSources] at h
  split at h
  · exact h
  · split at h
    · exact h
    · cases h

theorem res_discarded (c : Context σ β) : (discarded c).res = none := by
  rw [discarded]
  cases reconciledHeaderSources c <;> rfl

theorem method_discarded (c : Context σ β) : (discarded c).method = c.method := by
  rw [discarded]
  cases reconciledHeaderSources c <;> rfl

/-- The record holds the sources but for the content describing names. -/
theorem discarded_spec {c : Context σ β} (hnodup : (OrderedMap.keys c.record).Nodup) :
    (OrderedMap.keys (discarded c).record).Nodup ∧
      (∀ n ∈ MERGE_FORBIDDEN_CONTENT, (discarded c).stagedAt n = none) ∧
      (∀ n, n ∉ MERGE_FORBIDDEN_CONTENT → n ≠ js "set-cookie" →
        (discarded c).stagedAt n = sourceAt c n) ∧
      (((discarded c).stagedAt (js "set-cookie")).map itemsOf).getD [] = cookieSources c := by
  obtain ⟨hkeys, hplain, hcookies⟩ := reconciled_spec hnodup
  cases hsources : reconciledHeaderSources c with
  | none =>
      have hrecord : (discarded c).record = [] := by
        rw [discarded, hsources]
        change c.staged.headersRecord.getD [] = []
        rw [reconciled_eq_none hsources]
        rfl
      rw [hsources] at hplain hcookies
      refine ⟨by rw [hrecord]; exact List.nodup_nil, fun n _ => ?_, fun n _ hn => ?_, ?_⟩
      · rw [Context.stagedAt, hrecord]
        rfl
      · rw [Context.stagedAt, hrecord]
        exact hplain n hn
      · rw [Context.stagedAt, hrecord]
        exact hcookies
  | some sources =>
      rw [hsources, Option.getD_some] at hkeys hplain hcookies
      have hboth : (OrderedMap.keys (setAll c.record sources)).Nodup := nodup_setAll sources hnodup
      have hread : ∀ n, (discarded c).stagedAt n =
          if n ∈ MERGE_FORBIDDEN_CONTENT then none
          else (OrderedMap.get? sources n <|> c.stagedAt n) := by
        intro n
        have hset := get?_setAll hkeys c.record n
        have hdeleted := OrderedMap.get?_foldl_delete hboth MERGE_FORBIDDEN_CONTENT n
        rw [hset] at hdeleted
        rw [discarded, hsources]
        by_cases hn : n ∈ MERGE_FORBIDDEN_CONTENT
        · rw [if_pos hn] at hdeleted ⊢
          exact hdeleted
        · rw [if_neg hn] at hdeleted ⊢
          exact hdeleted
      refine ⟨?_, fun n hn => by rw [hread, if_pos hn], fun n hcontent hn => ?_, ?_⟩
      · rw [discarded, hsources]
        exact OrderedMap.nodup_foldl_delete hboth _
      · rw [hread, if_neg hcontent, hplain n hn, sourceAt]
        cases c.stagedAt n with
        | some _ => rfl
        | none =>
            change (((c.res.bind fun res => res.headers.get n).map HeaderValue.one) <|> none) = _
            cases (c.res.bind fun res => res.headers.get n).map HeaderValue.one <;> rfl
      · rw [hread, if_neg (by decide)]
        cases hcookie : OrderedMap.get? sources (js "set-cookie") with
        | some _ =>
            rw [hcookie] at hcookies
            exact hcookies
        | none =>
            -- Nothing is staged either, as the sources have every cookie.
            rw [hcookie] at hcookies
            have hnone := (List.append_eq_nil_iff.mp hcookies.symm).2
            rw [← hcookies]
            exact hnone

/-! ### The error's own headers -/

def settable (text : FieldText) (entry : JsString × HeaderValue) : Bool :=
  decide (entry.1 ∉ FORBIDDEN_NAMES) && isToken entry.1 &&
    match entry.2 with
    | .one value => (value.findSome? valueFault).isNone
    | .many values =>
        !isSingleton (text.lower entry.1) &&
          values.all fun value => (value.findSome? valueFault).isNone

theorem validateHeaderValue_ok_iff (name value : JsString) :
    (validateHeaderValue name value : Except (Thrown τ) _) = .ok () ↔
      (value.findSome? valueFault).isNone = true := by
  rw [validateHeaderValue]
  cases value.findSome? valueFault with
  | none => exact ⟨fun _ => rfl, fun _ => rfl⟩
  | some _ => exact ⟨nofun, nofun⟩

theorem forM_validate_ok_iff (name : JsString) (values : List JsString) :
    (values.forM (validateHeaderValue name) : Except (Thrown τ) _) = .ok () ↔
      values.all (fun value => (value.findSome? valueFault).isNone) = true := by
  induction values with
  | nil => exact ⟨fun _ => rfl, fun _ => rfl⟩
  | cons value values ih =>
      rw [List.all_cons, Bool.and_eq_true, ← ih, ← validateHeaderValue_ok_iff (τ := τ) name value,
        List.forM_eq_forM, List.forM_cons]
      cases (validateHeaderValue name value : Except (Thrown τ) Unit) with
      | error e => exact ⟨nofun, fun h => nomatch h.1⟩
      | ok _ => exact ⟨fun h => ⟨rfl, h⟩, fun h => h.2⟩

theorem settable_iff (text : FieldText) (field : JsString) (value : HeaderValue) :
    settable text (field, value) = true ↔ Accepts τ text field value := by
  rw [settable]
  simp only [Bool.and_eq_true, decide_eq_true_eq]
  have hname : (validateHeaderName text field : Except (Thrown τ) _) = .ok (text.lower field) ↔
      field ∉ FORBIDDEN_NAMES ∧ isToken field = true := by
    rw [validateHeaderName]
    by_cases hbad : field ∈ FORBIDDEN_NAMES ∨ isToken field = false
    · rw [if_pos hbad]
      constructor
      · intro h
        cases h
      · intro h
        rcases hbad with hforbidden | htoken
        · exact absurd hforbidden h.1
        · rw [htoken] at h
          cases h.2
    · rw [if_neg hbad]
      rw [not_or, Bool.not_eq_false] at hbad
      exact ⟨fun _ => hbad, fun _ => rfl⟩
  cases value with
  | one value =>
      have hitem : (checkedItems field (text.lower field) (.one value) : Except (Thrown τ) _) =
          .ok () ↔ (value.findSome? valueFault).isNone = true := validateHeaderValue_ok_iff _ _
      exact ⟨fun h => ⟨hname.mpr h.1, hitem.mpr h.2⟩, fun h => ⟨hname.mp h.name, hitem.mp h.items⟩⟩
  | many values =>
      have hitems : (checkedItems field (text.lower field) (.many values) :
          Except (Thrown τ) _) = .ok () ↔ (!isSingleton (text.lower field) &&
            values.all fun value => (value.findSome? valueFault).isNone) = true := by
        rw [checkedItems]
        cases isSingleton (text.lower field) with
        | true =>
            constructor
            · intro h
              cases h
            · intro h
              cases h
        | false => exact forM_validate_ok_iff _ _
      exact ⟨fun h => ⟨hname.mpr h.1, hitems.mpr h.2⟩,
        fun h => ⟨hname.mp h.name, hitems.mp h.items⟩⟩

theorem fetchAccepts_of_settable {text : FieldText} {entry : JsString × HeaderValue}
    (h : settable text entry = true) : ∀ item ∈ itemsOf entry.2, fetchAccepts item = true := by
  obtain ⟨field, value⟩ := entry
  rw [settable, Bool.and_eq_true] at h
  intro item hitem
  cases value with
  | one value =>
      obtain rfl := List.mem_singleton.mp hitem
      exact fetchAccepts_of_faultless (Option.isNone_iff_eq_none.mp h.2)
  | many values =>
      have hall := (Bool.and_eq_true _ _ ▸ h.2).2
      exact fetchAccepts_of_faultless
        (Option.isNone_iff_eq_none.mp (List.all_eq_true.mp hall item hitem))

def lastSettable (text : FieldText) (n : JsString) : HeaderMap → Option HeaderValue
  | [] => none
  | entry :: entries =>
      lastSettable text n entries <|>
        if settable text entry = true ∧ text.lower entry.1 = n then some entry.2 else none

theorem stageErrorHeader_spec {text : FieldText} {c : Context σ β} (hres : c.res = none)
    (hnodup : (OrderedMap.keys c.record).Nodup) (entry : JsString × HeaderValue) :
    WritesOnly (fun _ => True) c (stageErrorHeader τ text c entry) ∧
      ∀ n, (stageErrorHeader τ text c entry).stagedAt n =
        if settable text entry = true ∧ text.lower entry.1 = n then some entry.2
        else c.stagedAt n := by
  have hwrites := (HeaderCall.set entry.1 (some entry.2)).run_writes τ text c
  refine ⟨hwrites.mono fun _ _ => trivial, fun n => ?_⟩
  by_cases hname : text.lower entry.1 = n
  · subst hname
    cases hset : settable text entry with
    | true =>
        have hwritable : c.Writable := ⟨hnodup, fun res h => by rw [hres] at h; cases h⟩
        have haccepts : Accepts τ text entry.1 entry.2 := (settable_iff text _ _).mp hset
        obtain ⟨after, hafter⟩ := setResponseHeader_accepts hwritable haccepts
        rw [stageErrorHeader, run_set hafter, if_pos ⟨rfl, rfl⟩]
        exact (setResponseHeader_spec hafter).2.1 hres
    | false =>
        rw [if_neg (by simp), stageErrorHeader, HeaderCall.run, HeaderCall.outcome]
        split
        · next after hafter =>
            -- A call that returns has passed both checks.
            obtain ⟨name, hvalid, hrest⟩ := Except.ok_of_bind hafter
            obtain ⟨_, hchecked, -⟩ := Except.ok_of_bind hrest
            obtain rfl := validateHeaderName_ok hvalid
            have haccepts : settable text (entry.1, entry.2) = true :=
              (settable_iff (τ := τ) text _ _).mpr ⟨hvalid, hchecked⟩
            rw [show settable text (entry.1, entry.2) = settable text entry from rfl, hset]
              at haccepts
            cases haccepts
        · rfl
  · rw [if_neg fun h => hname h.2]
    exact hwrites.staged n (Ne.symm hname)

/-- Staging the error's headers, one after the other. -/
theorem foldl_stageErrorHeader_spec {text : FieldText} (entries : HeaderMap) {c : Context σ β}
    (hres : c.res = none) (hnodup : (OrderedMap.keys c.record).Nodup) :
    WritesOnly (fun _ => True) c (entries.foldl (stageErrorHeader τ text) c) ∧
      ∀ n, (entries.foldl (stageErrorHeader τ text) c).stagedAt n =
        (lastSettable text n entries <|> c.stagedAt n) := by
  induction entries generalizing c with
  | nil => exact ⟨.refl _ c, fun _ => rfl⟩
  | cons entry entries ih =>
      obtain ⟨hfirst, hread⟩ := stageErrorHeader_spec (τ := τ) hres hnodup entry
      have hopen : c.Writable := ⟨hnodup, fun res h => by rw [hres] at h; cases h⟩
      obtain ⟨hrest, hlater⟩ := ih ((res_eq_none_iff hfirst).mpr hres) (hfirst.writable hopen).nodup
      refine ⟨hfirst.trans hrest, fun n => ?_⟩
      rw [List.foldl_cons, hlater, hread, lastSettable]
      cases lastSettable text n entries with
      | some _ => rfl
      | none => split <;> rfl

/-! ### The page -/

theorem construct_ok (runtime : Runtime β) (body : Option (Body β)) {status : ℕ}
    (statusText : JsString) (headers : Headers) (hlow : 200 ≤ status) (hhigh : status ≤ 599)
    (hempty : isNullBodyStatus status = true → body = none) :
    ∃ res, (construct runtime body status statusText headers : Except (Thrown τ) _) = .ok res ∧
      res.status = status ∧ res.body = body ∧ res.headers = headers.unguarded := by
  rw [construct, if_neg (by omega), if_neg]
  · exact ⟨_, rfl, rfl, rfl, rfl⟩
  · rintro ⟨-, hnull, hbody⟩
    rw [hempty hnull] at hbody
    cases hbody

theorem mergeStaged_ok {runtime : Runtime β} {res : Response β} {record : Option HeaderMap}
    (hnodup : (OrderedMap.keys (record.getD [])).Nodup) (hopen : res.headers.immutable = false) :
    ∃ merged, (mergeStaged runtime res record : Except (Thrown τ) _) = .ok merged ∧
      merged.status = res.status ∧ merged.body = res.body := by
  cases record with
  | none => exact ⟨res, rfl, rfl, rfl⟩
  | some record =>
      cases record with
      | nil => exact ⟨res, rfl, rfl, rfl⟩
      | cons entry record =>
          obtain ⟨headers, hheaders, -, -⟩ :=
            foldlM_applyStaged_spec (τ := τ) hnodup res.headers hopen
          refine ⟨{ res with headers }, ?_, rfl, rfl⟩
          rw [mergeStaged, applyStagedHeaders]
          · rw [Option.getD_some] at hheaders
            rw [hheaders]
          · intro hnil
            cases hnil

theorem error_status {status : ℕ} (h : isValidErrorStatus status = true) :
    400 ≤ status ∧ status ≤ 599 := by
  rw [isValidErrorStatus, Bool.and_eq_true, decide_eq_true_eq, decide_eq_true_eq] at h
  exact h

theorem not_null_of_error {status : ℕ} (h : isValidErrorStatus status = true) :
    isNullBodyStatus status = false ∧ isEmptyStatus status = false := by
  obtain ⟨hlow, -⟩ := error_status h
  rw [isNullBodyStatus, isEmptyStatus]
  simp only [Bool.or_eq_false_iff, decide_eq_false_iff_not]
  omega

/-- The closer never fails on an error page. -/
theorem finishCommitted_page {app : Application σ β τ} {c : Context σ β} {page : Response β}
    (hnodup : (OrderedMap.keys c.record).Nodup) (hopen : page.headers.immutable = false)
    (hstatus : isValidErrorStatus page.status = true)
    (hbody : page.body.any Body.locked = false) :
    ∃ res, finishCommitted app c page = .ok res := by
  obtain ⟨merged, hmerged, hsame, hcontent⟩ := mergeStaged_ok (τ := τ) hnodup hopen
  obtain ⟨hlow, hhigh⟩ := error_status hstatus
  obtain ⟨hnull, hempty⟩ := not_null_of_error hstatus
  rw [← hsame] at hlow hhigh hnull hempty
  have hconstruct := fun body => construct_ok (τ := τ) app.runtime body merged.statusText
    merged.headers.copy (le_trans (by decide) hlow) hhigh fun h => by rw [hnull] at h; cases h
  rw [finishCommitted, hmerged]
  change ∃ res, (if (isEmptyStatus merged.status &&
    (merged.body.isSome || describesContent merged.headers)) = true then _ else _) = Except.ok res
  rw [if_neg (by simp [hempty])]
  split
  · obtain ⟨res, hres, -⟩ := hconstruct none
    exact ⟨res, hres⟩
  · split
    · next body _ hsome =>
        rw [hsome] at hcontent
        rw [← hcontent] at hbody
        have hunlocked : body.locked = false := hbody
        obtain ⟨res, hres, -⟩ := hconstruct (some { body with locked := false })
        refine ⟨res, ?_⟩
        rw [repumpStream, hunlocked]
        exact hres
    · exact ⟨merged, rfl⟩

structure ErrorPage (text : FieldText) (c : Context σ β) (error : HttpError)
    (res : Response β) : Prop where
  status : res.status = error.status
  /-- Every other name, the error's own value before the staged and the committed one. -/
  kept : ∀ n, n ∉ MERGE_FORBIDDEN_CONTENT → n ≠ js "set-cookie" → res.headers.reading n =
    readingOf n
      (((lastSettable text n (error.headers.getD []) <|> sourceAt c n).map wireOf).getD [])
  cookies : lastSettable text (js "set-cookie") (error.headers.getD []) = none →
    ∀ value ∈ cookieSources c, value ≠ [] →
      normalized value ∈ res.headers.reading (js "set-cookie")
  ownCookies : ∀ cookies,
    lastSettable text (js "set-cookie") (error.headers.getD []) = some cookies →
    ∀ value ∈ wireOf cookies, value ∈ res.headers.reading (js "set-cookie")
  type : res.headers.reading (js "content-type") = [js "text/plain; charset=utf-8"]
  /-- Nothing else describes a body but what the error says itself. -/
  content : ∀ n ∈ MERGE_FORBIDDEN_CONTENT, n ≠ js "content-type" → res.headers.reading n =
    readingOf n (((lastSettable text n (error.headers.getD [])).map wireOf).getD [])

theorem closed_page {app : Application σ β τ} {c : Context σ β} {page : Response β}
    (hnodup : (OrderedMap.keys c.record).Nodup) (hopen : page.headers.immutable = false)
    (hstatus : isValidErrorStatus page.status = true)
    (hbody : page.body.any Body.locked = false) :
    ∃ res, finishCommitted app c page = .ok res ∧ res.status = page.status ∧
      ∀ n, res.headers.reading n = readingOf n (replayed c.record page.headers n) := by
  obtain ⟨res, hres⟩ := finishCommitted_page hnodup hopen hstatus hbody
  obtain ⟨merged, hmerged, hsame, hvalues⟩ := finishCommitted_spec hres
  obtain ⟨hkept, -, hreplayed⟩ := mergeStaged_spec hnodup hopen hmerged
  have hfinal : res.status = page.status := hsame.trans hkept
  refine ⟨res, hres, hfinal, fun n => ?_⟩
  rw [hvalues, hfinal, shipped, (not_null_of_error hstatus).2, if_neg (by simp), Headers.reading,
    hreplayed]
  rfl

theorem carriable_of_staged {c : Context σ β} (hnodup : (OrderedMap.keys c.record).Nodup)
    (h : ∀ n value, c.stagedAt n = some value → ∀ item ∈ itemsOf value, fetchAccepts item = true) :
    Carriable c.record := by
  intro entry hentry value hvalue
  have hread : c.stagedAt entry.1 = some entry.2 :=
    (OrderedMap.get?_eq_some_iff hnodup entry.1 entry.2).mpr hentry
  exact h _ _ hread value (itemsOf_of_writtenItems hvalue)

theorem lastSettable_legal {text : FieldText} {n : JsString} {entries : HeaderMap}
    {value : HeaderValue} (h : lastSettable text n entries = some value) :
    ∀ item ∈ itemsOf value, fetchAccepts item = true := by
  induction entries with
  | nil => cases h
  | cons entry entries ih =>
      rw [lastSettable] at h
      cases hlater : lastSettable text n entries with
      | some later =>
          rw [hlater] at h
          obtain rfl := Option.some.inj h
          exact ih hlater
      | none =>
          rw [hlater] at h
          change (if settable text entry = true ∧ text.lower entry.1 = n then some entry.2
            else none) = some value at h
          split at h
          · next hset =>
              obtain rfl := Option.some.inj h
              exact fetchAccepts_of_settable hset.1
          · cases h

/-- What is left to stage is legal. -/
theorem legal_discarded {c : Context σ β} (hc : Legal c) (n : JsString) (value : HeaderValue)
    (h : (discarded c).stagedAt n = some value) :
    ∀ item ∈ itemsOf value, fetchAccepts item = true := by
  obtain ⟨-, hcontent, hplain, hcookies⟩ := discarded_spec hc.nodup
  by_cases hn : n ∈ MERGE_FORBIDDEN_CONTENT
  · rw [hcontent n hn] at h
    cases h
  · by_cases hcookie : n = js "set-cookie"
    · subst hcookie
      rw [h] at hcookies
      have hitems : itemsOf value = cookieSources c := hcookies
      rw [hitems]
      exact legal_cookieSources hc
    · rw [hplain n hn hcookie] at h
      exact legal_sourceAt hc h

/-- The page as it is staged: the error's headers over what was discarded, and
its content type. -/
theorem stagedPage_spec {text : FieldText} {c : Context σ β} {error : HttpError} (hc : Legal c)
    (htype : text.lower (js "Content-Type") = js "content-type") {status : ℕ} :
    let staged := stageErrorHeader τ text
      { (error.headers.getD []).foldl (stageErrorHeader τ text) (discarded c) with
        statusValue := status }
      (js "Content-Type", .one (js "text/plain; charset=utf-8"))
    (OrderedMap.keys staged.record).Nodup ∧ staged.method = c.method ∧
      ∀ n, staged.stagedAt n =
        if js "content-type" = n then some (.one (js "text/plain; charset=utf-8"))
        else (lastSettable text n (error.headers.getD []) <|> (discarded c).stagedAt n) := by
  obtain ⟨hnodup, -, -, -⟩ := discarded_spec hc.nodup
  have hres := res_discarded c
  obtain ⟨hwrites, hread⟩ :=
    foldl_stageErrorHeader_spec (τ := τ) (error.headers.getD []) hres hnodup
  have hopen : (discarded c).Writable := ⟨hnodup, fun res h => by rw [hres] at h; cases h⟩
  set errors := (error.headers.getD []).foldl (stageErrorHeader τ text) (discarded c)
  have hnone : errors.res = none := (res_eq_none_iff hwrites).mpr hres
  have hkeys : (OrderedMap.keys errors.record).Nodup := (hwrites.writable hopen).nodup
  have hready : ({ errors with statusValue := status } : Context σ β).Writable :=
    ⟨hkeys, fun res h => by rw [hnone] at h; cases h⟩
  obtain ⟨hlast, htyped⟩ := stageErrorHeader_spec (τ := τ)
    (c := { errors with statusValue := status }) hnone hkeys
    (js "Content-Type", .one (js "text/plain; charset=utf-8"))
  have hset : settable text (js "Content-Type", .one (js "text/plain; charset=utf-8")) = true := by
    change (decide (js "Content-Type" ∉ FORBIDDEN_NAMES) && isToken (js "Content-Type") &&
      ((js "text/plain; charset=utf-8").findSome? valueFault).isNone) = true
    decide +kernel
  refine ⟨(hlast.writable hready).nodup, ?_, fun n => ?_⟩
  · rw [hlast.method]
    exact hwrites.method.trans (method_discarded c)
  · rw [htyped, hset, htype, ← hread]
    simp only [true_and]
    rfl

def pageType : JsString := js "text/plain; charset=utf-8"

theorem normalized_pageType : normalized pageType = pageType := by decide +kernel

/-- The page before anything is written over it. -/
def barePage (app : Application σ β τ) (error : HttpError) : Response β where
  status := error.status
  statusText := []
  headers := ⟨[(js "content-type", pageType)], false⟩
  body := some ⟨app.runtime.text error.page, false⟩

theorem values_barePage (app : Application σ β τ) (error : HttpError) (n : JsString) :
    (barePage app error).headers.values n = if js "content-type" = n then [pageType] else [] := by
  rw [barePage, Headers.values]
  by_cases hn : js "content-type" = n <;> simp [hn]

theorem reading_barePage (app : Application σ β τ) (error : HttpError) (n : JsString) :
    (barePage app error).headers.reading n =
      if js "content-type" = n then [pageType] else [] := by
  rw [Headers.reading, values_barePage]
  split
  · rw [readingOf_singleton, normalized_pageType]
  · exact readingOf_nil n

/-- Where nothing was staged or committed and the error has no headers, the page
is served as it is. -/
theorem barePage_page {app : Application σ β τ} {text : FieldText} {c : Context σ β}
    {error : HttpError} (hc : Legal c) (hheaders : error.headers = none)
    (hstaged : ∀ n, (discarded c).stagedAt n = none) :
    ErrorPage text c error (barePage app error) := by
  obtain ⟨-, -, hplain, hcookies⟩ := discarded_spec hc.nodup
  refine ⟨rfl, fun n hn hcookie => ?_, fun _ value hvalue _ => ?_, fun cookies hown => ?_, ?_,
    fun n hn hne => ?_⟩
  · have hne : js "content-type" ≠ n := fun heq => hn (heq ▸ List.mem_cons_self)
    rw [reading_barePage, if_neg hne, hheaders, ← hplain n hn hcookie, hstaged]
    exact (readingOf_nil n).symm
  · rw [← hcookies, hstaged] at hvalue
    cases hvalue
  · rw [hheaders] at hown
    cases hown
  · rw [reading_barePage, if_pos rfl]
    rfl
  · rw [reading_barePage, if_neg (Ne.symm hne), hheaders]
    exact (readingOf_nil n).symm

section

variable {app : Application σ β τ} {text : FieldText} {c staged : Context σ β}
  {error : HttpError}

theorem carriable_stagedPage (hc : Legal c) (hkeys : (OrderedMap.keys staged.record).Nodup)
    (hread : ∀ n, staged.stagedAt n = if js "content-type" = n then some (.one pageType)
      else (lastSettable text n (error.headers.getD []) <|> (discarded c).stagedAt n)) :
    Carriable staged.record := by
  refine carriable_of_staged hkeys fun n value hvalue => ?_
  rw [hread] at hvalue
  split at hvalue
  · obtain rfl := Option.some.inj hvalue
    intro item hitem
    obtain rfl := List.mem_singleton.mp hitem
    decide +kernel
  · cases hlast : lastSettable text n (error.headers.getD []) with
    | some last =>
        rw [hlast] at hvalue
        obtain rfl := Option.some.inj hvalue
        exact lastSettable_legal hlast
    | none =>
        rw [hlast] at hvalue
        exact legal_discarded hc n value hvalue

/-- Written over the bare page, the staged one reads as it should. -/
theorem stagedPage_page (hc : Legal c)
    (hread : ∀ n, staged.stagedAt n = if js "content-type" = n then some (.one pageType)
      else (lastSettable text n (error.headers.getD []) <|> (discarded c).stagedAt n))
    {res : Response β} (hstatus : res.status = error.status)
    (hclosed : ∀ n, res.headers.reading n =
      readingOf n (replayed staged.record (barePage app error).headers n)) :
    ErrorPage text c error res := by
  obtain ⟨-, hcontent, hplain, hcookies⟩ := discarded_spec hc.nodup
  have hfinal : ∀ n, n ≠ js "content-type" → n ≠ js "set-cookie" → res.headers.reading n =
      readingOf n (((lastSettable text n (error.headers.getD []) <|>
        (discarded c).stagedAt n).map wireOf).getD []) := by
    intro n hn hcookie
    have hstagedAt := hread n
    rw [if_neg (Ne.symm hn)] at hstagedAt
    have hget : OrderedMap.get? staged.record n = staged.stagedAt n := rfl
    rw [hclosed, replayed, ← hstagedAt, values_barePage, if_neg (Ne.symm hn), hget]
    cases staged.stagedAt n with
    | none => rfl
    | some value => exact congrArg (readingOf n) (if_neg hcookie)
  have hjoined : ∀ cookies, staged.stagedAt (js "set-cookie") = some cookies →
      ∀ value ∈ wireOf cookies, value ∈ res.headers.reading (js "set-cookie") := by
    intro cookies hstagedAt value hvalue
    have hget : OrderedMap.get? staged.record (js "set-cookie") = some cookies := hstagedAt
    rw [hclosed, replayed, hget]
    dsimp only
    rw [if_pos rfl, readingOf, if_pos rfl, List.map_append, map_normalized_wireOf]
    exact List.mem_append_right _ hvalue
  have hcookieAt := hread (js "set-cookie")
  rw [if_neg (by decide)] at hcookieAt
  refine ⟨hstatus, fun n hn hcookie => ?_, fun hnone value hvalue hne => ?_,
    fun cookies hown => ?_, ?_, fun n hn hne => ?_⟩
  · have htyped : n ≠ js "content-type" := fun heq => hn (heq ▸ List.mem_cons_self)
    rw [hfinal n htyped hcookie, hplain n hn hcookie]
  · -- A cookie that was discarded is staged, or joined under another one.
    rw [hnone] at hcookieAt
    have hsame : staged.stagedAt (js "set-cookie") = (discarded c).stagedAt (js "set-cookie") :=
      hcookieAt
    rw [← hcookies, ← hsame] at hvalue
    cases hcookie : staged.stagedAt (js "set-cookie") with
    | none =>
        rw [hcookie] at hvalue
        cases hvalue
    | some cookies =>
        rw [hcookie] at hvalue
        apply hjoined cookies hcookie
        rw [wireOf_eq]
        exact List.mem_map_of_mem (mem_writtenItems hvalue hne)
  · rw [hown] at hcookieAt
    exact hjoined cookies hcookieAt
  · -- The page's own type was staged last.
    have hstagedAt := hread (js "content-type")
    rw [if_pos rfl] at hstagedAt
    have htyped : OrderedMap.get? staged.record (js "content-type") = some (.one pageType) :=
      hstagedAt
    rw [hclosed, replayed, htyped]
    dsimp only
    rw [if_neg (by decide), wireOf, readingOf_singleton, normalized_normalized,
      normalized_pageType]
    rfl
  · have hcookie : n ≠ js "set-cookie" := by
      rintro rfl
      exact absurd hn (by decide)
    rw [hfinal n hne hcookie, hcontent n hn]
    cases lastSettable text n (error.headers.getD []) <;> rfl

end

/-- The built-in page keeps what was staged and what was committed. -/
theorem builtinErrorResponse_page {app : Application σ β τ} {text : FieldText} {c : Context σ β}
    {error : HttpError} (hc : Legal c)
    (htype : text.lower (js "Content-Type") = js "content-type") :
    ErrorPage text c error (builtinErrorResponse app text c error).2 := by
  rw [builtinErrorResponse]
  change ErrorPage text c error (if _ then (discarded c, barePage app error) else _).2
  split
  · next hfast =>
      have hempty : (discarded c).record = [] := by
        rcases hfast.1 with hnone | hempty
        · have hsources := Option.isNone_iff_eq_none.mp hnone
          rw [discarded, hsources]
          change c.staged.headersRecord.getD [] = []
          rw [reconciled_eq_none hsources]
          rfl
        · exact hempty
      apply barePage_page hc (Option.isNone_iff_eq_none.mp hfast.2.1)
      intro n
      rw [Context.stagedAt, hempty]
      rfl
  · set staged := stageErrorHeader τ text
      { (error.headers.getD []).foldl (stageErrorHeader τ text) (discarded c) with
        statusValue := error.status }
      (js "Content-Type", .one (js "text/plain; charset=utf-8")) with hstaged
    obtain ⟨hkeys, hmethod, hread⟩ :=
      @stagedPage_spec σ β τ text c error hc htype error.status
    rw [← hstaged] at hkeys hmethod hread
    obtain ⟨res, hres, hstatus, hclosed⟩ : ∃ res,
        finishCommitted app staged (barePage app error) = .ok res ∧
          res.status = (barePage app error).status ∧ ∀ n, res.headers.reading n =
            readingOf n (replayed staged.record (barePage app error).headers n) :=
      closed_page hkeys rfl error.valid rfl
    change ErrorPage text c error (if Carriable staged.record then _ else
      ((staged, staticServerError app.runtime staged.method) : Context σ β × Response β)).2
    rw [if_pos (carriable_stagedPage hc hkeys hread)]
    generalize hfinish : finishCommitted app _ _ = outcome
    obtain rfl : outcome = .ok res := hfinish.symm.trans hres
    exact stagedPage_page hc hread hstatus hclosed

end Keala.Core
