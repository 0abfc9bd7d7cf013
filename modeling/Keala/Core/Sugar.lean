import Keala.Core.LastWrite
import Keala.Js.Uri

/-!
Response sugar helpers (`src/core/context/sugar.ts`): they deliver the staged
headers inside the response they build, and clear the record.
-/

namespace Keala.Core

open Keala.Js Keala.Http

variable {σ β τ : Type}

def TEXT_PLAIN : JsString := js "text/plain; charset=utf-8"

def TEXT_HTML : JsString := js "text/html; charset=utf-8"

/-! ### Headers -/

def dropContentHeaders (merged : HeaderMap) : HeaderMap :=
  CONTENT_HEADERS.foldl OrderedMap.delete merged

/-- Per-call headers over the staged ones, in lowercase. -/
def mergedHeadersOf (text : FieldText) (record headers : Option HeaderMap) : Option HeaderMap :=
  match headers with
  | none => record
  | some headers =>
      some (headers.foldl
        (fun merged entry => OrderedMap.set merged (text.lower entry.1) entry.2) (record.getD []))

def headerInit (headers : Headers) (entry : JsString × HeaderValue) : Except (Thrown τ) Headers :=
  match entry.2 with
  | .one value => headers.set entry.1 value
  | .many values => headers.appendAll entry.1 (values.filter fun value => !value.isEmpty)

def headersInitOf (merged : HeaderMap) : Except (Thrown τ) Headers :=
  merged.foldlM headerInit Headers.empty

def withDefaultType (merged : HeaderMap) (type : JsString) : HeaderMap :=
  if OrderedMap.get? merged (js "content-type") = none then
    OrderedMap.set merged (js "content-type") (.one type)
  else merged

/-! ### The helpers -/

def byteLength (body : JsString) : ℕ := ((codePoints body).map fun cp => (utf8 cp).length).sum

def emptyStatusResponse (runtime : Runtime β) (status : ℕ) (merged : Option HeaderMap) :
    Except (Thrown τ) (Response β) := do
  let headers ← headersInitOf (dropContentHeaders (merged.getD []))
  construct runtime none status [] headers

/-- HEAD view: no body, and the length of the one there would be. -/
def sugarHead (runtime : Runtime β) (merged : Option HeaderMap) (contentType : Option JsString)
    (bodyLength : ℕ) (status : Option ℕ) : Except (Thrown τ) (Response β) := do
  let record := (contentType.map (withDefaultType (merged.getD []))).getD (merged.getD [])
  let headers ← headersInitOf
    (OrderedMap.set record (js "content-length") (.one (js (toString bodyLength))))
  construct runtime none (status.getD 200) [] headers

def sugarBody (runtime : Runtime β) (body : JsString) (status : Option ℕ) (merged : HeaderMap) :
    Except (Thrown τ) (Response β) := do
  let headers ← headersInitOf merged
  construct runtime (some ⟨runtime.text body, false⟩) (status.getD 200) [] headers

/-- A text without headers: a native source plans its type, the `Response` of a
Fetch source brings its own. -/
def textResponse (runtime : Runtime β) (native : Bool) (body : JsString) (status : Option ℕ) :
    Except (Thrown τ) (Response β) :=
  if native then sugarBody runtime body status [(js "content-type", .one TEXT_PLAIN)]
  else constructText runtime body (status.getD 200)

inductive SugarKind
  | text
  | json
  | html
  deriving DecidableEq

/-- A call of a helper; the payload of `c.json` is given as its JSON text. -/
structure SugarCall where
  kind : SugarKind
  body : JsString
  status : Option ℕ
  headers : Option HeaderMap

section Helpers

variable (runtime : Runtime β) (native head : Bool) (body : JsString) (status : Option ℕ)
  (merged : Option HeaderMap)

def sugarText : Except (Thrown τ) (Response β) :=
  if status.any isEmptyStatus then emptyStatusResponse runtime (status.getD 200) merged
  else if head then sugarHead runtime merged (some TEXT_PLAIN) (byteLength body) status
  else
    match merged with
    | none => textResponse runtime native body status
    | some merged => sugarBody runtime body status (withDefaultType merged TEXT_PLAIN)

def sugarJson : Except (Thrown τ) (Response β) :=
  if status.any isEmptyStatus then emptyStatusResponse runtime (status.getD 200) merged
  else if head then sugarHead runtime merged (some (js "application/json")) (byteLength body) status
  else sugarBody runtime body status (withDefaultType (merged.getD []) (js "application/json"))

def sugarHtml : Except (Thrown τ) (Response β) :=
  let withType := withDefaultType (merged.getD []) TEXT_HTML
  if status.any isEmptyStatus then emptyStatusResponse runtime (status.getD 200) (some withType)
  else if head then sugarHead runtime (some withType) none (byteLength body) status
  else sugarBody runtime body status withType

end Helpers

def SugarCall.build (runtime : Runtime β) (native head : Bool) (call : SugarCall)
    (merged : Option HeaderMap) : Except (Thrown τ) (Response β) :=
  match call.kind with
  | .text => sugarText runtime native head call.body call.status merged
  | .json => sugarJson runtime head call.body call.status merged
  | .html => sugarHtml runtime head call.body call.status merged

def clearStaged (c : Context σ β) : Context σ β :=
  match c.staged.headersRecord with
  | none => c
  | some _ => c.withRecord []

/-- What a helper without per-call headers has written into the live record
when the construction throws. -/
def SugarCall.scratch (native head : Bool) (call : SugarCall) (record : HeaderMap) : HeaderMap :=
  match call.kind with
  | .text => if head then record else withDefaultType record TEXT_PLAIN
  | .json =>
      if head ∨ native = false then record else withDefaultType record (js "application/json")
  | .html => withDefaultType record TEXT_HTML

def SugarCall.run (τ : Type) (runtime : Runtime β) (native : Bool) (text : FieldText)
    (c : Context σ β) (call : SugarCall) : Context σ β × Except (Thrown τ) (Response β) :=
  let head := decide (c.method = js "HEAD")
  match (call.build runtime native head
    (mergedHeadersOf text c.staged.headersRecord call.headers) : Except (Thrown τ) _) with
  | .ok res => (clearStaged c, .ok res)
  | .error e =>
      match call.headers, c.staged.headersRecord with
      | none, some record => (c.withRecord (call.scratch native head record), .error e)
      | _, _ => (clearStaged c, .error e)

/-! ### What is delivered -/

theorem headerInit_spec (headers : Headers) (h : headers.immutable = false)
    (entry : JsString × HeaderValue) (hfresh : headers.values entry.1 = []) :
    ∃ after, (headerInit headers entry : Except (Thrown τ) _) = .ok after ∧
      after.immutable = false ∧ ∀ n, after.values n =
        if entry.1 = n then wireOf entry.2 else headers.values n := by
  obtain ⟨name, value⟩ := entry
  cases value with
  | one value =>
      refine ⟨_, Headers.set_eq headers h name value, h, fun n => ?_⟩
      rw [Headers.values_set]
      rfl
  | many values =>
      refine ⟨_, Headers.appendAll_eq headers h name _, h, fun n => ?_⟩
      rw [Headers.values_added]
      by_cases hn : name = n
      · subst hn
        rw [if_pos rfl, if_pos rfl, hfresh]
        rfl
      · rw [if_neg hn, if_neg hn, List.append_nil]

theorem foldlM_headerInit_spec {merged : HeaderMap} (hnodup : (OrderedMap.keys merged).Nodup)
    (headers : Headers) (h : headers.immutable = false)
    (hfresh : ∀ n ∈ OrderedMap.keys merged, headers.values n = []) :
    ∃ after, (merged.foldlM headerInit headers : Except (Thrown τ) _) = .ok after ∧
      ∀ n, after.values n = ((OrderedMap.get? merged n).map wireOf).getD (headers.values n) := by
  induction merged generalizing headers with
  | nil => exact ⟨headers, rfl, fun _ => rfl⟩
  | cons entry merged ih =>
      rw [OrderedMap.keys_cons] at hnodup hfresh
      rw [List.nodup_cons] at hnodup
      obtain ⟨next, hnext, hopen, hvalues⟩ :=
        headerInit_spec (τ := τ) headers h entry (hfresh _ List.mem_cons_self)
      have hlater : ∀ n ∈ OrderedMap.keys merged, next.values n = [] := by
        intro n hn
        have hne : entry.1 ≠ n := fun heq => hnodup.1 (heq ▸ hn)
        rw [hvalues, if_neg hne]
        exact hfresh n (List.mem_cons_of_mem _ hn)
      obtain ⟨after, hafter, hread⟩ := ih hnodup.2 next hopen hlater
      refine ⟨after, ?_, fun n => ?_⟩
      · rw [List.foldlM_cons, hnext]
        exact hafter
      · rw [hread, hvalues, OrderedMap.get?_cons]
        by_cases heq : entry.1 = n
        · have hnone : OrderedMap.get? merged n = none := by
            rw [OrderedMap.get?_eq_none_iff, ← heq]
            exact hnodup.1
          rw [hnone, if_pos heq, if_pos heq]
          rfl
        · rw [if_neg heq, if_neg heq]

/-- A record is constructed into a mutable response that carries what of it
reaches the wire. -/
theorem constructed_spec {runtime : Runtime β} {merged : HeaderMap} {body : Option (Body β)}
    {status : ℕ} {res : Response β} (hnodup : (OrderedMap.keys merged).Nodup)
    (h : (do
      let headers ← headersInitOf merged
      construct runtime body status [] headers : Except (Thrown τ) _) = .ok res) :
    res.status = status ∧ res.headers.immutable = false ∧
      ∀ n, res.headers.values n = ((OrderedMap.get? merged n).map wireOf).getD [] := by
  obtain ⟨headers, hheaders, h⟩ := Except.ok_of_bind h
  obtain ⟨after, hafter, hread⟩ :=
    foldlM_headerInit_spec (τ := τ) hnodup Headers.empty rfl fun _ _ => rfl
  obtain rfl : after = headers := Except.ok.inj (hafter.symm.trans hheaders)
  obtain ⟨hstatus, hopen, hentries⟩ := construct_spec h
  refine ⟨hstatus, hopen, fun n => ?_⟩
  rw [Headers.values, hentries]
  exact hread n

theorem get?_withDefaultType {merged : HeaderMap} {n : JsString} {value : HeaderValue}
    (h : OrderedMap.get? merged n = some value) (type : JsString) :
    OrderedMap.get? (withDefaultType merged type) n = some value := by
  rw [withDefaultType]
  split
  · next hnone =>
      have hne : js "content-type" ≠ n := by
        rintro rfl
        rw [h] at hnone
        cases hnone
      rw [OrderedMap.get?_set_ne _ _ hne, h]
  · exact h

theorem nodup_withDefaultType {merged : HeaderMap} (hnodup : (OrderedMap.keys merged).Nodup)
    (type : JsString) : (OrderedMap.keys (withDefaultType merged type)).Nodup := by
  rw [withDefaultType]
  split
  · exact OrderedMap.nodup_set hnodup _ _
  · exact hnodup

/-- A staged header that the helper does not write itself is delivered, unless
the status forbids the body it describes. -/
structure Delivers (head : Bool) (merged : HeaderMap) (res : Response β) : Prop where
  mutable : res.headers.immutable = false
  values : ∀ n value, OrderedMap.get? merged n = some value →
    ¬(head = true ∧ n = js "content-length") →
    res.headers.values n =
      if isEmptyStatus res.status = true ∧ n ∈ CONTENT_HEADERS then [] else wireOf value

section Helpers

variable {runtime : Runtime β} {head : Bool} {body : JsString} {status : Option ℕ}
  {merged : Option HeaderMap} {res : Response β}

theorem emptyStatusResponse_delivers {status : ℕ} (hempty : isEmptyStatus status = true)
    (hnodup : (OrderedMap.keys (merged.getD [])).Nodup)
    (h : (emptyStatusResponse runtime status merged : Except (Thrown τ) _) = .ok res) :
    Delivers head (merged.getD []) res := by
  rw [emptyStatusResponse] at h
  obtain ⟨hstatus, hopen, hread⟩ :=
    constructed_spec (OrderedMap.nodup_foldl_delete hnodup CONTENT_HEADERS) h
  refine ⟨hopen, fun n value hvalue _ => ?_⟩
  rw [hread, OrderedMap.get?_foldl_delete hnodup, hstatus, hempty, hvalue]
  by_cases hn : n ∈ CONTENT_HEADERS
  · rw [if_pos hn, if_pos ⟨rfl, hn⟩]
    rfl
  · rw [if_neg hn, if_neg (fun h => hn h.2)]
    rfl

/-- A status that keeps its body. -/
theorem not_empty_getD (h : status.any isEmptyStatus = false) :
    isEmptyStatus (status.getD 200) = false := by
  cases status with
  | none => rfl
  | some status => exact h

/-- A record that extends the staged one is delivered with a body. -/
theorem constructed_delivers {record full : HeaderMap} {content : Option (Body β)}
    (hstatus : status.any isEmptyStatus = false) (hnodup : (OrderedMap.keys full).Nodup)
    (hfull : ∀ n value, OrderedMap.get? record n = some value →
      ¬(head = true ∧ n = js "content-length") → OrderedMap.get? full n = some value)
    (h : (do
      let headers ← headersInitOf full
      construct runtime content (status.getD 200) [] headers : Except (Thrown τ) _) = .ok res) :
    Delivers head record res := by
  obtain ⟨hres, hopen, hread⟩ := constructed_spec hnodup h
  refine ⟨hopen, fun n value hvalue hn => ?_⟩
  rw [hread, hres, not_empty_getD hstatus, hfull n value hvalue hn, if_neg (by simp)]
  rfl

theorem sugarHead_delivers {contentType : Option JsString} {bodyLength : ℕ}
    (hstatus : status.any isEmptyStatus = false)
    (hnodup : (OrderedMap.keys (merged.getD [])).Nodup)
    (h : (sugarHead runtime merged contentType bodyLength status : Except (Thrown τ) _) = .ok res) :
    Delivers true (merged.getD []) res := by
  rw [sugarHead] at h
  refine constructed_delivers hstatus (OrderedMap.nodup_set ?_ _ _) (fun n value hvalue hn => ?_) h
  · cases contentType with
    | none => exact hnodup
    | some type => exact nodup_withDefaultType hnodup type
  · have hne : js "content-length" ≠ n := fun heq => hn ⟨rfl, heq.symm⟩
    rw [OrderedMap.get?_set_ne _ _ hne]
    cases contentType with
    | none => exact hvalue
    | some type => exact get?_withDefaultType hvalue type

theorem sugarBody_delivers {record full : HeaderMap} (hstatus : status.any isEmptyStatus = false)
    (hnodup : (OrderedMap.keys full).Nodup)
    (hfull : ∀ n value, OrderedMap.get? record n = some value → OrderedMap.get? full n = some value)
    (h : (sugarBody runtime body status full : Except (Thrown τ) _) = .ok res) :
    Delivers head record res :=
  constructed_delivers hstatus hnodup (fun n value hvalue _ => hfull n value hvalue) h

theorem empty_getD (h : status.any isEmptyStatus = true) :
    isEmptyStatus (status.getD 200) = true := by
  cases status with
  | none => cases h
  | some status => exact h

/-- Delivering a record with a default type is delivering the record. -/
theorem Delivers.of_withDefaultType {record : HeaderMap} {type : JsString}
    (h : Delivers head (withDefaultType record type) res) : Delivers head record res :=
  ⟨h.mutable, fun n value hvalue => h.values n value (get?_withDefaultType hvalue type)⟩

theorem typed_delivers {record : HeaderMap} {type : JsString}
    (hstatus : status.any isEmptyStatus = false) (hnodup : (OrderedMap.keys record).Nodup)
    (h : (sugarBody runtime body status (withDefaultType record type) : Except (Thrown τ) _) =
      .ok res) : Delivers head record res :=
  sugarBody_delivers hstatus (nodup_withDefaultType hnodup type)
    (fun _ _ hvalue => get?_withDefaultType hvalue type) h

theorem sugarText_delivers {native : Bool} (hnodup : (OrderedMap.keys (merged.getD [])).Nodup)
    (h : (sugarText runtime native head body status merged : Except (Thrown τ) _) = .ok res) :
    Delivers head (merged.getD []) res := by
  unfold sugarText at h
  split at h
  · next hany => exact emptyStatusResponse_delivers (empty_getD hany) hnodup h
  · next hany =>
      rw [Bool.not_eq_true] at hany
      split at h
      · next hhead =>
          subst hhead
          exact sugarHead_delivers hany hnodup h
      · split at h
        · -- Nothing is staged and no header is given.
          refine ⟨?_, fun n value hvalue => nomatch hvalue⟩
          rw [textResponse] at h
          split at h
          · rw [sugarBody] at h
            have hone : (OrderedMap.keys
                [(js "content-type", HeaderValue.one TEXT_PLAIN)]).Nodup := List.nodup_singleton _
            exact (constructed_spec hone h).2.1
          · exact (construct_spec h).2.1
        · exact typed_delivers hany hnodup h

theorem sugarJson_delivers (hnodup : (OrderedMap.keys (merged.getD [])).Nodup)
    (h : (sugarJson runtime head body status merged : Except (Thrown τ) _) = .ok res) :
    Delivers head (merged.getD []) res := by
  rw [sugarJson] at h
  split at h
  · next hany => exact emptyStatusResponse_delivers (empty_getD hany) hnodup h
  · next hany =>
      rw [Bool.not_eq_true] at hany
      split at h
      · next hhead =>
          subst hhead
          exact sugarHead_delivers hany hnodup h
      · exact typed_delivers hany hnodup h

theorem sugarHtml_delivers (hnodup : (OrderedMap.keys (merged.getD [])).Nodup)
    (h : (sugarHtml runtime head body status merged : Except (Thrown τ) _) = .ok res) :
    Delivers head (merged.getD []) res := by
  set typed := withDefaultType (merged.getD []) TEXT_HTML with htyped
  have hkeys : (OrderedMap.keys ((some typed).getD [])).Nodup :=
    nodup_withDefaultType hnodup TEXT_HTML
  rw [sugarHtml, ← htyped] at h
  -- Each helper is given the record with its type.
  have hrest : Delivers head ((some typed).getD []) res → Delivers head (merged.getD []) res :=
    Delivers.of_withDefaultType
  split at h
  · next hany =>
      exact hrest (emptyStatusResponse_delivers (empty_getD hany) hkeys h)
  · next hany =>
      rw [Bool.not_eq_true] at hany
      split at h
      · next hhead =>
          subst hhead
          exact hrest (sugarHead_delivers hany hkeys h)
      · exact typed_delivers hany hnodup h

/-- A helper delivers the merged headers. -/
theorem SugarCall.build_delivers {native : Bool} {call : SugarCall}
    (hnodup : (OrderedMap.keys (merged.getD [])).Nodup)
    (h : (call.build runtime native head merged : Except (Thrown τ) _) = .ok res) :
    Delivers head (merged.getD []) res := by
  rw [build] at h
  split at h
  · exact sugarText_delivers hnodup h
  · exact sugarJson_delivers hnodup h
  · exact sugarHtml_delivers hnodup h

end Helpers

def SugarCall.Writes (text : FieldText) (head : Bool) (call : SugarCall) (n : JsString) : Prop :=
  (∃ headers, call.headers = some headers ∧ ∃ entry ∈ headers, text.lower entry.1 = n) ∨
    (head = true ∧ n = js "content-length")

theorem foldl_set_spec (text : FieldText) (headers record : HeaderMap)
    (hnodup : (OrderedMap.keys record).Nodup) :
    (OrderedMap.keys (headers.foldl
      (fun merged entry => OrderedMap.set merged (text.lower entry.1) entry.2) record)).Nodup ∧
    ∀ n, (∀ entry ∈ headers, text.lower entry.1 ≠ n) →
      OrderedMap.get? (headers.foldl
        (fun merged entry => OrderedMap.set merged (text.lower entry.1) entry.2) record) n =
      OrderedMap.get? record n := by
  induction headers generalizing record with
  | nil => exact ⟨hnodup, fun _ _ => rfl⟩
  | cons entry headers ih =>
      obtain ⟨hkeys, hread⟩ :=
        ih (OrderedMap.set record (text.lower entry.1) entry.2) (OrderedMap.nodup_set hnodup _ _)
      refine ⟨hkeys, fun n hn => ?_⟩
      rw [List.foldl_cons, hread n fun other hother => hn other (List.mem_cons_of_mem _ hother),
        OrderedMap.get?_set_ne _ _ (hn entry List.mem_cons_self)]

theorem mergedHeadersOf_spec (text : FieldText) {c : Context σ β} (hc : c.Writable)
    (headers : Option HeaderMap) :
    (OrderedMap.keys ((mergedHeadersOf text c.staged.headersRecord headers).getD [])).Nodup ∧
    ∀ n, (¬∃ given, headers = some given ∧ ∃ entry ∈ given, text.lower entry.1 = n) →
      OrderedMap.get? ((mergedHeadersOf text c.staged.headersRecord headers).getD []) n =
        c.stagedAt n := by
  cases headers with
  | none => exact ⟨hc.nodup, fun _ _ => rfl⟩
  | some headers =>
      obtain ⟨hkeys, hread⟩ := foldl_set_spec text headers c.record hc.nodup
      refine ⟨hkeys, fun n hn => ?_⟩
      apply hread
      intro entry hentry heq
      exact hn ⟨headers, rfl, entry, hentry, heq⟩

/-! ### The record is consumed -/

theorem record_clearStaged (c : Context σ β) : (clearStaged c).record = [] := by
  rw [clearStaged]
  split
  · next hnone => rw [Context.record, hnone]; rfl
  · rfl

theorem res_clearStaged (c : Context σ β) : (clearStaged c).res = c.res := by
  rw [clearStaged]
  split <;> rfl

theorem stagedAt_clearStaged (c : Context σ β) (n : JsString) :
    (clearStaged c).stagedAt n = none := by
  rw [Context.stagedAt, record_clearStaged]
  rfl

theorem clearStaged_writable {c : Context σ β} (h : c.Writable) : (clearStaged c).Writable where
  nodup := by
    rw [record_clearStaged]
    exact List.nodup_nil
  mutable := by
    rw [res_clearStaged]
    exact h.mutable

/-- A helper that returns clears the record, and its response carries what was
staged but not written by the call itself. -/
theorem SugarCall.run_spec {runtime : Runtime β} {native : Bool} {text : FieldText}
    {c after : Context σ β} {call : SugarCall} {res : Response β} (hc : c.Writable)
    (h : call.run τ runtime native text c = (after, .ok res)) :
    after = clearStaged c ∧ res.headers.immutable = false ∧
      ∀ n value, c.stagedAt n = some value →
        ¬call.Writes text (decide (c.method = js "HEAD")) n →
        res.headers.values n =
          if isEmptyStatus res.status = true ∧ n ∈ CONTENT_HEADERS then [] else wireOf value := by
  obtain ⟨hnodup, hread⟩ := mergedHeadersOf_spec text hc call.headers
  rw [run] at h
  split at h
  · next built hbuilt =>
      obtain ⟨rfl, hres⟩ := Prod.mk.inj h
      obtain rfl := Except.ok.inj hres
      have hdelivers := call.build_delivers hnodup hbuilt
      refine ⟨rfl, hdelivers.mutable, fun n value hvalue hn => ?_⟩
      rw [Writes, not_or] at hn
      exact hdelivers.values n value ((hread n hn.1).trans hvalue) hn.2
  · split at h
    · cases (Prod.mk.inj h).2
    · cases (Prod.mk.inj h).2

end Keala.Core
