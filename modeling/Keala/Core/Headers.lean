import Keala.Core.Respond
import Keala.Http.Fields
import Keala.Lib.Except

/-!
Response header operations (`src/core/context/headers.ts`): before a commit
they reach the staged record, after it the committed response and, for the
names that mirror, the record as well.
-/

namespace Keala.Core

open Keala.Js Keala.Http

variable {σ β τ : Type}

/-! ### The operations -/

def isSingleton (name : JsString) : Bool := name = js "content-type" || name = js "content-length"

/-- The names that describe the body they were written against. -/
def MIRROR_FORBIDDEN : List JsString :=
  [js "content-type", js "content-length", js "transfer-encoding", js "content-encoding"]

def itemsOf : HeaderValue → List JsString
  | .one value => [value]
  | .many values => values

def Context.record (c : Context σ β) : HeaderMap := c.staged.headersRecord.getD []

def Context.withRecord (c : Context σ β) (record : HeaderMap) : Context σ β :=
  { c with staged := { c.staged with headersRecord := some record } }

def Context.withRes (c : Context σ β) (res : Response β) : Context σ β := { c with res := some res }

def stageHeader (c : Context σ β) (name : JsString) (value : HeaderValue) : Context σ β :=
  c.withRecord (OrderedMap.set c.record name value)

def committedSet (res : Response β) (name : JsString) (value : HeaderValue) :
    Except (Thrown τ) (Response β) := do
  let headers ← res.headers.delete name
  let headers ← match value with
    | .one value => headers.set name value
    | .many values => headers.appendAll name values
  pure { res with headers }

def singletonSet (field : JsString) : Thrown τ :=
  .typeError (field ++ js " is a singleton header and cannot be set to an array")

def singletonAppend (field : JsString) : Thrown τ :=
  .typeError (field ++ js " is a singleton header and cannot be appended to")

def checkedItems (field name : JsString) (value : HeaderValue) : Except (Thrown τ) Unit :=
  match value with
  | .one value => validateHeaderValue name value
  | .many values =>
      if isSingleton name then .error (singletonSet field)
      else values.forM (validateHeaderValue name)

/-- `c.setHeader(field, value)`; numbers and booleans are given as their text,
`none` is `null` or `undefined`. An error leaves the context as it was. -/
def setResponseHeader (text : FieldText) (c : Context σ β) (field : JsString)
    (value : Option HeaderValue) : Except (Thrown τ) (Context σ β) :=
  match value with
  | none => .ok c
  | some value => do
      let name ← validateHeaderName text field
      checkedItems field name value
      match c.res with
      | none => pure (stageHeader c name value)
      | some res => do
          let res ← committedSet res name value
          let c := c.withRes res
          if name = js "set-cookie" ∨ name ∈ MIRROR_FORBIDDEN then pure c
          else pure (stageHeader c name value)

/-- `c.append(field, value)`. An error leaves the context as it was. -/
def appendResponseHeader (text : FieldText) (c : Context σ β) (field : JsString)
    (value : HeaderValue) : Except (Thrown τ) (Context σ β) := do
  let name ← validateHeaderName text field
  let next := itemsOf value
  next.forM (validateHeaderValue name)
  if isSingleton name ∧ 1 < next.length then throw (singletonSet field)
  match c.res with
  | some res => do
      if isSingleton name ∧ res.headers.has name then throw (singletonAppend field)
      let headers ← res.headers.appendAll name next
      let c := c.withRes { res with headers }
      match OrderedMap.get? c.record name with
      | none => pure c
      | some staged =>
          if name = js "set-cookie" then pure c
          else pure (stageHeader c name (.many (itemsOf staged ++ next)))
  | none =>
      match OrderedMap.get? c.record name with
      | some existing =>
          if isSingleton name then throw (singletonAppend field)
          else pure (stageHeader c name (.many (itemsOf existing ++ next)))
      | none =>
          match next with
          | [value] => pure (stageHeader c name (.one value))
          | next => pure (stageHeader c name (.many next))

def unstageHeader (c : Context σ β) (name : JsString) : Context σ β :=
  match c.staged.headersRecord with
  | none => c
  | some record => c.withRecord (OrderedMap.delete record name)

/-- `c.remove(field)`. The record loses the name even where the response refuses. -/
def removeResponseHeader (text : FieldText) (c : Context σ β) (field : JsString) :
    Context σ β × Except (Thrown τ) Unit :=
  let name := text.lower field
  let c := unstageHeader c name
  match c.res with
  | none => (c, .ok ())
  | some res =>
      if isToken name = false then (c, .error .immutableHeaders)
      else
        match (res.headers.delete name : Except (Thrown τ) Headers) with
        | .ok headers => (c.withRes { res with headers }, .ok ())
        | .error e => (c, .error e)

inductive HeaderCall
  | set (field : JsString) (value : Option HeaderValue)
  | append (field : JsString) (value : HeaderValue)
  | remove (field : JsString)

namespace HeaderCall

def field : HeaderCall → JsString
  | set field _ => field
  | append field _ => field
  | remove field => field

def outcome (τ : Type) (text : FieldText) (c : Context σ β) : HeaderCall →
    Context σ β × Except (Thrown τ) Unit
  | set field value =>
      match (setResponseHeader text c field value : Except (Thrown τ) _) with
      | .ok after => (after, .ok ())
      | .error e => (c, .error e)
  | append field value =>
      match (appendResponseHeader text c field value : Except (Thrown τ) _) with
      | .ok after => (after, .ok ())
      | .error e => (c, .error e)
  | remove field => removeResponseHeader text c field

def run (τ : Type) (text : FieldText) (c : Context σ β) (call : HeaderCall) : Context σ β :=
  (call.outcome τ text c).1

end HeaderCall

/-! ### What a call reaches -/

def Context.stagedAt (c : Context σ β) (n : JsString) : Option HeaderValue :=
  OrderedMap.get? c.record n

def Context.carriedAt (c : Context σ β) (n : JsString) : List JsString :=
  (c.res.map fun res => res.headers.values n).getD []

def Context.committedAs (c : Context σ β) : Option (ℕ × JsString × Option (Body β)) :=
  c.res.map fun res => (res.status, res.statusText, res.body)

/-- The record has each name once, and the committed response takes writes. -/
structure Context.Writable (c : Context σ β) : Prop where
  nodup : (OrderedMap.keys c.record).Nodup
  mutable : ∀ res, c.res = some res → res.headers.immutable = false

structure WritesOnly (names : JsString → Prop) (c after : Context σ β) : Prop where
  method : after.method = c.method
  committed : after.committedAs = c.committedAs
  writable : c.Writable → after.Writable
  staged : ∀ n, ¬names n → after.stagedAt n = c.stagedAt n
  carried : ∀ n, ¬names n → after.carriedAt n = c.carriedAt n

theorem WritesOnly.refl (names : JsString → Prop) (c : Context σ β) : WritesOnly names c c :=
  ⟨rfl, rfl, id, fun _ _ => rfl, fun _ _ => rfl⟩

theorem WritesOnly.trans {names : JsString → Prop} {c d e : Context σ β}
    (hcd : WritesOnly names c d) (hde : WritesOnly names d e) : WritesOnly names c e where
  method := hde.method.trans hcd.method
  committed := hde.committed.trans hcd.committed
  writable := hde.writable ∘ hcd.writable
  staged n hn := (hde.staged n hn).trans (hcd.staged n hn)
  carried n hn := (hde.carried n hn).trans (hcd.carried n hn)

theorem WritesOnly.mono {names more : JsString → Prop} {c after : Context σ β}
    (h : WritesOnly names c after) (hmore : ∀ n, names n → more n) : WritesOnly more c after where
  method := h.method
  committed := h.committed
  writable := h.writable
  staged n hn := h.staged n (mt (hmore n) hn)
  carried n hn := h.carried n (mt (hmore n) hn)

/-! ### One operation at a time -/

theorem record_withRecord (c : Context σ β) (record : HeaderMap) :
    (c.withRecord record).record = record := rfl

theorem stagedAt_stageHeader (c : Context σ β) (name : JsString) (value : HeaderValue)
    (n : JsString) :
    (stageHeader c name value).stagedAt n = if name = n then some value else c.stagedAt n := by
  rw [Context.stagedAt, stageHeader, record_withRecord, OrderedMap.get?_set]
  rfl

theorem stageHeader_writes (c : Context σ β) (name : JsString) (value : HeaderValue) :
    WritesOnly (· = name) c (stageHeader c name value) where
  method := rfl
  committed := rfl
  writable h := ⟨OrderedMap.nodup_set h.nodup name value, h.mutable⟩
  staged n hn := by rw [stagedAt_stageHeader, if_neg (Ne.symm hn)]
  carried _ _ := rfl

theorem unstageHeader_writes (c : Context σ β) (name : JsString) :
    WritesOnly (· = name) c (unstageHeader c name) := by
  rw [unstageHeader]
  split
  · exact .refl _ _
  · next record hrecord =>
      have hread : c.record = record := by rw [Context.record, hrecord]; rfl
      refine ⟨rfl, rfl, fun h => ⟨?_, h.mutable⟩, fun n hn => ?_, fun _ _ => rfl⟩
      · rw [record_withRecord, ← hread]
        exact h.nodup.sublist (OrderedMap.keys_delete_sublist _ _)
      · rw [Context.stagedAt, Context.stagedAt, record_withRecord, hread,
          OrderedMap.get?_delete_ne _ (Ne.symm hn)]

theorem stagedAt_unstageHeader {c : Context σ β} (h : c.Writable) (name : JsString) :
    (unstageHeader c name).stagedAt name = none := by
  rw [unstageHeader]
  split
  · next hrecord =>
      rw [Context.stagedAt, Context.record, hrecord]
      rfl
  · next record hrecord =>
      have hread : c.record = record := by rw [Context.record, hrecord]; rfl
      rw [Context.stagedAt, record_withRecord, ← hread]
      exact OrderedMap.get?_delete_self h.nodup name

/-- A response with other headers of one name takes its place. -/
theorem withRes_writes {c : Context σ β} {res after : Response β} {name : JsString}
    (hres : c.res = some res) (hstatus : after.status = res.status)
    (htext : after.statusText = res.statusText) (hbody : after.body = res.body)
    (hmutable : res.headers.immutable = false → after.headers.immutable = false)
    (hvalues : ∀ n, n ≠ name → after.headers.values n = res.headers.values n) :
    WritesOnly (· = name) c (c.withRes after) where
  method := rfl
  committed := by
    rw [Context.committedAs, Context.committedAs, hres]
    simp [Context.withRes, hstatus, htext, hbody]
  writable h := ⟨h.nodup, fun found hfound => by
    obtain rfl := Option.some.inj hfound
    exact hmutable (h.mutable res hres)⟩
  staged _ _ := rfl
  carried n hn := by
    rw [Context.carriedAt, Context.carriedAt, hres]
    exact hvalues n hn

/-- What the SET on a mutable response leaves. -/
theorem committedSet_spec {res after : Response β} {name : JsString} {value : HeaderValue}
    (hmutable : res.headers.immutable = false)
    (h : (committedSet res name value : Except (Thrown τ) _) = .ok after) :
    after.status = res.status ∧ after.statusText = res.statusText ∧ after.body = res.body ∧
      after.headers.immutable = false ∧
      ∀ n, after.headers.values n =
        if name = n then (itemsOf value).map normalized else res.headers.values n := by
  rw [committedSet, Headers.delete_eq _ hmutable] at h
  set left : Headers :=
    { res.headers with entries := res.headers.entries.filter fun entry => !decide (entry.1 = name) }
    with hleft
  have hvalues : ∀ n, left.values n = if name = n then [] else res.headers.values n :=
    Headers.values_deleted res.headers name
  have hopen : left.immutable = false := hmutable
  cases value with
  | one value =>
      have hset := Headers.set_eq (τ := τ) left hopen name value
      change (do
        let headers ← (left.set name value : Except (Thrown τ) _)
        pure { res with headers := headers }) = .ok after at h
      rw [hset] at h
      obtain rfl := Except.ok.inj h
      refine ⟨rfl, rfl, rfl, hopen, fun n => ?_⟩
      rw [Headers.values_set, hvalues]
      split <;> rfl
  | many values =>
      have hadd := Headers.appendAll_eq (τ := τ) left hopen name values
      change (do
        let headers ← (left.appendAll name values : Except (Thrown τ) _)
        pure { res with headers := headers }) = .ok after at h
      rw [hadd] at h
      obtain rfl := Except.ok.inj h
      refine ⟨rfl, rfl, rfl, hopen, fun n => ?_⟩
      rw [Headers.values_added, hvalues]
      split <;> simp [itemsOf]

/-- Only a mutable response takes the SET. -/
theorem mutable_of_committedSet {res after : Response β} {name : JsString} {value : HeaderValue}
    (h : (committedSet res name value : Except (Thrown τ) _) = .ok after) :
    res.headers.immutable = false := by
  rw [committedSet, Headers.delete] at h
  split at h
  · cases h
  · next hopen => exact Bool.eq_false_iff.mpr hopen

theorem validateHeaderName_ok {text : FieldText} {field name : JsString}
    (h : (validateHeaderName text field : Except (Thrown τ) _) = .ok name) :
    name = text.lower field := by
  rw [validateHeaderName] at h
  split at h
  · cases h
  · exact (Except.ok.inj h).symm

/-- A SET reaches one name: it is staged before a commit, and after it the
response carries it, and the record as well where the name mirrors. -/
theorem setResponseHeader_spec {text : FieldText} {c after : Context σ β} {field : JsString}
    {value : HeaderValue}
    (h : (setResponseHeader text c field (some value) : Except (Thrown τ) _) = .ok after) :
    WritesOnly (· = text.lower field) c after ∧
      (c.res = none → after.stagedAt (text.lower field) = some value) ∧
      (c.res ≠ none → after.carriedAt (text.lower field) = (itemsOf value).map normalized ∧
        after.stagedAt (text.lower field) =
          if text.lower field = js "set-cookie" ∨ text.lower field ∈ MIRROR_FORBIDDEN then
            c.stagedAt (text.lower field)
          else some value) := by
  obtain ⟨name, hname, h⟩ := Except.ok_of_bind h
  obtain ⟨-, -, h⟩ := Except.ok_of_bind h
  obtain rfl := validateHeaderName_ok hname
  split at h
  · next hres =>
      obtain rfl := Except.ok.inj h
      refine ⟨stageHeader_writes c _ value, fun _ => ?_, fun hne => absurd hres hne⟩
      rw [stagedAt_stageHeader, if_pos rfl]
  · next res hres =>
      obtain ⟨written, hwritten, h⟩ := Except.ok_of_bind h
      have hmutable := mutable_of_committedSet hwritten
      obtain ⟨hstatus, htext, hbody, hopen, hvalues⟩ := committedSet_spec hmutable hwritten
      have hwrites : WritesOnly (· = text.lower field) c (c.withRes written) :=
        withRes_writes hres hstatus htext hbody (fun _ => hopen) fun n hn => by
          rw [hvalues, if_neg (Ne.symm hn)]
      have hcarried : (c.withRes written).carriedAt (text.lower field) =
          (itemsOf value).map normalized := by
        have hself := hvalues (text.lower field)
        rw [if_pos rfl] at hself
        exact hself
      split at h
      · next hplain =>
          obtain rfl := Except.ok.inj h
          refine ⟨hwrites, fun hnone => ?_, fun _ => ⟨hcarried, ?_⟩⟩
          · rw [hnone] at hres
            cases hres
          · rw [if_pos hplain]
            rfl
      · next hmirrored =>
          obtain rfl := Except.ok.inj h
          refine ⟨hwrites.trans (stageHeader_writes _ _ value), fun hnone => ?_, fun _ => ?_⟩
          · rw [hnone] at hres
            cases hres
          · refine ⟨hcarried, ?_⟩
            rw [stagedAt_stageHeader, if_pos rfl, if_neg hmirrored]

/-- Only a mutable response takes an append of some value. -/
theorem appendAll_cases {headers after : Headers} {name : JsString} {values : List JsString}
    (h : (headers.appendAll name values : Except (Thrown τ) _) = .ok after) :
    after.immutable = headers.immutable ∧
      ∀ n, n ≠ name → after.values n = headers.values n := by
  cases hopen : headers.immutable with
  | false =>
      rw [Headers.appendAll_eq headers hopen] at h
      obtain rfl := Except.ok.inj h
      refine ⟨hopen, fun n hn => ?_⟩
      rw [Headers.values_added, if_neg (Ne.symm hn), List.append_nil]
  | true =>
      cases values with
      | nil =>
          obtain rfl := Except.ok.inj h
          exact ⟨hopen, fun _ _ => rfl⟩
      | cons value values =>
          rw [Headers.appendAll, List.foldlM_cons, Headers.append, hopen] at h
          cases h

theorem appendResponseHeader_writes {text : FieldText} {c after : Context σ β} {field : JsString}
    {value : HeaderValue}
    (h : (appendResponseHeader text c field value : Except (Thrown τ) _) = .ok after) :
    WritesOnly (· = text.lower field) c after := by
  obtain ⟨name, hname, h⟩ := Except.ok_of_bind h
  obtain ⟨-, -, h⟩ := Except.ok_of_bind h
  obtain rfl := validateHeaderName_ok hname
  dsimp only at h
  split at h
  · cases h
  · split at h
    · next res hres =>
        split at h
        · cases h
        · obtain ⟨headers, hheaders, h⟩ := Except.ok_of_bind h
          obtain ⟨hopen, hvalues⟩ := appendAll_cases hheaders
          have hwrites : WritesOnly (· = text.lower field) c (c.withRes { res with headers }) :=
            withRes_writes hres rfl rfl rfl (fun h => hopen.trans h) hvalues
          split at h
          · obtain rfl := Except.ok.inj h
            exact hwrites
          · split at h
            · obtain rfl := Except.ok.inj h
              exact hwrites
            · obtain rfl := Except.ok.inj h
              exact hwrites.trans (stageHeader_writes _ _ _)
    · split at h
      · split at h
        · cases h
        · obtain rfl := Except.ok.inj h
          exact stageHeader_writes _ _ _
      · split at h
        · obtain rfl := Except.ok.inj h
          exact stageHeader_writes _ _ _
        · obtain rfl := Except.ok.inj h
          exact stageHeader_writes _ _ _

theorem res_unstageHeader (c : Context σ β) (name : JsString) :
    (unstageHeader c name).res = c.res := by
  rw [unstageHeader]
  split <;> rfl

theorem removeResponseHeader_writes (text : FieldText) (c : Context σ β) (field : JsString) :
    WritesOnly (· = text.lower field) c (removeResponseHeader (τ := τ) text c field).1 := by
  have hunstaged := unstageHeader_writes c (text.lower field)
  rw [removeResponseHeader]
  split
  · exact hunstaged
  · next res hres =>
      split
      · exact hunstaged
      · cases hopen : res.headers.immutable with
        | false =>
            rw [Headers.delete_eq _ hopen]
            refine hunstaged.trans (withRes_writes hres rfl rfl rfl (fun _ => hopen) ?_)
            intro n hn
            rw [Headers.values_deleted, if_neg (Ne.symm hn)]
        | true =>
            rw [Headers.delete, hopen]
            exact hunstaged

/-- A REMOVE after the commit leaves nothing of the name. -/
theorem removeResponseHeader_spec {text : FieldText} {c : Context σ β} {field : JsString}
    (hc : c.Writable) (hres : c.res ≠ none) (hname : isToken (text.lower field) = true) :
    (removeResponseHeader (τ := τ) text c field).1.stagedAt (text.lower field) = none ∧
      (removeResponseHeader (τ := τ) text c field).1.carriedAt (text.lower field) = [] := by
  have hstaged := stagedAt_unstageHeader hc (text.lower field)
  obtain ⟨res, hsome⟩ := Option.ne_none_iff_exists'.mp hres
  have hopen := hc.mutable res hsome
  have hread : (unstageHeader c (text.lower field)).res = some res := by
    rw [res_unstageHeader, hsome]
  rw [removeResponseHeader, hread]
  dsimp only
  rw [if_neg (by simp [hname]), Headers.delete_eq _ hopen]
  refine ⟨hstaged, ?_⟩
  have hvalues := Headers.values_deleted res.headers (text.lower field) (text.lower field)
  rw [if_pos rfl] at hvalues
  exact hvalues

/-- A call reaches the name of its field only. -/
theorem HeaderCall.run_writes (τ : Type) (text : FieldText) (c : Context σ β)
    (call : HeaderCall) : WritesOnly (· = text.lower call.field) c (call.run τ text c) := by
  cases call with
  | set field value =>
      rw [run, outcome]
      split
      · next after h =>
          cases value with
          | none =>
              obtain rfl := Except.ok.inj h
              exact .refl _ _
          | some value => exact (setResponseHeader_spec h).1
      · exact .refl _ _
  | append field value =>
      rw [run, outcome]
      split
      · next after h => exact appendResponseHeader_writes h
      · exact .refl _ _
  | remove field => exact removeResponseHeader_writes text c field

theorem runAll_writes {text : FieldText} {names : JsString → Prop} (calls : List HeaderCall)
    (c : Context σ β) (h : ∀ call ∈ calls, names (text.lower call.field)) :
    WritesOnly names c (calls.foldl (HeaderCall.run τ text) c) := by
  induction calls generalizing c with
  | nil => exact .refl _ _
  | cons call calls ih =>
      have hfirst : WritesOnly names c (call.run τ text c) :=
        (call.run_writes τ text c).mono fun n hn => hn ▸ h call List.mem_cons_self
      exact hfirst.trans (ih _ fun call hmem => h call (List.mem_cons_of_mem _ hmem))

end Keala.Core
