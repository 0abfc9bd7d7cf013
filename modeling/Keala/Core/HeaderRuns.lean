import Keala.Core.Sugar
import Keala.Core.DirectPath
import Keala.Http.Url

/-!
Header calls around one commit: the last write of a name is what the finalized
response carries. A helper delivers what was staged before it, a hand-built
response takes it at the end, and a later call reaches the response itself.
-/

namespace Keala.Core

open Keala.Js Keala.Http

variable {σ β τ : Type}

/-! ### Runs -/

inductive Build (β : Type)
  | handBuilt (res : Response β)
  | sugar (call : SugarCall)

def Build.run (τ : Type) (runtime : Runtime β) (native : Bool) (text : FieldText)
    (c : Context σ β) : Build β → Context σ β × Except (Thrown τ) (Response β)
  | handBuilt res => (c, .ok res)
  | sugar call => call.run τ runtime native text c

/-- The names that the response has from its construction rather than from the
calls before it. -/
def Build.Writes (text : FieldText) (head : Bool) (n : JsString) : Build β → Prop
  | handBuilt _ => False
  | sugar call => call.Writes text head n

/-- A handler's response is built, returned and committed, with header calls
around each step. -/
structure Exchange (β : Type) where
  before : List HeaderCall
  build : Build β
  /-- After a helper returned, before its response is committed. -/
  between : List HeaderCall
  after : List HeaderCall

namespace Exchange

def calls (e : Exchange β) : List HeaderCall := e.before ++ (e.between ++ e.after)

def settle (τ : Type) (runtime : Runtime β) (native : Bool) (text : FieldText)
    (c : Context σ β) (e : Exchange β) : Except (Thrown τ) (Context σ β) :=
  match e.build.run τ runtime native text (e.before.foldl (HeaderCall.run τ text) c) with
  | (_, .error thrown) => .error thrown
  | (c, .ok res) =>
      .ok (e.after.foldl (HeaderCall.run τ text)
        ((e.between.foldl (HeaderCall.run τ text) c).withRes res))

end Exchange

def LastCall (text : FieldText) (n : JsString) (calls : List HeaderCall)
    (call : HeaderCall) : Prop :=
  ∃ earlier later, calls = earlier ++ call :: later ∧ text.lower call.field = n ∧
    ∀ other ∈ later, text.lower other.field ≠ n

structure Accepts (τ : Type) (text : FieldText) (field : JsString) (value : HeaderValue) :
    Prop where
  name : (validateHeaderName text field : Except (Thrown τ) _) = .ok (text.lower field)
  items : (checkedItems field (text.lower field) value : Except (Thrown τ) _) = .ok ()

def Full : HeaderValue → Prop
  | .one _ => True
  | .many values => [] ∉ values

theorem wireOf_full {value : HeaderValue} (h : Full value) :
    wireOf value = (itemsOf value).map normalized := by
  cases value with
  | one value => rfl
  | many values =>
      rw [wireOf, itemsOf, List.filter_eq_self.mpr]
      intro item hitem
      cases item with
      | nil => exact absurd hitem h
      | cons _ _ => rfl

/-- The last call of two runs is the last of the second, or of the first where
the second does not concern the name. -/
theorem LastCall.append_cases {text : FieldText} {n : JsString} {xs ys : List HeaderCall}
    {call : HeaderCall} (h : LastCall text n (xs ++ ys) call) :
    LastCall text n ys call ∨
      LastCall text n xs call ∧ ∀ other ∈ ys, text.lower other.field ≠ n := by
  obtain ⟨earlier, later, hcalls, hname, hlater⟩ := h
  rcases List.append_eq_append_iff.mp hcalls with ⟨added, rfl, rfl⟩ | ⟨kept, rfl, hkept⟩
  · exact .inl ⟨added, later, rfl, hname, hlater⟩
  · cases kept with
    | nil =>
        rw [List.nil_append] at hkept
        exact .inl ⟨[], later, hkept.symm, hname, hlater⟩
    | cons first kept =>
        obtain ⟨rfl, rfl⟩ := List.cons.inj hkept
        refine .inr ⟨⟨earlier, kept, rfl, hname, fun other hother => ?_⟩, fun other hother => ?_⟩
        · exact hlater other (List.mem_append_left _ hother)
        · exact hlater other (List.mem_append_right _ hother)

/-! ### One run -/

theorem res_eq_none_iff {names : JsString → Prop} {c after : Context σ β}
    (h : WritesOnly names c after) : after.res = none ↔ c.res = none := by
  have hcommitted := h.committed
  rw [Context.committedAs, Context.committedAs] at hcommitted
  rw [← Option.map_eq_none_iff (f := fun res => (res.status, res.statusText, res.body)), hcommitted,
    Option.map_eq_none_iff]

theorem runAll_writes_any (text : FieldText) (calls : List HeaderCall) (c : Context σ β) :
    WritesOnly (fun _ => True) c (calls.foldl (HeaderCall.run τ text) c) :=
  runAll_writes calls c fun _ _ => trivial

/-- Calls that do not concern a name leave it. -/
theorem untouched {text : FieldText} {n : JsString} {calls : List HeaderCall}
    (h : ∀ other ∈ calls, text.lower other.field ≠ n) (c : Context σ β) :
    (calls.foldl (HeaderCall.run τ text) c).stagedAt n = c.stagedAt n ∧
      (calls.foldl (HeaderCall.run τ text) c).carriedAt n = c.carriedAt n := by
  have hwrites : WritesOnly (· ≠ n) c (calls.foldl (HeaderCall.run τ text) c) :=
    runAll_writes calls c h
  exact ⟨hwrites.staged n fun hne => hne rfl, hwrites.carried n fun hne => hne rfl⟩

/-- A mutable response takes the SET. -/
theorem committedSet_ok {res : Response β} (h : res.headers.immutable = false) (name : JsString)
    (value : HeaderValue) :
    ∃ after, (committedSet res name value : Except (Thrown τ) _) = .ok after := by
  rw [committedSet, Headers.delete_eq _ h]
  set left : Headers :=
    { res.headers with entries := res.headers.entries.filter fun entry => !decide (entry.1 = name) }
  have hopen : left.immutable = false := h
  cases value with
  | one value =>
      change ∃ after, (do
        let headers ← (left.set name value : Except (Thrown τ) _)
        pure { res with headers := headers }) = .ok after
      rw [Headers.set_eq left hopen]
      exact ⟨_, rfl⟩
  | many values =>
      change ∃ after, (do
        let headers ← (left.appendAll name values : Except (Thrown τ) _)
        pure { res with headers := headers }) = .ok after
      rw [Headers.appendAll_eq left hopen]
      exact ⟨_, rfl⟩

theorem setResponseHeader_accepts {text : FieldText} {c : Context σ β} {field : JsString}
    {value : HeaderValue} (hc : c.Writable) (h : Accepts τ text field value) :
    ∃ after, (setResponseHeader text c field (some value) : Except (Thrown τ) _) = .ok after := by
  simp only [setResponseHeader, h.name, h.items, bind, Except.bind]
  split
  · exact ⟨_, rfl⟩
  · next res hres =>
      obtain ⟨written, hwritten⟩ := committedSet_ok (τ := τ) (hc.mutable res hres)
        (text.lower field) value
      rw [hwritten]
      dsimp only
      split
      · exact ⟨_, rfl⟩
      · exact ⟨_, rfl⟩

theorem run_set {text : FieldText} {c after : Context σ β} {field : JsString}
    {value : Option HeaderValue}
    (h : (setResponseHeader text c field value : Except (Thrown τ) _) = .ok after) :
    (HeaderCall.set field value).run τ text c = after := by
  rw [HeaderCall.run, HeaderCall.outcome, h]

/-- After the last SET of a name before a commit, its value is staged. -/
theorem LastCall.staged {text : FieldText} {n field : JsString} {value : HeaderValue}
    {calls : List HeaderCall} (h : LastCall text n calls (.set field (some value)))
    (haccepts : Accepts τ text field value) {c : Context σ β} (hc : c.Writable)
    (hres : c.res = none) :
    (calls.foldl (HeaderCall.run τ text) c).stagedAt n = some value := by
  obtain ⟨earlier, later, rfl, rfl, hlater⟩ := h
  rw [List.foldl_append, List.foldl_cons, (untouched hlater _).1]
  have hearlier := runAll_writes_any (τ := τ) text earlier c
  obtain ⟨after, hafter⟩ := setResponseHeader_accepts (hearlier.writable hc) haccepts
  have hspec := setResponseHeader_spec hafter
  rw [run_set hafter]
  exact hspec.2.1 ((res_eq_none_iff hearlier).mpr hres)

/-- After the last SET of a name on a committed response, the response carries
its items as they are stored, and the record mirrors it or is not concerned. -/
theorem LastCall.carried {text : FieldText} {n field : JsString} {value : HeaderValue}
    {calls : List HeaderCall} (h : LastCall text n calls (.set field (some value)))
    (haccepts : Accepts τ text field value) {c : Context σ β} (hc : c.Writable)
    (hres : c.res ≠ none) :
    (calls.foldl (HeaderCall.run τ text) c).carriedAt n = (itemsOf value).map normalized ∧
      (n ≠ js "set-cookie" → n ∉ MIRROR_FORBIDDEN →
        (calls.foldl (HeaderCall.run τ text) c).stagedAt n = some value) := by
  obtain ⟨earlier, later, rfl, rfl, hlater⟩ := h
  rw [List.foldl_append, List.foldl_cons, (untouched hlater _).1, (untouched hlater _).2]
  have hearlier := runAll_writes_any (τ := τ) text earlier c
  obtain ⟨after, hafter⟩ := setResponseHeader_accepts (hearlier.writable hc) haccepts
  have hspec := (setResponseHeader_spec hafter).2.2 (mt (res_eq_none_iff hearlier).mp hres)
  rw [run_set hafter]
  refine ⟨hspec.1, fun hcookie hmirror => ?_⟩
  have hneither := not_or.mpr ⟨hcookie, hmirror⟩
  exact hspec.2.trans (if_neg hneither)

/-- After the last REMOVE of a name on a committed response, nothing of it is
left. -/
theorem LastCall.removed {text : FieldText} {n field : JsString} {calls : List HeaderCall}
    (h : LastCall text n calls (.remove field)) (hname : isToken n = true) {c : Context σ β}
    (hc : c.Writable) (hres : c.res ≠ none) :
    (calls.foldl (HeaderCall.run τ text) c).stagedAt n = none ∧
      (calls.foldl (HeaderCall.run τ text) c).carriedAt n = [] := by
  obtain ⟨earlier, later, rfl, rfl, hlater⟩ := h
  rw [List.foldl_append, List.foldl_cons, (untouched hlater _).1, (untouched hlater _).2]
  have hearlier := runAll_writes_any (τ := τ) text earlier c
  exact removeResponseHeader_spec (hearlier.writable hc)
    (mt (res_eq_none_iff hearlier).mp hres) hname

/-! ### To the wire -/

theorem finalize_committed {app : Application σ β τ} {c : Context σ β} {committed : Response β}
    (h : c.res = some committed) : finalize app c = (c, finishCommitted app c committed) := by
  rw [finalize, h]

/-- What the finalizer ships of a name, as it is or as a copy holds it: its
staged value, else what the response carries. -/
theorem finalize_values {app : Application σ β τ} {c after : Context σ β} {final : Response β}
    (hc : c.Writable) (hres : c.res ≠ none) (h : finalize app c = (after, .ok final)) :
    c.committedAs.map Prod.fst = some final.status ∧
      ∀ n, n ≠ js "set-cookie" →
        let values := ((c.stagedAt n).map wireOf).getD (c.carriedAt n)
        final.headers.values n = shipped final.status n values ∨
          final.headers.values n = shipped final.status n (readingOf n values) := by
  obtain ⟨committed, hcommitted⟩ := Option.ne_none_iff_exists'.mp hres
  rw [finalize_committed hcommitted] at h
  obtain ⟨-, hfinal⟩ := Prod.mk.inj h
  obtain ⟨merged, hmerged, hstatus, hvalues⟩ := finishCommitted_values hfinal
  obtain ⟨hsame, -, hreplayed⟩ :=
    mergeStaged_spec hc.nodup (hc.mutable committed hcommitted) hmerged
  refine ⟨?_, fun n hcookie => ?_⟩
  · rw [Context.committedAs, hcommitted, hstatus, hsame]
    rfl
  · have hread : merged.headers.values n =
        ((c.stagedAt n).map wireOf).getD (c.carriedAt n) := by
      rw [hreplayed, replayed, Context.stagedAt, Context.carriedAt, hcommitted, Context.record]
      cases OrderedMap.get? (c.staged.headersRecord.getD []) n with
      | none => rfl
      | some value => exact if_neg hcookie
    dsimp only
    rw [← hread]
    exact hvalues.imp (fun h => h n) fun h => h n

theorem finalize_reading {app : Application σ β τ} {c after : Context σ β} {final : Response β}
    (hc : c.Writable) (hres : c.res ≠ none) (h : finalize app c = (after, .ok final))
    {n : JsString} (hcookie : n ≠ js "set-cookie") :
    c.committedAs.map Prod.fst = some final.status ∧
      final.headers.reading n =
        shipped final.status n
          (readingOf n (((c.stagedAt n).map wireOf).getD (c.carriedAt n))) := by
  obtain ⟨hstatus, hvalues⟩ := finalize_values hc hres h
  refine ⟨hstatus, ?_⟩
  rcases hvalues n hcookie with hn | hn
  · rw [Headers.reading, hn, readingOf_shipped]
  · rw [Headers.reading, hn, readingOf_shipped, readingOf_readingOf]

/-! ### Around the commit -/

/-- What is staged when the response is built stays staged, or is delivered in
the response unless the status forbids it or the construction writes the name. -/
theorem Build.run_spec {runtime : Runtime β} {native : Bool} {text : FieldText} {build : Build β}
    {c after : Context σ β} {res : Response β} (hc : c.Writable)
    (hmutable : ∀ built, build = .handBuilt built → built.headers.immutable = false)
    (h : build.run τ runtime native text c = (after, .ok res)) :
    after.Writable ∧ after.res = c.res ∧ res.headers.immutable = false ∧
      ∀ n value, c.stagedAt n = some value →
        ¬build.Writes text (decide (c.method = js "HEAD")) n →
        after.stagedAt n = some value ∨
          after.stagedAt n = none ∧ res.headers.values n =
            if isEmptyStatus res.status = true ∧ n ∈ CONTENT_HEADERS then []
            else wireOf value := by
  cases build with
  | handBuilt built =>
      obtain ⟨rfl, hres⟩ := Prod.mk.inj h
      obtain rfl := Except.ok.inj hres
      exact ⟨hc, rfl, hmutable _ rfl, fun _ _ hvalue _ => .inl hvalue⟩
  | sugar call =>
      obtain ⟨rfl, hopen, hvalues⟩ := call.run_spec hc h
      exact ⟨clearStaged_writable hc, res_clearStaged c, hopen, fun n value hvalue hn =>
        .inr ⟨stagedAt_clearStaged c n, hvalues n value hvalue hn⟩⟩

/-- The construction of the response writes a name after every call did. -/
def Exchange.Overridden (text : FieldText) (head : Bool) (n : JsString) (e : Exchange β) : Prop :=
  e.build.Writes text head n ∧ ∀ call ∈ e.between ++ e.after, text.lower call.field ≠ n

/-- A content describing name is written after the commit while a value from
before it is still staged. -/
def Exchange.Stale (text : FieldText) (n : JsString) (settled : Context σ β)
    (e : Exchange β) : Prop :=
  n ∈ MIRROR_FORBIDDEN ∧ (∃ call ∈ e.after, text.lower call.field = n) ∧
    settled.stagedAt n ≠ none

/-- The four contexts of an exchange. -/
theorem Exchange.settle_phases {runtime : Runtime β} {native : Bool} {text : FieldText}
    {e : Exchange β} {c settled : Context σ β}
    (h : e.settle τ runtime native text c = .ok settled) :
    ∃ built res, e.build.run τ runtime native text (e.before.foldl (HeaderCall.run τ text) c) =
        (built, .ok res) ∧
      settled = e.after.foldl (HeaderCall.run τ text)
        ((e.between.foldl (HeaderCall.run τ text) built).withRes res) := by
  rw [settle] at h
  split at h
  · cases h
  · next built res hbuilt => exact ⟨built, res, hbuilt, (Except.ok.inj h).symm⟩

theorem withRes_writable {c : Context σ β} (hc : c.Writable) {res : Response β}
    (hres : res.headers.immutable = false) : (c.withRes res).Writable :=
  ⟨hc.nodup, fun _ hfound => Option.some.inj hfound ▸ hres⟩

/-- Among the calls around one commit the last of a name decides: what a client
reads of the response are the items of the last SET, without the white space
around them, and nothing of a name removed after the commit. An empty status
carries no content describing header. -/
theorem Exchange.last_write_wins {app : Application σ β τ} {native : Bool} {text : FieldText}
    {e : Exchange β} {c settled after : Context σ β} {final : Response β} {n : JsString}
    (hc : c.Writable) (hres : c.res = none)
    (hmutable : ∀ built, e.build = .handBuilt built → built.headers.immutable = false)
    (hsettle : e.settle τ app.runtime native text c = .ok settled)
    (hfinal : finalize app settled = (after, .ok final)) (hcookie : n ≠ js "set-cookie") :
    (∀ field value, LastCall text n e.calls (.set field (some value)) →
      Accepts τ text field value → Full value →
      ¬e.Overridden text (decide (c.method = js "HEAD")) n → ¬e.Stale text n settled →
      ¬(isEmptyStatus final.status = true ∧ n ∈ CONTENT_HEADERS) →
      final.headers.reading n = readingOf n ((itemsOf value).map normalized)) ∧
    (∀ field, LastCall text n e.after (.remove field) → isToken n = true →
      final.headers.values n = []) ∧
    (isEmptyStatus final.status = true → n ∈ CONTENT_HEADERS → final.headers.values n = []) := by
  obtain ⟨built, res, hbuilt, rfl⟩ := settle_phases hsettle
  have hbefore := runAll_writes_any (τ := τ) text e.before c
  have hready := hbefore.writable hc
  obtain ⟨hopen, hsame, hresopen, hstaged⟩ := e.build.run_spec hready hmutable hbuilt
  have hbetween := runAll_writes_any (τ := τ) text e.between built
  set returned := e.between.foldl (HeaderCall.run τ text) built
  have hcommit : (returned.withRes res).Writable :=
    withRes_writable (hbetween.writable hopen) hresopen
  have hcommitted : (returned.withRes res).res ≠ none := Option.some_ne_none res
  have hafter := runAll_writes_any (τ := τ) text e.after (returned.withRes res)
  have hunbuilt : built.res = none := hsame.trans ((res_eq_none_iff hbefore).mpr hres)
  obtain ⟨hstatus, hreading⟩ := finalize_reading (hafter.writable hcommit)
    (mt (res_eq_none_iff hafter).mp hcommitted) hfinal hcookie
  have hnone : final.headers.reading n = [] → final.headers.values n = [] :=
    (readingOf_eq_nil_iff n _).mp
  -- The calls after the commit leave the status that was built.
  rw [hafter.committed] at hstatus
  have hfinalStatus : res.status = final.status := Option.some.inj hstatus
  refine ⟨fun field value hlast haccepts hwire hwritten hstale hkept => ?_,
    fun field hlast hname => ?_, fun hempty hn => ?_⟩
  · rw [hreading, shipped, if_neg hkept]
    congr 1
    have hitems := wireOf_full hwire
    rcases hlast.append_cases with hlater | ⟨hfirst, hquiet⟩
    · rcases hlater.append_cases with hlast | ⟨hlast, hquiet⟩
      · -- The last call follows the commit.
        obtain ⟨hcarried, hmirror⟩ := hlast.carried haccepts hcommit hcommitted
        by_cases hforbidden : n ∈ MIRROR_FORBIDDEN
        · obtain ⟨earlier, later, hcalls, hname, -⟩ := hlast
          have hconcerned : ∃ call ∈ e.after, text.lower call.field = n :=
            ⟨_, hcalls ▸ List.mem_append_right _ List.mem_cons_self, hname⟩
          have hnone := not_ne_iff.mp fun hne => hstale ⟨hforbidden, hconcerned, hne⟩
          rw [hnone, hcarried]
          rfl
        · rw [hmirror hcookie hforbidden, Option.map_some, Option.getD_some, hitems]
      · -- It follows the construction, and its value stays staged.
        have hvalue := hlast.staged haccepts hopen hunbuilt
        rw [(untouched hquiet _).1]
        change ((returned.stagedAt n).map wireOf).getD _ = _
        rw [hvalue, Option.map_some, Option.getD_some, hitems]
    · -- It precedes the construction.
      have hvalue := hfirst.staged haccepts hc hres
      have hmine : ¬e.build.Writes text (decide (c.method = js "HEAD")) n :=
        fun hwrites => hwritten ⟨hwrites, hquiet⟩
      rw [← hbefore.method] at hmine
      have hquietBetween : ∀ call ∈ e.between, text.lower call.field ≠ n :=
        fun call hcall => hquiet call (List.mem_append_left _ hcall)
      have hquietAfter : ∀ call ∈ e.after, text.lower call.field ≠ n :=
        fun call hcall => hquiet call (List.mem_append_right _ hcall)
      have hreturned := (untouched (τ := τ) hquietBetween built).1
      rw [(untouched hquietAfter _).1, (untouched hquietAfter _).2]
      change ((returned.stagedAt n).map wireOf).getD (res.headers.values n) = _
      rw [hreturned]
      rcases hstaged n value hvalue hmine with hstays | ⟨hgone, hdelivered⟩
      · rw [hstays, Option.map_some, Option.getD_some, hitems]
      · rw [← hfinalStatus] at hkept
        rw [hgone, hdelivered, if_neg hkept, hitems]
        rfl
  · obtain ⟨hunstaged, hcarried⟩ := hlast.removed (τ := τ) hname hcommit hcommitted
    apply hnone
    rw [hreading, hunstaged, hcarried]
    exact (congrArg _ (readingOf_nil n)).trans (shipped_nil _ n)
  · apply hnone
    rw [hreading, shipped, if_pos ⟨hempty, hn⟩]

def lowerText : FieldText := ⟨List.map lowerAscii, id⟩

def twoWrites : Exchange JsString where
  before := [.set (js "x-a") (some (.one (js "1")))]
  build := .handBuilt ⟨200, [], .empty, none⟩
  between := []
  after := [.set (js "x-a") (some (.one (js "2")))]

theorem last_write_wins_two : ∃ settled after final,
    twoWrites.settle Unit plainApp.runtime false lowerText getContext = .ok settled ∧
      finalize plainApp settled = (after, .ok final) ∧
      final.headers.reading (js "x-a") = [js "2"] := by
  refine ⟨_, _, _, rfl, rfl, ?_⟩
  refine (@Exchange.last_write_wins Unit JsString Unit plainApp false lowerText twoWrites
    getContext _ _ _ (js "x-a") ⟨List.nodup_nil, nofun⟩ rfl (by rintro _ ⟨⟩; rfl) rfl rfl
    (by decide)).1 (js "x-a") (.one (js "2")) ⟨twoWrites.before, [], rfl, rfl, nofun⟩
    ⟨by decide, by decide⟩ trivial ?_ ?_ ?_
  · exact fun h => h.1
  · exact fun h => absurd h.1 (by decide)
  · decide

def typedEmpty : Exchange JsString where
  before := [.set (js "content-type") (some (.one (js "text/html")))]
  build := .handBuilt ⟨204, [], .empty, none⟩
  between := []
  after := []

/-- The last write of a content describing header does not reach an empty
status. -/
theorem last_write_dropped : ∃ settled after final,
    typedEmpty.settle Unit plainApp.runtime false lowerText getContext = .ok settled ∧
      finalize plainApp settled = (after, .ok final) ∧
      LastCall lowerText (js "content-type") typedEmpty.calls
        (.set (js "content-type") (some (.one (js "text/html")))) ∧
      Accepts Unit lowerText (js "content-type") (.one (js "text/html")) ∧
      final.headers.reading (js "content-type") = [] ∧
      final.headers.reading (js "content-type") ≠ [js "text/html"] := by
  refine ⟨_, _, _, rfl, rfl, ⟨[], [], rfl, rfl, nofun⟩, ⟨by decide, by decide⟩, ?_, ?_⟩
  · decide +kernel
  · decide +kernel

end Keala.Core
