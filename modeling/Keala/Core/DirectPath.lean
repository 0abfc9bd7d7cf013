import Keala.Core.Dispatch
import Keala.Core.LastWrite

/-!
The single-handler fast path against the composed one. They agree except where
`finishDirect` hands out a bodyless response of an empty status together with
headers that the finalizer would have dropped.
-/

namespace Keala.Core

open Keala.Js Keala.Http Keala.Router

variable {σ β τ : Type}

def answersVerbatim (app : Application σ β τ) (c : Context σ β) (res : Response β)
    (method : JsString) : Bool :=
  c.staged.headersRecord.isNone && decide (method ≠ js "HEAD") && !app.observesStreams &&
    !(isEmptyStatus res.status && res.body.isSome)

theorem answersVerbatim_iff (app : Application σ β τ) (c : Context σ β) (res : Response β)
    (method : JsString) : answersVerbatim app c res method = true ↔
      c.staged.headersRecord = none ∧ method ≠ js "HEAD" ∧ app.observesStreams = false ∧
        ¬(isEmptyStatus res.status = true ∧ res.body.isSome = true) := by
  simp only [answersVerbatim, Bool.and_eq_true, Bool.not_eq_true', Option.isNone_iff_eq_none,
    decide_eq_true_eq, and_assoc, Bool.and_eq_false_iff, not_and, Bool.not_eq_true]
  constructor
  · rintro ⟨hrecord, hmethod, hstream, hbody⟩
    exact ⟨hrecord, hmethod, hstream, fun hempty => hbody.resolve_left (by simp [hempty])⟩
  · rintro ⟨hrecord, hmethod, hstream, hbody⟩
    refine ⟨hrecord, hmethod, hstream, ?_⟩
    cases hempty : isEmptyStatus res.status with
    | false => exact .inl rfl
    | true => exact .inr (hbody hempty)

/-! ### Running one handler -/

theorem Handler.run_method (handler : Handler σ β τ) (advanced : Bool) (c : Context σ β) :
    (handler.run NOOP_TAIL advanced c).1.method = c.method := by
  induction handler generalizing advanced c with
  | settle async result => rfl
  | stage write rest ih => exact ih advanced { c with staged := write c.staged }
  | next rest ih =>
      cases advanced with
      | true => exact ih _ true c
      | false => exact ih _ true c

/-- A chain of one handler runs it on the tail that the direct path gives it. -/
theorem dispatchChain_compose (app : Application σ β τ) (c : Context σ β)
    (handler : Handler σ β τ) :
    dispatchChain app c (compose [handler]) =
      match guarded handler NOOP_TAIL c with
      | (c, ⟨_, .error e⟩) => app.errorResponse c e
      | (c, ⟨_, .ok value⟩) =>
          match commit c value with
          | .error e => app.errorResponse c e
          | .ok c => finalizeGuarded app c := by
  show dispatchChain app c (fun tail => makeLevel handler tail) = _
  rw [dispatchChain, makeLevel, guarded]
  generalize handler.run NOOP_TAIL false c = r
  obtain ⟨c', async, result⟩ := r
  cases result with
  | error e => cases async <;> rfl
  | ok value =>
      dsimp only [settleLevel]
      cases commit c' value with
      | error e => cases async <;> rfl
      | ok c'' => cases async <;> rfl

/-! ### The finalizer behind the fast path -/

theorem finishCommitted_unstaged (app : Application σ β τ) {c : Context σ β}
    (hrecord : c.staged.headersRecord = none) (hmethod : c.method ≠ js "HEAD")
    (hstream : app.observesStreams = false) (res : Response β) :
    (finishCommitted app c res : Except (Thrown τ) (Response β)) =
      if isEmptyStatus res.status && (res.body.isSome || describesContent res.headers) then
        sanitizeEmptyStatus app.runtime res
      else .ok res := by
  rw [finishCommitted, hrecord]
  show (if isEmptyStatus res.status && (res.body.isSome || describesContent res.headers) then
      sanitizeEmptyStatus app.runtime res
    else if c.method = js "HEAD" ∧ res.body.isSome then stripBody app.runtime res
    else _) = _
  rw [if_neg (c := c.method = js "HEAD" ∧ res.body.isSome = true) fun h => hmethod h.1, hstream]
  rfl

theorem sanitizeEmptyStatus_ok (runtime : Runtime β) {res : Response β}
    (h : isEmptyStatus res.status = true) :
    (sanitizeEmptyStatus runtime res : Except (Thrown τ) (Response β)) =
      .ok { res with headers := (withoutContentHeaders res.headers).copy, body := none } := by
  have hstatus : res.status = 204 ∨ res.status = 205 ∨ res.status = 304 := by
    simpa [isEmptyStatus, or_assoc] using h
  rw [sanitizeEmptyStatus, construct, if_neg (by omega), if_neg (by simp)]
  rfl

theorem describesContent_iff (headers : Headers) : describesContent headers = true ↔
    ∃ entry ∈ headers.entries, entry.1 ∈ CONTENT_HEADERS := by
  simp only [describesContent, Headers.has, List.any_eq_true, decide_eq_true_eq]
  constructor
  · rintro ⟨name, hname, entry, hentry, rfl⟩
    exact ⟨entry, hentry, hname⟩
  · rintro ⟨entry, hentry, hname⟩
    exact ⟨entry.1, hname, entry, hentry, rfl⟩

/-- Dropping the content headers shows. -/
theorem entries_ne_of_describesContent {headers : Headers} (h : describesContent headers = true) :
    (withoutContentHeaders headers).copy.entries ≠ headers.entries := by
  intro heq
  obtain ⟨entry, hentry, hname⟩ := (describesContent_iff headers).mp h
  have hmem : entry.1 ∈ (withoutContentHeaders headers).copy.entries.map Prod.fst :=
    List.mem_map_of_mem (heq ▸ hentry)
  apply (values_ne_nil_iff _ _).mpr hmem
  rw [Headers.values_copy, reading_withoutContent, if_pos hname]

theorem finalizeGuarded_committed (app : Application σ β τ) (c : Context σ β)
    (res : Response β) :
    finalizeGuarded app { c with res := some res } =
      match (finishCommitted app { c with res := some res } res :
        Except (Thrown τ) (Response β)) with
      | .ok res => res
      | .error e => app.errorResponse { c with res := some res } e := by
  have hfinalize : finalize app { c with res := some res } =
      ({ c with res := some res }, finishCommitted app { c with res := some res } res) := rfl
  rw [finalizeGuarded, hfinalize]
  cases (finishCommitted app { c with res := some res } res : Except (Thrown τ) (Response β)) <;>
    rfl

/-- Where the fast path answers, the finalizer would have answered the same
unless the status is empty and a header describes content. -/
theorem finalizeGuarded_verbatim (app : Application σ β τ) {c : Context σ β} {res : Response β}
    {method : JsString} (hv : answersVerbatim app c res method = true)
    (hmethod : c.method ≠ js "HEAD") :
    res.wire = (finalizeGuarded app { c with res := some res }).wire ↔
      ¬(isEmptyStatus res.status = true ∧ describesContent res.headers = true) := by
  obtain ⟨hrecord, -, hstream, hbody⟩ := (answersVerbatim_iff app c res method).mp hv
  rw [finalizeGuarded_committed,
    finishCommitted_unstaged app (c := { c with res := some res }) hrecord hmethod
    hstream]
  cases hempty : isEmptyStatus res.status with
  | false => simp
  | true =>
      have hnone : res.body = none := by
        have hsome : ¬res.body.isSome = true := fun hsome => hbody ⟨hempty, hsome⟩
        exact Option.not_isSome_iff_eq_none.mp hsome
      rw [hnone]
      cases hcontent : describesContent res.headers with
      | false => simp
      | true =>
          rw [if_pos (by simp), sanitizeEmptyStatus_ok app.runtime hempty]
          have hdropped := entries_ne_of_describesContent hcontent
          constructor
          · intro hwire
            exact absurd (congrArg Wire.headers hwire).symm hdropped
          · intro hnot
            exact absurd ⟨rfl, rfl⟩ hnot

/-! ### The two paths -/

theorem method_ne_head (app : Application σ β τ)
    (hupper : app.host.toUpperCase (js "HEAD") = js "HEAD") {rawMethod : JsString}
    (h : dispatchMethod app rawMethod ≠ js "HEAD") : rawMethod ≠ js "HEAD" := by
  rintro rfl
  exact h ((if_neg (by decide)).trans hupper)

/-- The handler settles with a bodyless response of an empty status that
describes content, on a request where nothing brings the finalizer in. -/
def LeaksContentHeaders (app : Application σ β τ) (c : Context σ β) (handler : Handler σ β τ) :
    Prop :=
  ∃ after async res, guarded handler NOOP_TAIL c = (after, ⟨async, .ok (.response res)⟩) ∧
    isEmptyStatus res.status = true ∧ res.body = none ∧ describesContent res.headers = true ∧
    after.staged.headersRecord = none ∧ dispatchMethod app c.method ≠ js "HEAD" ∧
    app.observesStreams = false

/-- The direct path answers as the composed one does, exactly when the handler
does not leak content headers. -/
theorem dispatchDirect_eq_composed_iff (app : Application σ β τ)
    (hupper : app.host.toUpperCase (js "HEAD") = js "HEAD") (c : Context σ β)
    (handler : Handler σ β τ) :
    (dispatchDirect app c handler (dispatchMethod app c.method)).wire =
        (dispatchChain app c (compose [handler])).wire ↔
      ¬LeaksContentHeaders app c handler := by
  have hkeep : (guarded handler NOOP_TAIL c).1.method = c.method :=
    handler.run_method false c
  rw [dispatchChain_compose, dispatchDirect, LeaksContentHeaders]
  generalize guarded handler NOOP_TAIL c = r at hkeep
  obtain ⟨after, async, result⟩ := r
  change after.method = c.method at hkeep
  cases result with
  | error e => simp
  | ok value =>
      cases value with
      | nothing => simp [finishDirect, commit]
      | thenable => simp [finishDirect, commit]
      | other typeOf => simp [finishDirect, commit]
      | throwing e => simp [finishDirect, commit]
      | response res =>
          show (if answersVerbatim app after res (dispatchMethod app c.method) then res
            else finalizeGuarded app { after with res := some res }).wire =
              (finalizeGuarded app { after with res := some res }).wire ↔ _
          cases hv : answersVerbatim app after res (dispatchMethod app c.method) with
          | false =>
              rw [if_neg Bool.false_ne_true]
              refine iff_of_true rfl ?_
              rintro ⟨after', async', res', heq, hempty, hnone, -, hrecord, hmethod, hstream⟩
              cases heq
              have htrue := (answersVerbatim_iff app after res _).mpr
                ⟨hrecord, hmethod, hstream, by simp [hnone]⟩
              exact Bool.false_ne_true (hv.symm.trans htrue)
          | true =>
              obtain ⟨hrecord, hmethod, hstream, hbody⟩ := (answersVerbatim_iff ..).mp hv
              rw [if_pos rfl, finalizeGuarded_verbatim app hv
                (hkeep ▸ method_ne_head app hupper hmethod)]
              apply not_congr
              constructor
              · rintro ⟨hempty, hcontent⟩
                have hnone : res.body = none :=
                  Option.not_isSome_iff_eq_none.mp fun hsome => hbody ⟨hempty, hsome⟩
                exact ⟨after, async, res, rfl, hempty, hnone, hcontent, hrecord, hmethod, hstream⟩
              · rintro ⟨after', async', res', heq, hempty, -, hcontent, -⟩
                cases heq
                exact ⟨hempty, hcontent⟩

/-! ### One leaking response -/

def plainApp : Application Unit JsString Unit where
  runtime := ⟨id, true⟩
  host := { newRegExp := fun _ => none, test := fun _ _ => false, toUpperCase := id }
  observesStreams := false
  unknownMethodAs404 := false
  notFoundHandler := fun c => (c, .ok none)
  errorResponse := fun _ _ => ⟨500, [], .empty, none⟩

def getContext : Context Unit JsString := ⟨js "GET", none, 404, ⟨none, ()⟩, none⟩

def nullBodyHandler (status : ℕ) (headers : List (JsString × JsString)) :
    Handler Unit JsString Unit :=
  .settle false (.ok (.response ⟨status, [], ⟨headers, false⟩, none⟩))

theorem dispatchDirect_eq_composed_ok :
    (dispatchDirect plainApp getContext (nullBodyHandler 204 [(js "etag", js "1")])
        (dispatchMethod plainApp getContext.method)).wire =
      (dispatchChain plainApp getContext
        (compose [nullBodyHandler 204 [(js "etag", js "1")]])).wire := by
  refine (dispatchDirect_eq_composed_iff plainApp rfl getContext _).mpr ?_
  rintro ⟨after, async, res, heq, -, -, hcontent, -⟩
  cases heq
  exact absurd hcontent (by decide)

def typed204 : Handler Unit JsString Unit :=
  nullBodyHandler 204 [(js "content-type", js "text/plain")]

/-- The 204 keeps its content type on the direct path only. -/
theorem dispatchDirect_ne_composed :
    (dispatchDirect plainApp getContext typed204 (js "GET")).wire =
        ⟨204, [(js "content-type", js "text/plain")], none⟩ ∧
      (dispatchChain plainApp getContext (compose [typed204])).wire = ⟨204, [], none⟩ ∧
      (dispatchDirect plainApp getContext typed204 (js "GET")).wire ≠
        (dispatchChain plainApp getContext (compose [typed204])).wire := by
  decide +kernel

end Keala.Core
