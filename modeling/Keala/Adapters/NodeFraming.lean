import Keala.Adapters.NodeResponse
import Keala.Lib.Except

/-!
Whether what the Node adapter writes can be framed: an encoding and a length
never stand side by side, and a length is that of the body. One branch lets a
length of the caller through.
-/

namespace Keala.Adapters

open Keala.Js Keala.Http

variable {τ : Type}

/-- A value of `content-length` that says `n`. -/
def Declares (value : JsString) (n : ℕ) : Prop :=
  value ≠ [] ∧ value.all isDigit = true ∧ decimalValue value = n

instance (value : JsString) (n : ℕ) : Decidable (Declares value n) :=
  inferInstanceAs (Decidable (_ ∧ _ ∧ _))

theorem declares_decimalText (n : ℕ) : Declares (decimalText n) n := by
  refine ⟨?_, List.all_eq_true.mpr fun c => isDigit_of_mem_decimalText,
    decimalValue_decimalText n⟩
  intro hnil
  have hvalue := decimalValue_decimalText n
  rw [hnil] at hvalue
  obtain rfl : 0 = n := hvalue
  cases hnil

theorem not_space_of_mem_decimalText {n : ℕ} {c : CodeUnit} (h : c ∈ decimalText n) :
    isHttpSpace c = false := by
  rw [← Bool.not_eq_true]
  intro hspace
  have hdigit := isDigit_of_mem_decimalText h
  simp only [isHttpSpace, Bool.or_eq_true, decide_eq_true_eq] at hspace
  obtain ((rfl | rfl) | rfl) | rfl := hspace <;> exact absurd hdigit (by decide)

theorem normalized_decimalText (n : ℕ) : normalized (decimalText n) = decimalText n := by
  apply normalized_eq_self
  · exact fun c hc => not_space_of_mem_decimalText (List.mem_of_mem_head? hc)
  · exact fun c hc => not_space_of_mem_decimalText (List.mem_of_getLast? hc)

/-- What a connection needs of a response to a request of this method. -/
structure Framed (method : JsString) (status : ℕ) (headers : Headers) (body : List UInt8) :
    Prop where
  exclusive : ¬(headers.has transferEncoding = true ∧ headers.has contentLength = true)
  exact : method ≠ js "HEAD" → status ≠ 304 →
    ∀ value ∈ headers.values contentLength, Declares value body.length

def NodeWire.Framed (wire : NodeWire) (method : JsString) : Prop :=
  Adapters.Framed method wire.status wire.headers wire.body

def NodeResponse.Framed (given : NodeResponse) (method : JsString) : Prop :=
  Adapters.Framed method given.status given.headers given.body.octets

inductive Written (response : Answer τ) (out : NodeOut) (closeAfter : Bool) : NodeWire → Prop
  | sent {given : NodeResponse} {wire : NodeWire}
      (h : prepareNodeResponse response out closeAfter = .ok given) (hsends : Sends given wire) :
      Written response out closeAfter wire
  | bare {wire : NodeWire} (h : tryWriteBareNodeResponse response out closeAfter = some wire) :
      Written response out closeAfter wire

/-- The branch that goes wrong: an empty 204 of the runtime with a length that is not zero. -/
def StrayLength (response : Answer τ) (out : NodeOut) : Prop :=
  out.destroyed = false ∧ out.method ≠ js "HEAD" ∧
    ∃ native, response = .foreign native ∧ native.status = 204 ∧ native.bodyUsed = false ∧
      native.body = none ∧ native.headers.has transferEncoding = false ∧
        ∃ value ∈ native.headers.reading contentLength, ¬Declares value 0

/-! ### Headers -/

theorem framed_of_values {method : JsString} {status : ℕ} {headers : Headers} {body : List UInt8}
    (h : headers.values transferEncoding = [] ∨ headers.values contentLength = [])
    (hexact : method ≠ js "HEAD" → status ≠ 304 →
      ∀ value ∈ headers.values contentLength, Declares value body.length) :
    Framed method status headers body := by
  refine ⟨?_, hexact⟩
  rw [Headers.has_iff, Headers.has_iff]
  rintro ⟨hencoding, hlength⟩
  exact h.elim hencoding hlength

theorem framed_of_no_length {method : JsString} {status : ℕ} {headers : Headers}
    {body : List UInt8} (h : headers.values contentLength = []) :
    Framed method status headers body := by
  refine framed_of_values (.inr h) fun _ _ value hvalue => ?_
  rw [h] at hvalue
  cases hvalue

/-- A length that was counted on headers without an encoding. -/
theorem framed_of_counted {method : JsString} {status : ℕ} {headers : Headers}
    {body : List UInt8} (hencoding : headers.values transferEncoding = [])
    (hlength : headers.values contentLength = [decimalText body.length]) :
    Framed method status headers body := by
  refine framed_of_values (.inl hencoding) fun _ _ value hvalue => ?_
  rw [hlength] at hvalue
  rw [List.mem_singleton.mp hvalue]
  exact declares_decimalText body.length

theorem values_framedHeaders (source : Headers) (closeAfter : Bool) :
    (framedHeaders source closeAfter).values transferEncoding = source.reading transferEncoding ∧
      (framedHeaders source closeAfter).values contentLength =
        if source.has transferEncoding then [] else source.reading contentLength := by
  have hclose : ∀ name, name ≠ js "connection" →
      (if closeAfter then source.copy.put (js "connection") (js "close")
        else source.copy).values name = source.reading name := by
    intro name hname
    split
    · rw [Headers.values_put, if_neg (Ne.symm hname), Headers.values_copy]
    · rw [Headers.values_copy]
  have hencoding := hclose transferEncoding (by decide)
  have hlength := hclose contentLength (by decide)
  have hhas : (if closeAfter then source.copy.put (js "connection") (js "close")
      else source.copy).has transferEncoding = source.has transferEncoding := by
    rw [Bool.eq_iff_iff, Headers.has_iff, hencoding, Headers.has_iff_reading]
  rw [framedHeaders, hhas]
  split
  · rw [Headers.values_drop, Headers.values_drop, if_neg (by decide), if_pos rfl]
    exact ⟨hencoding, rfl⟩
  · exact ⟨hencoding, hlength⟩

/-! ### The sender -/

/-- A finite body is measured where nothing frames it. -/
theorem NodeResponse.Framed.sends {given : NodeResponse} {method : JsString}
    (h : given.Framed method) {wire : NodeWire} (hsends : Sends given wire) :
    wire.Framed method := by
  cases hsends with
  | given => exact h
  | measured _ hlength hencoding =>
      apply framed_of_counted
      · rw [Headers.values_put, if_neg (by decide)]
        exact (Headers.has_eq_false_iff _ _).mp hencoding
      · rw [Headers.values_put, if_pos rfl, normalized_decimalText]

/-! ### The branches -/

theorem octets_plannedBody (body : DirectBody) (headers : Headers) :
    (plannedBody body headers).octets = body.octets := by
  cases body with
  | bytes value => rfl
  | text value =>
      rw [plannedBody]
      split <;> rfl

theorem preparePlanned_octets (facts : PlannedResponse τ) (source : Headers) (closeAfter : Bool) :
    (preparePlanned facts source closeAfter).body.octets = facts.directBody.octets := by
  rw [preparePlanned]
  split
  · exact octets_plannedBody _ _
  · dsimp only
    split
    · rfl
    · exact octets_plannedBody _ _

theorem preparePlanned_framed (facts : PlannedResponse τ) (source : Headers) (closeAfter : Bool)
    (method : JsString) : (preparePlanned facts source closeAfter).Framed method := by
  obtain ⟨hencoding, hlength⟩ := values_framedHeaders source closeAfter
  rw [NodeResponse.Framed, preparePlanned_octets, preparePlanned]
  split
  · next hplain =>
    -- neither header is there, so the sender measures
    simp only [Bool.and_eq_true, Bool.not_eq_true'] at hplain
    exact framed_of_no_length ((Headers.has_eq_false_iff _ _).mp hplain.2)
  · dsimp only
    split
    · next hhas =>
      rw [Headers.has_iff, hencoding, ← Headers.has_iff_reading] at hhas
      rw [if_pos hhas] at hlength
      exact framed_of_no_length hlength
    · next hhas =>
      rw [Bool.not_eq_true, Headers.has_eq_false_iff] at hhas
      apply framed_of_counted
      · dsimp only
        rw [Headers.values_put, if_neg (by decide), hhas]
      · dsimp only
        rw [Headers.values_put, if_pos rfl, normalized_decimalText]

theorem values_bareHeaders (facts : PlannedResponse τ) (closeAfter : Bool) {name : JsString}
    (htype : name ≠ contentType) (hclose : name ≠ js "connection")
    (rest : List (JsString × JsString)) :
    Headers.values ⟨bareHeaders facts closeAfter ++ rest, false⟩ name =
      Headers.values ⟨rest, false⟩ name := by
  have hnone : (bareHeaders facts closeAfter).filter (fun entry => decide (entry.1 = name)) =
      [] := by
    rw [List.filter_eq_nil_iff]
    intro entry hentry
    rw [bareHeaders, List.mem_append, List.mem_map] at hentry
    rw [decide_eq_true_eq]
    rcases hentry with ⟨type, -, rfl⟩ | hentry
    · exact Ne.symm htype
    · split at hentry
      · rw [List.mem_singleton.mp hentry]
        exact Ne.symm hclose
      · cases hentry
  rw [Headers.values, List.filter_append, hnone, List.nil_append]
  rfl

theorem bare_values (facts : PlannedResponse τ) (closeAfter : Bool) {name : JsString}
    (htype : name ≠ contentType) (hclose : name ≠ js "connection") :
    Headers.values ⟨bareHeaders facts closeAfter, false⟩ name = [] := by
  have hvalues := values_bareHeaders facts closeAfter htype hclose []
  rwa [List.append_nil] at hvalues

/-- The response is not of the branch that goes wrong, or it is framed. -/
theorem prepareForeign_framed {native : NativeResponse τ} {out : NodeOut} {closeAfter : Bool}
    {given : NodeResponse} (h : prepareForeign native out closeAfter = .ok given)
    (halive : out.destroyed = false) (hstray : ¬StrayLength (.foreign native) out) :
    given.Framed out.method := by
  obtain ⟨hencoding, hlength⟩ := values_framedHeaders native.headers closeAfter
  rw [prepareForeign] at h
  split at h
  · cases h
  · next hconsumed =>
    dsimp only at h
    split at h
    · next hbody =>
      have hexclusive : native.headers.reading transferEncoding = [] ∨
          (framedHeaders native.headers closeAfter).values contentLength = [] := by
        rw [hlength]
        split
        · exact .inr rfl
        · next hhas =>
          rw [Headers.has_iff_reading, not_not] at hhas
          exact .inl hhas
      split at h
      · next hhead =>
        obtain rfl := Except.ok.inj h
        refine framed_of_values ?_ fun hmethod => absurd hhead hmethod
        rw [hencoding]
        exact hexclusive
      · next hhead =>
        obtain rfl := Except.ok.inj h
        by_cases hset : native.status ≠ 204 ∧ native.status ≠ 304
        · rw [if_pos hset]
          apply framed_of_counted
          · rw [Headers.values_put, if_neg (by decide), Headers.values_drop, if_pos rfl]
          · rw [Headers.values_put, if_pos rfl]
            rfl
        · rw [if_neg hset]
          refine framed_of_values (.inl ?_) fun hmethod hstatus value hvalue => ?_
          · rw [Headers.values_drop, if_pos rfl]
          · rw [Headers.values_drop, if_neg (by decide), hlength] at hvalue
            have hempty : native.status = 204 := by
              by_contra hother
              exact hset ⟨hother, hstatus⟩
            split at hvalue
            · cases hvalue
            · next hhas =>
              by_contra hwrong
              rw [NativeResponse.isConsumed, hbody, Option.any_none, Bool.or_false,
                Bool.not_eq_true] at hconsumed
              exact hstray ⟨halive, hmethod, native, rfl, hempty, hconsumed, hbody,
                by simpa using hhas, value, hvalue, hwrong⟩
    · next body hbody =>
      split at h
      · cases h
      · obtain rfl := Except.ok.inj h
        apply framed_of_no_length
        rw [Headers.values_drop, if_pos rfl]

theorem prepareNodeResponse_framed {response : Answer τ} {out : NodeOut} {closeAfter : Bool}
    {given : NodeResponse} (h : prepareNodeResponse response out closeAfter = .ok given)
    (hstray : ¬StrayLength response out) : given.Framed out.method := by
  unfold prepareNodeResponse at h
  split at h
  · obtain rfl := Except.ok.inj h
    exact framed_of_no_length rfl
  · next halive =>
    split at h
    · cases h
    · cases response with
      | foreign native => exact prepareForeign_framed h (by simpa using halive) hstray
      | planned p =>
          dsimp only at h
          split at h
          · cases h
          · next facts _ =>
            split at h
            · obtain rfl := Except.ok.inj h
              exact framed_of_no_length (bare_values facts closeAfter (by decide) (by decide))
            · next source _ =>
              obtain rfl := Except.ok.inj h
              exact preparePlanned_framed facts source closeAfter out.method

/-- The write past the sender counts the bytes itself. -/
theorem tryWriteBareNodeResponse_framed {response : Answer τ} {out : NodeOut} {closeAfter : Bool}
    {wire : NodeWire} (h : tryWriteBareNodeResponse response out closeAfter = some wire)
    (method : JsString) : wire.Framed method := by
  rw [tryWriteBareNodeResponse] at h
  split at h
  · cases h
  · obtain ⟨facts, -, h⟩ := Option.bind_eq_some_iff.mp h
    dsimp only at h
    split at h
    · cases h
    · obtain rfl := Option.some.inj h
      cases out.headersSent with
      | true => exact framed_of_no_length rfl
      | false =>
          apply framed_of_counted
          · exact values_bareHeaders facts closeAfter (by decide) (by decide) _
          · exact values_bareHeaders facts closeAfter (by decide) (by decide) _

/-! ### When it is framed -/

/-- The length of the caller is written as it is. -/
theorem written_of_strayLength {response : Answer τ} {out : NodeOut}
    (h : StrayLength response out) (closeAfter : Bool) :
    ∃ wire, Written response out closeAfter wire ∧ ¬wire.Framed out.method := by
  obtain ⟨halive, hmethod, native, rfl, hstatus, hunused, hbody, hhas, value, hvalue, hwrong⟩ := h
  have hfree : native.isConsumed = false := by
    rw [NativeResponse.isConsumed, hunused, hbody]
    rfl
  have hprepared : prepareNodeResponse (.foreign native) out closeAfter =
      .ok ⟨204, reasonPhrase native.statusText 204,
        (framedHeaders native.headers closeAfter).drop transferEncoding, .null⟩ := by
    unfold prepareNodeResponse
    rw [halive, if_neg Bool.false_ne_true, if_neg (by rw [Answer.status, hstatus]; decide)]
    dsimp only
    rw [prepareForeign, hfree, hbody, hstatus, if_neg Bool.false_ne_true]
    show (if out.method = js "HEAD" then _ else _) = _
    rw [if_neg hmethod]
    rfl
  refine ⟨_, .sent hprepared .given, fun hframed => hwrong ?_⟩
  have hlength := (values_framedHeaders native.headers closeAfter).2
  rw [hhas, if_neg Bool.false_ne_true] at hlength
  refine hframed.exact hmethod (show (204 : ℕ) ≠ 304 by decide) value ?_
  rw [Headers.values_drop, if_neg (by decide), hlength]
  exact hvalue

theorem Written.framed {response : Answer τ} {out : NodeOut} {closeAfter : Bool}
    {wire : NodeWire} (h : Written response out closeAfter wire)
    (hstray : ¬StrayLength response out) : wire.Framed out.method := by
  cases h with
  | sent h hsends => exact (prepareNodeResponse_framed h hstray).sends hsends
  | bare h => exact tryWriteBareNodeResponse_framed h out.method

/-- All that is written for a response is framed exactly if no stray length is let through. -/
theorem written_framed_iff (response : Answer τ) (out : NodeOut) (closeAfter : Bool) :
    (∀ wire, Written response out closeAfter wire → wire.Framed out.method) ↔
      ¬StrayLength response out := by
  constructor
  · rintro hframed hstray
    obtain ⟨wire, hwritten, hbad⟩ := written_of_strayLength hstray closeAfter
    exact hbad (hframed wire hwritten)
  · exact fun hstray wire hwritten => hwritten.framed hstray

def strayResponse : NativeResponse Unit where
  status := 204
  statusText := []
  headers := ⟨[(contentLength, js "5")], false⟩
  body := none
  bodyUsed := false

theorem not_written_framed :
    ¬∀ wire, Written (.foreign strayResponse) ⟨false, false, js "GET"⟩ false wire →
      wire.Framed (js "GET") := by
  intro h
  have hfive : js "5" ∈ strayResponse.headers.reading contentLength := by decide
  have hstray : StrayLength (.foreign strayResponse) ⟨false, false, js "GET"⟩ :=
    ⟨rfl, by decide, strayResponse, rfl, rfl, rfl, rfl, by decide, js "5", hfive, by decide⟩
  obtain ⟨wire, hwritten, hwrong⟩ := written_of_strayLength hstray false
  exact hwrong (h wire hwritten)

/-! ### Planned responses -/

section

variable (runtime : Runtime (BodyContent τ)) (stringContentType : Option JsString)

/-- What becomes of a response that was planned with a body: it is looked at, its live headers are
rewritten, its body is read or locked. -/
inductive Planned (body : DirectBody) : PlannedResponse τ → Prop
  | created {p : PlannedResponse τ} (init : Option ResponseInit) (type : Option JsString)
      (h : createPlannedResponse runtime stringContentType body init type = .ok p) :
      Planned body p
  | observed {p next : PlannedResponse τ} (h : Planned body p)
      (hnext : p.materialize runtime stringContentType {} = .ok next) : Planned body next
  | touched {p : PlannedResponse τ} (h : Planned body p) (native : NativeResponse τ) :
      Planned body { p with native := p.native.map fun _ => native }

variable {runtime stringContentType}

theorem directBody_materialize {p next : PlannedResponse τ} {init : ResponseInit}
    (h : p.materialize runtime stringContentType init = .ok next) :
    next.directBody = p.directBody := by
  rw [PlannedResponse.materialize] at h
  split at h
  · rw [← Except.ok.inj h]
  · obtain ⟨native, -, rfl⟩ := Except.ok_of_map h
    rfl

theorem Planned.directBody_eq {body : DirectBody} {p : PlannedResponse τ}
    (h : Planned runtime stringContentType body p) : p.directBody = body := by
  induction h with
  | created init type h =>
      unfold createPlannedResponse at h
      dsimp only at h
      split at h
      · rw [← Except.ok.inj h]
      · split at h
        · exact directBody_materialize h
        · split at h
          · rw [← Except.ok.inj h]
          · rw [← Except.ok.inj h]
  | observed _ hnext ih => rw [directBody_materialize hnext, ih]
  | touched _ _ ih => exact ih

theorem eq_of_responseFactsOf {p facts : PlannedResponse τ}
    (h : responseFactsOf (.planned p) = some facts) : facts = p := by
  rw [responseFactsOf] at h
  split at h
  · cases h
  · exact (Option.some.inj h).symm

theorem octets_of_prepared {p : PlannedResponse τ} {out : NodeOut} {closeAfter : Bool}
    {given : NodeResponse} (h : prepareNodeResponse (.planned p) out closeAfter = .ok given)
    (halive : out.destroyed = false) : given.body.octets = p.directBody.octets := by
  unfold prepareNodeResponse at h
  rw [halive, if_neg Bool.false_ne_true] at h
  split at h
  · cases h
  · dsimp only at h
    split at h
    · cases h
    · next facts hfacts =>
      obtain rfl := eq_of_responseFactsOf hfacts
      split at h
      · obtain rfl := Except.ok.inj h
        cases facts.directBody with
        | text value => rfl
        | bytes value => rfl
      · obtain rfl := Except.ok.inj h
        exact preparePlanned_octets facts _ closeAfter

theorem octets_of_written {p : PlannedResponse τ} {out : NodeOut} {closeAfter : Bool}
    {wire : NodeWire} (h : Written (.planned p) out closeAfter wire)
    (halive : out.destroyed = false) : wire.body = p.directBody.octets := by
  cases h with
  | sent h hsends =>
      rw [← octets_of_prepared h halive]
      cases hsends with
      | given => rfl
      | measured _ _ _ => rfl
  | bare h =>
      rw [tryWriteBareNodeResponse] at h
      split at h
      · cases h
      · obtain ⟨facts, hfacts, hwire⟩ := Option.bind_eq_some_iff.mp h
        dsimp only at hwire
        split at hwire
        · cases hwire
        · rw [← Option.some.inj hwire, eq_of_responseFactsOf hfacts]

/-- A planned response is always framed, and sent with the body it was planned with. -/
theorem Planned.written {body : DirectBody} {p : PlannedResponse τ}
    (h : Planned runtime stringContentType body p) {out : NodeOut} (halive : out.destroyed = false)
    {closeAfter : Bool} {wire : NodeWire} (hwritten : Written (.planned p) out closeAfter wire) :
    wire.Framed out.method ∧ wire.body = body.octets := by
  have hstray : ¬StrayLength (.planned p) out := by
    rintro ⟨-, -, native, heq, -⟩
    cases heq
  refine ⟨hwritten.framed hstray, ?_⟩
  rw [octets_of_written hwritten halive, h.directBody_eq]

end

end Keala.Adapters
