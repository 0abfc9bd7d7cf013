import Keala.Js.Lower
import Keala.Plugins.BodyReaders

/-!
Which calls of the body readers pass their size check.

The bytes that `read` keeps are those checked against the limit of the first
call that goes through it, so its refusal is all that a later such call gets,
whatever its own limit. The other readers check the body themselves.
-/

namespace Keala.Plugins

open Js

/-! ### Within a limit -/

def Fits (n : ℕ) (limit : Number) : Prop := (Number.ofNat n).le limit = true

instance (n : ℕ) (limit : Number) : Decidable (Fits n limit) := inferInstanceAs (Decidable (_ = _))

theorem ofNat_ne_nan (n : ℕ) : Number.ofNat n ≠ .nan := by
  simp [Number.ofNat]

theorem fits_iff {n : ℕ} {limit : Number} (h : limit ≠ .nan) :
    Fits n limit ↔ limit.lt (.ofNat n) = false := by
  rw [Fits, Number.le_eq_not_lt (ofNat_ne_nan n) h]
  simp

theorem Fits.ne_nan {n : ℕ} {limit : Number} (h : Fits n limit) : limit ≠ .nan := by
  rintro rfl
  simp [Fits, Number.le] at h

theorem Fits.mono {m n : ℕ} {limit : Number} (h : Fits n limit) (hmn : m ≤ n) : Fits m limit := by
  have hne := h.ne_nan
  rw [fits_iff hne] at h ⊢
  cases limit with
  | nan => rfl
  | negInfinity => cases h
  | infinity => rfl
  | finite value =>
    rw [Number.ofNat, Number.lt_finite, decide_eq_false_iff_not, not_lt] at h ⊢
    exact le_trans (Nat.cast_le.mpr hmn) h

theorem isLimit_ne_nan {limit : Number} (h : isLimit limit = true) : limit ≠ .nan := by
  rintro rfl
  cases h

/-! ### The read of the body -/

theorem readChunks_of_fits {limit : Number} (chunks : List (List UInt8)) (out : List UInt8)
    (h : Fits (out ++ chunks.flatten).length limit) :
    readChunks limit chunks out = .ok (out ++ chunks.flatten) := by
  induction chunks generalizing out with
  | nil => rw [readChunks, List.flatten_nil, List.append_nil]
  | cons chunk chunks ih =>
    rw [List.flatten_cons, ← List.append_assoc] at h ⊢
    have hfits : Fits (out ++ chunk).length limit := by
      apply h.mono
      rw [@List.length_append _ (out ++ chunk)]
      omega
    rw [readChunks, (fits_iff h.ne_nan).mp hfits]
    exact ih _ h

/-- A request whose body the Node adapter lets through. -/
structure FramedRequest extends RequestSource where
  delivered : native = true → Fits chunks.flatten.length bodyCap

namespace FramedRequest

variable (request : FramedRequest)

def body : List UInt8 := request.chunks.flatten

def size : ℕ := request.body.length

def DeclaresWithin (limit : Number) : Prop :=
  ∀ declared ∈ declaredLength request.contentLength, limit.lt declared = false

theorem read_of_fits {limit : Number} (h : Fits request.size limit)
    (hdeclared : request.DeclaresWithin limit) :
    request.toRequestSource.read limit = .ok request.body := by
  have hnone : (declaredLength request.contentLength).any limit.lt = false := by
    rw [Option.any_eq_false]
    exact hdeclared
  rw [RequestSource.read]
  simp only [hnone, Bool.false_eq_true, if_false]
  split_ifs with hnative hdeclares
  · refine readChunks_of_fits _ [] ?_
    have hcap := request.delivered hnative
    rw [Number.min_eq_ite h.ne_nan hcap.ne_nan]
    split_ifs
    · exact h
    · exact hcap
  · rfl
  · exact readChunks_of_fits _ [] h

end FramedRequest

/-! ### The check -/

def Admits {α : Type} (result : Except BodyError α) : Prop :=
  ∀ limit declared, result ≠ .error (.tooLarge limit declared)

theorem admits_ok {α : Type} (value : α) : Admits (.ok value : Except BodyError α) := by
  intro limit declared h
  cases h

theorem not_admits {α : Type} (limit : Number) (declared : Option Number) :
    ¬Admits (.error (.tooLarge limit declared) : Except BodyError α) :=
  fun h => h limit declared rfl

theorem admits_parseBody {J F : Type} (decoders : BodyDecoders J F) (bytes : List UInt8) :
    Admits (BodyReaderState.parseBody decoders bytes) := by
  intro limit declared h
  rw [BodyReaderState.parseBody] at h
  split_ifs at h
  cases hjson : decoders.parseJson bytes
  all_goals rw [hjson] at h; cases h

theorem admits_assertFormPartBudget (lower : JsString → JsString) (bytes : List UInt8)
    (contentType : JsString) (limit : Number) :
    Admits (assertFormPartBudget lower bytes contentType limit) := by
  intro _ declared h
  rw [assertFormPartBudget] at h
  simp only at h
  split at h
  · split at h
    · cases h
    · split_ifs at h
      cases h
  · split_ifs at h <;> cases h

theorem admits_parseForm {J F : Type} (decoders : BodyDecoders J F) (lower : JsString → JsString)
    (contentType : JsString) (config : BodyReaderConfig) (bytes : List UInt8) :
    Admits (BodyReaderState.parseForm decoders lower contentType config bytes) := by
  intro limit declared h
  rw [BodyReaderState.parseForm] at h
  generalize (if contentType = [] then js "application/octet-stream" else contentType) = type at h
  cases hbudget : assertFormPartBudget lower bytes type config.formPartLimit with
  | error error =>
    rw [hbudget] at h
    obtain rfl := Except.error.inj h
    exact admits_assertFormPartBudget lower bytes type _ limit declared hbudget
  | ok _ =>
    cases hform : decoders.formData type bytes
    all_goals
      rw [hbudget] at h
      simp only [bind, Except.bind, hform] at h
      cases h

theorem admits_bind {α β : Type} {result : Except BodyError α} {f : α → Except BodyError β}
    (hf : ∀ value, Admits (f value)) : Admits (result >>= f) ↔ Admits result := by
  cases result with
  | error error =>
    constructor
    · rintro h limit declared heq
      obtain rfl := Except.error.inj heq
      exact h limit declared rfl
    · rintro h limit declared heq
      exact h limit declared (congrArg Except.error (Except.error.inj heq))
  | ok value => exact iff_of_true (hf value) (admits_ok value)

theorem admits_of_bind {α β : Type} {result : Except BodyError α} {f : α → Except BodyError β}
    (h : Admits (result >>= f)) : Admits result := by
  rintro limit declared rfl
  exact h limit declared rfl

theorem admits_map {α β : Type} {result : Except BodyError α} (f : α → β) :
    Admits (f <$> result) ↔ Admits result := by
  cases result with
  | error error =>
    constructor
    · rintro h limit declared heq
      obtain rfl := Except.error.inj heq
      exact h limit declared rfl
    · rintro h limit declared heq
      exact h limit declared (congrArg Except.error (Except.error.inj heq))
  | ok value => exact iff_of_true (admits_ok (f value)) (admits_ok value)

/-! ### The memos between the calls -/

section

variable {J F : Type} (request : FramedRequest) (config : BodyReaderConfig)

/-- The body has been read, under a limit that it is within. -/
structure Started (state : BodyReaderState J F) : Prop where
  raw : state.rawBytes = some (.ok request.body)
  limit : ∃ first, state.bytesLimit = some first ∧ Fits request.size first

/-- What the memos hold: `first` is the limit of the first call that went through `read`. -/
structure Remembers (first : Option Number) (state : BodyReaderState J F) : Prop where
  json : ∀ r ∈ state.jsonValue, Admits r ↔ Fits request.size config.jsonLimit
  text : ∀ r ∈ state.text, Admits r ↔ Fits request.size config.textLimit
  blob : ∀ r ∈ state.blob, Admits r ↔ Fits request.size config.formLimit
  formData : ∀ r ∈ state.formData, Admits r ↔ Fits request.size config.formLimit
  arrayBuffer : ∀ r ∈ state.arrayBuffer, ∃ limit ∈ first,
    Admits r ↔ Fits request.size config.formLimit ∧ Fits request.size limit
  unread : first = none → state.bytes = none
  read : ∀ limit ∈ first, ∃ r ∈ state.bytes,
    (Fits request.size limit → r = .ok request.body) ∧ (Admits r → Fits request.size limit)

variable {request config} {state : BodyReaderState J F}

/-- The check against two limits, the first of which the body is within. -/
theorem Started.checked (h : Started request state) {limit : Number} (hne : limit ≠ .nan) :
    (Fits request.size limit → state.checked limit request.body = .ok request.body) ∧
      (Admits (state.checked limit request.body) → Fits request.size limit) := by
  obtain ⟨first, hfirst, hfits⟩ := h.limit
  have heffective : (effectiveLimit limit (some first)).lt (.ofNat request.size) =
      limit.lt (.ofNat request.size) := by
    rw [effectiveLimit]
    split_ifs with hlt
    · rfl
    · -- the limit is at least the first one
      by_contra hdiffer
      have hsmall : limit.lt (.ofNat request.size) = true := by
        rw [(fits_iff hfits.ne_nan).mp hfits] at hdiffer
        simpa using hdiffer
      have := Number.lt_of_not_lt_of_lt hne (by simpa using hlt) hsmall hfits.ne_nan
      rw [(fits_iff hfits.ne_nan).mp hfits] at this
      cases this
  rw [BodyReaderState.checked, hfirst]
  rw [show request.body.length = request.size from rfl, fits_iff hne]
  simp only [heffective]
  constructor
  · intro hlt
    rw [hlt]
    rfl
  · intro hadmits
    by_contra hlt
    rw [if_pos (by simpa using hlt)] at hadmits
    exact not_admits _ _ hadmits

theorem Started.admits_checked (h : Started request state) {limit : Number} (hne : limit ≠ .nan) :
    Admits (state.checked limit request.body) ↔ Fits request.size limit := by
  obtain ⟨hok, hadmits⟩ := h.checked hne
  exact ⟨hadmits, fun hfits => hok hfits ▸ admits_ok _⟩

/-- A call may start: the body has been read, or this is the first call and its limit is large
enough. -/
def Ready (request : FramedRequest) (limit : Number) (state : BodyReaderState J F) : Prop :=
  Started request state ∨ state = {} ∧ Fits request.size limit ∧ request.DeclaresWithin limit

/-- The read of the body gives it, and touches no other memo. -/
theorem Ready.raw {limit : Number} (h : Ready request limit state) :
    ∃ first, Fits request.size first ∧
      BodyReaderState.raw request.toRequestSource limit state = (.ok request.body,
        { state with rawBytes := some (.ok request.body), bytesLimit := some first }) := by
  rcases h with hstarted | ⟨rfl, hfits, hdeclared⟩
  · obtain ⟨first, hfirst, hfits⟩ := hstarted.limit
    refine ⟨first, hfits, ?_⟩
    simp only [BodyReaderState.raw, hstarted.raw]
    rw [← hstarted.raw, ← hfirst]
  · refine ⟨limit, hfits, ?_⟩
    simp only [BodyReaderState.raw, request.read_of_fits hfits hdeclared]

theorem Ready.started_of_ne {limit : Number} (h : Ready request limit state) (hne : state ≠ {}) :
    Started request state := by
  rcases h with hstarted | ⟨hnew, -⟩
  · exact hstarted
  · exact absurd hnew hne

theorem started_of_first (state : BodyReaderState J F) {limit : Number}
    (h : Fits request.size limit) :
    Started request
      { state with rawBytes := some (.ok request.body), bytesLimit := some limit } :=
  ⟨rfl, limit, rfl, h⟩

structure Stepped (request : FramedRequest) (config : BodyReaderConfig) (first : Option Number)
    (state : BodyReaderState J F) : Prop where
  started : Started request state
  remembers : Remembers request config first state

variable {first : Option Number} (decoders : BodyDecoders J F) (lower : JsString → JsString)
  (contentType : JsString)

theorem step_json (hready : Ready request config.jsonLimit state)
    (hmemos : Remembers request config first state) :
    (Admits (BodyReaderState.json decoders config request.toRequestSource state).1 ↔
        Fits request.size config.jsonLimit) ∧
      Stepped request config first
        (BodyReaderState.json decoders config request.toRequestSource state).2 := by
  rw [BodyReaderState.json]
  cases hvalue : state.jsonValue with
  | some value =>
    have hstarted := hready.started_of_ne (by rintro rfl; cases hvalue)
    exact ⟨hmemos.json value hvalue, hstarted, hmemos⟩
  | none =>
    obtain ⟨limit, hlimit, hraw⟩ := hready.raw
    have hstarted := started_of_first state hlimit
    have hadmits := hstarted.admits_checked (isLimit_ne_nan config.json_limit)
    have hresult := (admits_bind (admits_parseBody decoders)).trans hadmits
    simp only [hraw]
    refine ⟨hresult, ⟨rfl, limit, rfl, hlimit⟩, ?_⟩
    exact { hmemos with json := by rintro r ⟨⟩; exact hresult }

theorem step_text (hready : Ready request config.textLimit state)
    (hmemos : Remembers request config first state) :
    (Admits (BodyReaderState.readText decoders config request.toRequestSource state).1 ↔
        Fits request.size config.textLimit) ∧
      Stepped request config first
        (BodyReaderState.readText decoders config request.toRequestSource state).2 := by
  rw [BodyReaderState.readText]
  cases hvalue : state.text with
  | some value =>
    have hstarted := hready.started_of_ne (by rintro rfl; cases hvalue)
    exact ⟨hmemos.text value hvalue, hstarted, hmemos⟩
  | none =>
    obtain ⟨limit, hlimit, hraw⟩ := hready.raw
    have hstarted := started_of_first state hlimit
    have hadmits := hstarted.admits_checked (isLimit_ne_nan config.text_limit)
    have hresult := (admits_map decoders.decode).trans hadmits
    simp only [hraw]
    refine ⟨hresult, ⟨rfl, limit, rfl, hlimit⟩, ?_⟩
    exact { hmemos with text := by rintro r ⟨⟩; exact hresult }

theorem step_blob (hready : Ready request config.formLimit state)
    (hmemos : Remembers request config first state) :
    (Admits (BodyReaderState.readBlob config request.toRequestSource state).1 ↔
        Fits request.size config.formLimit) ∧
      Stepped request config first
        (BodyReaderState.readBlob config request.toRequestSource state).2 := by
  rw [BodyReaderState.readBlob]
  cases hvalue : state.blob with
  | some value =>
    have hstarted := hready.started_of_ne (by rintro rfl; cases hvalue)
    exact ⟨hmemos.blob value hvalue, hstarted, hmemos⟩
  | none =>
    obtain ⟨limit, hlimit, hraw⟩ := hready.raw
    have hstarted := started_of_first state hlimit
    have hresult := hstarted.admits_checked (isLimit_ne_nan config.form_limit)
    simp only [hraw]
    refine ⟨hresult, ⟨rfl, limit, rfl, hlimit⟩, ?_⟩
    exact { hmemos with blob := by rintro r ⟨⟩; exact hresult }

theorem step_formData (hready : Ready request config.formLimit state)
    (hmemos : Remembers request config first state) :
    (Admits (BodyReaderState.readFormData decoders lower contentType config
        request.toRequestSource state).1 ↔ Fits request.size config.formLimit) ∧
      Stepped request config first
        (BodyReaderState.readFormData decoders lower contentType config
          request.toRequestSource state).2 := by
  rw [BodyReaderState.readFormData]
  cases hvalue : state.formData with
  | some value =>
    have hstarted := hready.started_of_ne (by rintro rfl; cases hvalue)
    exact ⟨hmemos.formData value hvalue, hstarted, hmemos⟩
  | none =>
    obtain ⟨limit, hlimit, hraw⟩ := hready.raw
    have hstarted := started_of_first state hlimit
    have hadmits := hstarted.admits_checked (isLimit_ne_nan config.form_limit)
    have hresult := (admits_bind (admits_parseForm decoders lower contentType config)).trans hadmits
    simp only [hraw]
    refine ⟨hresult, ⟨rfl, limit, rfl, hlimit⟩, ?_⟩
    exact { hmemos with formData := by rintro r ⟨⟩; exact hresult }

theorem fits_of_le {n : ℕ} {limit other : Number} (h : Fits n limit) (hle : limit.le other = true)
    (hne : other ≠ .nan) : Fits n other := by
  rw [Number.le_eq_not_lt h.ne_nan hne, Bool.not_eq_true'] at hle
  rw [fits_iff hne]
  by_contra hlt
  have hless := Number.lt_of_not_lt_of_lt hne hle (by simpa using hlt) h.ne_nan
  rw [(fits_iff h.ne_nan).mp h] at hless
  cases hless

/-- The bytes that are kept pass when the body was within the first limit. -/
theorem step_read {limit : Number} (hne : limit ≠ .nan) (hready : Ready request limit state)
    (hmemos : Remembers request config first state) :
    (Admits (BodyReaderState.read request.toRequestSource limit state).1 ↔
        Fits request.size limit ∧ ∀ kept ∈ first, Fits request.size kept) ∧
      Stepped request config (first.or (some limit))
        (BodyReaderState.read request.toRequestSource limit state).2 := by
  rw [BodyReaderState.read]
  cases hbytes : state.bytes with
  | none =>
    obtain rfl : first = none := by
      apply Option.eq_none_iff_forall_not_mem.mpr
      intro kept hkept
      obtain ⟨r, hr, -⟩ := hmemos.read kept hkept
      rw [hbytes] at hr
      cases hr
    obtain ⟨other, hother, hraw⟩ := hready.raw
    have hstarted := started_of_first state hother
    simp only [hraw]
    refine ⟨?_, ⟨rfl, other, rfl, hother⟩, ?_⟩
    · rw [show ∀ check : List UInt8 → Except BodyError (List UInt8),
        (.ok request.body >>= check) = check request.body from fun _ => rfl,
        hstarted.admits_checked hne]
      simp
    · exact
        { json := hmemos.json
          text := hmemos.text
          blob := hmemos.blob
          formData := hmemos.formData
          arrayBuffer := by
            intro r hr
            obtain ⟨kept, hkept, -⟩ := hmemos.arrayBuffer r hr
            cases hkept
          unread := by simp
          read := by
            rintro kept ⟨⟩
            exact ⟨_, rfl, hstarted.checked hne⟩ }
  | some r =>
    have hstarted := hready.started_of_ne (by rintro rfl; cases hbytes)
    obtain ⟨kept, rfl⟩ : ∃ kept, first = some kept := by
      cases first with
      | none => rw [hmemos.unread rfl] at hbytes; cases hbytes
      | some kept => exact ⟨kept, rfl⟩
    obtain ⟨r', hr', hok, hadmits⟩ := hmemos.read kept rfl
    obtain rfl : r' = r := Option.some.inj (hr'.symm.trans hbytes)
    obtain ⟨budget, hbudget, hfits⟩ := hstarted.limit
    simp only [hbudget, Option.any_some, Option.mem_some, forall_eq']
    split_ifs with hle
    · have hlimit := fits_of_le hfits hle hne
      refine ⟨⟨fun h => ⟨hlimit, hadmits h⟩, fun h => ?_⟩, hstarted, hmemos⟩
      rw [hok h.2]
      exact admits_ok _
    · refine ⟨?_, hstarted, hmemos⟩
      by_cases hkept : Fits request.size kept
      · rw [hok hkept, show ∀ check : List UInt8 → Except BodyError (List UInt8),
          (.ok request.body >>= check) = check request.body from fun _ => rfl,
          hstarted.admits_checked hne]
        simp [hkept]
      · -- a refusal stays one
        refine iff_of_false (fun h => hkept (hadmits (admits_of_bind h))) fun h => hkept h.2

theorem step_arrayBuffer (hready : Ready request config.formLimit state)
    (hmemos : Remembers request config first state) :
    (Admits (BodyReaderState.readArrayBuffer config request.toRequestSource state).1 ↔
        Fits request.size config.formLimit ∧ ∀ kept ∈ first, Fits request.size kept) ∧
      Stepped request config (first.or (some config.formLimit))
        (BodyReaderState.readArrayBuffer config request.toRequestSource state).2 := by
  rw [BodyReaderState.readArrayBuffer]
  cases hvalue : state.arrayBuffer with
  | some value =>
    have hstarted := hready.started_of_ne (by rintro rfl; cases hvalue)
    obtain ⟨kept, hkept, hadmits⟩ := hmemos.arrayBuffer value hvalue
    obtain rfl := Option.mem_def.mp hkept
    refine ⟨?_, hstarted, hmemos⟩
    rw [hadmits]
    simp
  | none =>
    obtain ⟨hresult, hstarted, hread⟩ :=
      step_read (isLimit_ne_nan config.form_limit) hready hmemos
    refine ⟨hresult, ⟨hstarted.raw, hstarted.limit⟩, ?_⟩
    refine
      { json := hread.json
        text := hread.text
        blob := hread.blob
        formData := hread.formData
        arrayBuffer := ?_
        unread := hread.unread
        read := hread.read }
    intro r hr
    rw [← Option.some.inj hr]
    cases first with
    | none => exact ⟨_, rfl, hresult.trans (by simp)⟩
    | some kept => exact ⟨kept, rfl, hresult.trans (by simp)⟩

end

/-! ### Runs of calls -/

namespace BodyReader

def limit (config : BodyReaderConfig) : BodyReader → Number
  | json => config.jsonLimit
  | text => config.textLimit
  | arrayBuffer => config.formLimit
  | blob => config.formLimit
  | formData => config.formLimit
  | readBodyLimited limit => limit.value

def reads : BodyReader → Bool
  | arrayBuffer => true
  | readBodyLimited _ => true
  | _ => false

end BodyReader

/-- A call that is not refused for the size of the body. -/
def BodyResult.Passes {J F : Type} (result : BodyResult J F) : Prop :=
  ∀ limit declared, result ≠ .failed (.tooLarge limit declared)

section

variable {J F : Type} {request : FramedRequest} {config : BodyReaderConfig}
  {state : BodyReaderState J F} {first : Option Number}

theorem passes_settle {α : Type} {value : α → BodyResult J F} {result : Except BodyError α}
    (hvalue : ∀ a error, value a ≠ .failed error) :
    (BodyReaderState.settle value result).Passes ↔ Admits result := by
  cases result with
  | error error =>
    constructor
    · rintro h limit declared heq
      obtain rfl := Except.error.inj heq
      exact h limit declared rfl
    · rintro h limit declared heq
      exact h limit declared (congrArg Except.error (BodyResult.failed.inj heq))
  | ok a => exact iff_of_true (fun _ _ => hvalue a _) (admits_ok a)

variable (decoders : BodyDecoders J F) (lower : JsString → JsString) (contentType : JsString)

/-- One call passes when the body is within its own limit and, where it goes through `read`,
within the limit of the first call that did. -/
theorem step_call (reader : BodyReader) (hready : Ready request (reader.limit config) state)
    (hmemos : Remembers request config first state) :
    ((BodyReaderState.call decoders lower contentType config request.toRequestSource state
          reader).1.Passes ↔
        Fits request.size (reader.limit config) ∧
          (reader.reads = true → ∀ kept ∈ first, Fits request.size kept)) ∧
      Stepped request config (if reader.reads then first.or (some (reader.limit config)) else first)
        (BodyReaderState.call decoders lower contentType config request.toRequestSource state
          reader).2 := by
  cases reader with
  | json =>
    obtain ⟨hpasses, hstepped⟩ := step_json decoders hready hmemos
    exact ⟨((passes_settle (by simp)).trans hpasses).trans (by simp [BodyReader.reads]; rfl),
      hstepped⟩
  | text =>
    obtain ⟨hpasses, hstepped⟩ := step_text decoders hready hmemos
    exact ⟨((passes_settle (by simp)).trans hpasses).trans (by simp [BodyReader.reads]; rfl),
      hstepped⟩
  | blob =>
    obtain ⟨hpasses, hstepped⟩ := step_blob hready hmemos
    exact ⟨((passes_settle (by simp)).trans hpasses).trans (by simp [BodyReader.reads]; rfl),
      hstepped⟩
  | formData =>
    obtain ⟨hpasses, hstepped⟩ := step_formData decoders lower contentType hready hmemos
    exact ⟨((passes_settle (by simp)).trans hpasses).trans (by simp [BodyReader.reads]; rfl),
      hstepped⟩
  | arrayBuffer =>
    obtain ⟨hpasses, hstepped⟩ := step_arrayBuffer hready hmemos
    refine ⟨((passes_settle (by simp)).trans hpasses).trans ?_, hstepped⟩
    simp [BodyReader.reads, BodyReader.limit]
  | readBodyLimited limit =>
    obtain ⟨hpasses, hstepped⟩ := step_read limit.number hready hmemos
    refine ⟨((passes_settle (by simp)).trans hpasses).trans ?_, hstepped⟩
    simp [BodyReader.reads, BodyReader.limit]

/-- Every call of a run passes just when the body is within its own limit. -/
def OwnLimits (config : BodyReaderConfig) (n : ℕ) (readers : List BodyReader)
    (results : List (BodyResult J F)) : Prop :=
  ∀ p ∈ readers.zip results, p.2.Passes ↔ Fits n (p.1.limit config)

def readLimits (config : BodyReaderConfig) (readers : List BodyReader) : List Number :=
  (readers.filter BodyReader.reads).map (BodyReader.limit config)

/-- The first of some limits is too small for the body, and a later one large enough. -/
def Leaks (n : ℕ) : List Number → Prop
  | [] => False
  | first :: later => ¬Fits n first ∧ ∃ limit ∈ later, Fits n limit

theorem ownLimits_cons {n : ℕ} {reader : BodyReader} {readers : List BodyReader}
    {result : BodyResult J F} {results : List (BodyResult J F)} :
    OwnLimits config n (reader :: readers) (result :: results) ↔
      (result.Passes ↔ Fits n (reader.limit config)) ∧ OwnLimits config n readers results := by
  rw [OwnLimits, List.zip_cons_cons, List.forall_mem_cons]
  rfl

theorem readLimits_cons (config : BodyReaderConfig) (reader : BodyReader)
    (readers : List BodyReader) :
    readLimits config (reader :: readers) =
      if reader.reads then reader.limit config :: readLimits config readers
      else readLimits config readers := by
  rw [readLimits, List.filter_cons]
  split_ifs <;> rfl

/-- The calls after one that went through `read`. -/
theorem ownLimits_after {kept : Number} (readers : List BodyReader)
    (h : Stepped request config (some kept) state) :
    OwnLimits config request.size readers (BodyReaderState.calls decoders lower contentType config
        request.toRequestSource state readers) ↔
      ¬Leaks request.size (kept :: readLimits config readers) := by
  induction readers generalizing state with
  | nil => simp [OwnLimits, readLimits, Leaks]
  | cons reader readers ih =>
    obtain ⟨hpasses, hstepped⟩ :=
      step_call decoders lower contentType reader (.inl h.started) h.remembers
    rw [Option.some_or, ite_self] at hstepped
    rw [BodyReaderState.calls]
    rw [ownLimits_cons, ih hstepped, hpasses, readLimits_cons]
    simp only [Leaks, Option.mem_some, forall_eq']
    cases hreads : reader.reads with
    | false => simp
    | true =>
      simp only [if_true, List.exists_mem_cons_iff]
      by_cases hkept : Fits request.size kept
      · simp [hkept]
      · -- what is kept is a refusal, and this call gets it
        by_cases hfits : Fits request.size (reader.limit config) <;> simp [hkept, hfits]

/-- The calls after some of which none went through `read`. -/
theorem ownLimits_before (readers : List BodyReader) (h : Stepped request config none state) :
    OwnLimits config request.size readers (BodyReaderState.calls decoders lower contentType config
        request.toRequestSource state readers) ↔
      ¬Leaks request.size (readLimits config readers) := by
  induction readers generalizing state with
  | nil => simp [OwnLimits, readLimits, Leaks]
  | cons reader readers ih =>
    obtain ⟨hpasses, hstepped⟩ :=
      step_call decoders lower contentType reader (.inl h.started) h.remembers
    have hown : (BodyReaderState.call decoders lower contentType config request.toRequestSource
        state reader).1.Passes ↔ Fits request.size (reader.limit config) :=
      hpasses.trans (by simp)
    rw [BodyReaderState.calls]
    rw [ownLimits_cons, readLimits_cons]
    cases hreads : reader.reads with
    | false =>
      rw [hreads] at hstepped
      rw [ih hstepped]
      simp [hown]
    | true =>
      rw [hreads] at hstepped
      rw [ownLimits_after decoders lower contentType readers hstepped]
      simp [hown]

end

/-- When the body and its declared length are within the limit of the first call, every call passes
its size check just when the body is within the call's own limit, unless the first call that goes
through `read` has too small a limit and a later one does not. -/
theorem calls_ownLimits_iff {J F : Type} (decoders : BodyDecoders J F)
    (lower : JsString → JsString) (contentType : JsString) (config : BodyReaderConfig)
    (request : FramedRequest) (first : BodyReader) (later : List BodyReader)
    (h : Fits request.size (first.limit config))
    (hdeclared : request.DeclaresWithin (first.limit config)) :
    OwnLimits config request.size (first :: later)
        (BodyReaderState.calls decoders lower contentType config request.toRequestSource {}
          (first :: later)) ↔
      ¬Leaks request.size (readLimits config (first :: later)) := by
  have hmemos : Remembers request config none ({} : BodyReaderState J F) := by
    constructor <;> simp
  obtain ⟨hpasses, hstepped⟩ :=
    step_call decoders lower contentType first (.inr ⟨rfl, h, hdeclared⟩) hmemos
  rw [BodyReaderState.calls]
  rw [ownLimits_cons, readLimits_cons]
  have hown := iff_of_true (hpasses.mpr ⟨h, by simp⟩) h
  cases hreads : first.reads with
  | false =>
    rw [hreads] at hstepped
    rw [ownLimits_before decoders lower contentType later hstepped]
    simp [hown]
  | true =>
    rw [hreads] at hstepped
    rw [ownLimits_after decoders lower contentType later hstepped]
    simp [hown]

/-! ### Three bytes -/

def textDecoders : BodyDecoders (List UInt8) Unit where
  null := utf8Bytes (js "null")
  parseJson := some
  decode bytes := bytes.map fun b => b.toNat.toUInt16
  formData _ _ := none

def listRequest : FramedRequest where
  native := false
  chunks := [utf8Bytes (js "[1]")]
  contentLength := none
  bodyCap := .infinity
  delivered := by rintro ⟨⟩

def oneByte : ByteLimit := ⟨.finite 1, by simp⟩

/-- A reader with too small a limit is refused, between two that read the body. -/
theorem calls_ownLimits_small :
    OwnLimits defaultLimits 3 [.json, .readBodyLimited oneByte, .text]
      (BodyReaderState.calls textDecoders (·.map lowerUnit) [] defaultLimits
        listRequest.toRequestSource {} [.json, .readBodyLimited oneByte, .text]) := by
  refine (calls_ownLimits_iff textDecoders (·.map lowerUnit) [] defaultLimits listRequest .json
    [.readBodyLimited oneByte, .text] (by decide +kernel) (by rintro declared ⟨⟩)).mpr ?_
  rintro ⟨-, limit, hlimit, -⟩
  cases hlimit

/-- The refusal of a reader with a limit of one byte is all that a larger reader gets. -/
theorem calls_leak_refusal :
    ¬OwnLimits defaultLimits 3 [.json, .readBodyLimited oneByte, .arrayBuffer]
      (BodyReaderState.calls textDecoders (·.map lowerUnit) [] defaultLimits
        listRequest.toRequestSource {} [.json, .readBodyLimited oneByte, .arrayBuffer]) := by
  intro h
  have hcalls : BodyReaderState.calls textDecoders (·.map lowerUnit) [] defaultLimits
      listRequest.toRequestSource {} [.json, .readBodyLimited oneByte, .arrayBuffer] =
      [.json (utf8Bytes (js "[1]")), .failed (.tooLarge (.finite 1) none),
        .failed (.tooLarge (.finite 1) none)] := by
    decide +kernel
  rw [hcalls] at h
  have hpasses := (h (.arrayBuffer, .failed (.tooLarge (.finite 1) none)) (by simp)).mpr
    (by decide +kernel)
  exact hpasses _ _ rfl

end Keala.Plugins
