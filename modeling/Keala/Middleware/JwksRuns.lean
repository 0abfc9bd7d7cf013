import Keala.Lib.Spaced
import Keala.Middleware.JwksImport

/-!
The key source over every run: one flight at a time, a cache that is the last
good document, tokens accepted by its keys only, and flights that keep their
distance.
-/

namespace Keala.Middleware

open Js OrderedMap Spaced

/-! ### What a history says -/

namespace JwksRecord

def isStart : JwksRecord → Bool
  | started _ _ => true
  | _ => false

def isLanding : JwksRecord → Bool
  | landed _ _ _ => true
  | _ => false

def keys? : JwksRecord → Option (List Json)
  | landed keys _ _ => keys
  | _ => none

def recheck? : JwksRecord → Option ℤ
  | recheck reading => some reading
  | _ => none

def unknownKid? : JwksRecord → Option ℤ
  | started .unknownKid reading => some reading
  | _ => none

/-- The landing of a flight after which there are keys to serve, or a new document. -/
def stamp? : JwksRecord → Option ℤ
  | landed (some _) _ reading => some reading
  | landed none true reading => some reading
  | _ => none

end JwksRecord

open JwksRecord

namespace JwksHistory

variable (history : JwksHistory)

def documents : List (List Json) := history.filterMap keys?

def rechecks : List ℤ := history.filterMap recheck?

def stamped : Option ℤ := (history.filterMap stamp?).getLast?

/-- No flight starts before the previous one has landed. -/
def SingleFlight : Prop :=
  ∀ before, before <+: history → before.countP isLanding ≤ before.countP isStart ∧
    before.countP isStart ≤ before.countP isLanding + 1

/-- A flight because the set is stale starts at least a TTL after the last landing
that left keys to serve. -/
def StaleApart (ttl : ℚ) : Prop :=
  ∀ before reading after, history = before ++ started .stale reading :: after →
    ∀ landing ∈ stamped before, ttl ≤ ((reading - landing : ℤ) : ℚ)

variable {history}

theorem SingleFlight.concat (h : SingleFlight history) {record : JwksRecord}
    (hlast : (history ++ [record]).countP isLanding ≤ (history ++ [record]).countP isStart ∧
      (history ++ [record]).countP isStart ≤ (history ++ [record]).countP isLanding + 1) :
    SingleFlight (history ++ [record]) := by
  intro before hbefore
  rcases List.prefix_concat_iff.mp hbefore with rfl | hold
  · exact hlast
  · exact h before hold

theorem StaleApart.concat {ttl : ℚ} (h : StaleApart history ttl) {record : JwksRecord}
    (hlast : ∀ reading, record = started .stale reading → ∀ landing ∈ stamped history,
      ttl ≤ ((reading - landing : ℤ) : ℚ)) : StaleApart (history ++ [record]) ttl := by
  intro before reading after heq
  rcases List.eq_nil_or_concat after with rfl | ⟨front, last, rfl⟩
  · obtain ⟨rfl, hrecord⟩ := List.append_inj' heq rfl
    exact hlast reading (List.singleton_inj.mp hrecord)
  · rw [List.concat_eq_append, ← List.cons_append, ← List.append_assoc] at heq
    exact h before reading front (List.append_inj' heq rfl).1

end JwksHistory

/-! ### The invariant -/

variable {platform : JwksPlatform} {regExps : ℕ → RegExpObject} {ttl : ℚ} {st st' : JwksState}

def JwksPhase.awaits : JwksPhase → Option ℕ
  | .ensuring flight => some flight
  | .rechecking flight => some flight
  | .joined flight => some flight
  | _ => none

def cacheOf (platform : JwksPlatform) (documents : List (List Json)) : List (Slot × CachedKey) :=
  match documents.getLast? with
  | some keys => importKeys platform keys
  | none => []

/-- A document that the endpoint has published holds the key under the `kid` of
the token, or as its sole key where the token has none. -/
def Matches (platform : JwksPlatform) (documents : List (List Json)) (token : JsString)
    (entry : CachedKey) : Prop :=
  ∃ keys ∈ documents, lookupKey (importKeys platform keys) (kidOf platform token) = some entry

def PhaseFits (platform : JwksPlatform) (documents : List (List Json)) :
    JwksCaller → JwksPhase → Prop
  | .verify token _, .verifying entry => Matches platform documents token entry
  | _, .verifying _ => False
  | .verify _ _, .rechecking _ => True
  | _, .rechecking _ => False
  | _, _ => True

structure JwksInv (platform : JwksPlatform) (ttl : ℚ) (st : JwksState) : Prop where
  single : st.history.SingleFlight
  flights : st.flights = st.history.countP isStart
  grounded : st.flight = none → st.history.countP isStart = st.history.countP isLanding
  inAir : ∀ flight, st.flight = some flight → flight + 1 = st.flights ∧
    st.history.countP isStart = st.history.countP isLanding + 1
  ended : ∀ flight, (st.ended flight).isSome = true ↔
    flight < st.flights ∧ st.flight ≠ some flight
  cached : st.cached = cacheOf platform st.history.documents
  fetchedAt : st.fetchedAt = st.history.stamped.getD 0
  missCheckedAt : st.missCheckedAt = st.history.rechecks.getLast?.getD 0
  rechecks : Apart ttl (st.history.rechecks.map fun reading : ℤ => (reading : ℚ))
  unknown : (st.history.filterMap unknownKid?).Sublist st.history.rechecks
  stale : st.history.StaleApart ttl
  waits : ∀ id call, st.calls id = some call → ∀ flight ∈ call.phase.awaits, flight < st.flights
  fits : ∀ id call, st.calls id = some call →
    PhaseFits platform st.history.documents call.caller call.phase

theorem Matches.mono {documents documents' : List (List Json)} {token : JsString}
    {entry : CachedKey} (h : Matches platform documents token entry)
    (hsub : ∀ keys ∈ documents, keys ∈ documents') : Matches platform documents' token entry :=
  h.imp fun keys hkeys => hkeys.imp_left (hsub keys)

theorem PhaseFits.mono {documents documents' : List (List Json)} {caller : JwksCaller}
    {phase : JwksPhase} (h : PhaseFits platform documents caller phase)
    (hsub : ∀ keys ∈ documents, keys ∈ documents') :
    PhaseFits platform documents' caller phase := by
  rw [PhaseFits.eq_def] at h ⊢
  split at h
  · exact h.mono hsub
  · exact h
  · trivial
  · exact h
  · trivial

theorem jwksInv_createJwks (platform : JwksPlatform) (ttl : ℚ) (now : ℤ) (memory : Memory) :
    JwksInv platform ttl (createJwks now memory) where
  single before hbefore := by
    rw [List.prefix_nil.mp hbefore]
    exact ⟨le_refl _, Nat.zero_le _⟩
  flights := rfl
  grounded _ := rfl
  inAir flight h := by cases h
  ended flight := by simp [createJwks]
  cached := rfl
  fetchedAt := rfl
  missCheckedAt := rfl
  rechecks := List.Pairwise.nil
  unknown := List.Sublist.refl _
  stale before reading after h := by cases before <;> cases h
  waits id call h := by cases h
  fits id call h := by cases h

theorem JwksInv.setCall (h : JwksInv platform ttl st) {id : ℕ} {caller : JwksCaller}
    {phase : JwksPhase} (hwaits : ∀ flight ∈ phase.awaits, flight < st.flights)
    (hfits : PhaseFits platform st.history.documents caller phase) :
    JwksInv platform ttl (st.setCall id caller phase) := by
  refine { h with waits := fun id' call hcall => ?_, fits := fun id' call hcall => ?_ }
  · change Function.update st.calls id (some ⟨caller, phase⟩) id' = some call at hcall
    by_cases heq : id' = id
    · rw [heq, Function.update_self, Option.some_inj] at hcall
      rw [← hcall]
      exact hwaits
    · rw [Function.update_of_ne heq] at hcall
      exact h.waits id' call hcall
  · change Function.update st.calls id (some ⟨caller, phase⟩) id' = some call at hcall
    by_cases heq : id' = id
    · rw [heq, Function.update_self, Option.some_inj] at hcall
      rw [← hcall]
      exact hfits
    · rw [Function.update_of_ne heq] at hcall
      exact h.fits id' call hcall

/-- A flight is in the air after `refresh`. -/
theorem JwksInv.refresh (h : JwksInv platform ttl st) (cause : FetchCause)
    (hstale : cause = .stale → ∀ landing ∈ st.history.stamped,
      ttl ≤ ((st.now - landing : ℤ) : ℚ))
    (hunknown : cause = .unknownKid →
      (st.history.filterMap unknownKid? ++ [st.now]).Sublist st.history.rechecks) :
    JwksInv platform ttl (st.refresh cause).1 ∧
      (st.refresh cause).2 < (st.refresh cause).1.flights ∧
      (st.refresh cause).1.history.documents = st.history.documents := by
  rw [JwksState.refresh]
  cases hflight : st.flight with
  | some flight =>
      -- Whoever asks joins the flight in the air.
      refine ⟨h, ?_, rfl⟩
      have hlast := (h.inAir flight hflight).1
      show flight < st.flights
      omega
  | none =>
      dsimp only
      -- A new flight: the history grows by its start and nothing else.
      have hdocuments : JwksHistory.documents (st.history ++ [started cause st.now]) =
          st.history.documents := by
        simp [JwksHistory.documents, keys?]
      have hrechecks : JwksHistory.rechecks (st.history ++ [started cause st.now]) =
          st.history.rechecks := by
        simp [JwksHistory.rechecks, recheck?]
      have hstamped : JwksHistory.stamped (st.history ++ [started cause st.now]) =
          st.history.stamped := by
        simp [JwksHistory.stamped, stamp?]
      have hequal := h.grounded hflight
      have hstarts : (st.history ++ [started cause st.now]).countP isStart =
          st.history.countP isStart + 1 := by
        rw [List.countP_append]
        rfl
      have hlandings : (st.history ++ [started cause st.now]).countP isLanding =
          st.history.countP isLanding := by
        rw [List.countP_append]
        rfl
      refine ⟨⟨h.single.concat ?_, ?_, (fun hnone => by cases hnone), fun flight heq => ?_,
        fun flight => ?_, ?_, ?_, ?_, ?_, ?_, h.stale.concat fun reading heq => ?_,
        fun id call hcall flight hmem => ?_, ?_⟩, Nat.lt_succ_self _, hdocuments⟩
      · rw [hstarts, hlandings]
        omega
      · exact (congrArg (· + 1) h.flights).trans hstarts.symm
      · cases heq
        refine ⟨rfl, ?_⟩
        rw [hstarts, hlandings, hequal]
      · rw [h.ended, hflight]
        show _ ↔ flight < st.flights + 1 ∧ some st.flights ≠ some flight
        constructor
        · rintro ⟨hlt, -⟩
          refine ⟨Nat.lt_succ_of_lt hlt, fun heq => ?_⟩
          rw [Option.some_inj] at heq
          omega
        · rintro ⟨hlt, hne⟩
          rw [ne_eq, Option.some_inj] at hne
          exact ⟨by omega, (Option.some_ne_none _).symm⟩
      · rw [hdocuments]
        exact h.cached
      · rw [hstamped]
        exact h.fetchedAt
      · rw [hrechecks]
        exact h.missCheckedAt
      · rw [hrechecks]
        exact h.rechecks
      · rw [hrechecks, List.filterMap_append]
        cases cause with
        | stale => exact (List.append_nil _).symm ▸ h.unknown
        | unknownKid => exact hunknown rfl
        | refresh => exact (List.append_nil _).symm ▸ h.unknown
      · cases heq
        exact hstale rfl
      · exact Nat.lt_succ_of_lt (h.waits id call hcall flight hmem)
      · rw [hdocuments]
        exact h.fits

theorem cacheOf_concat (documents : List (List Json)) (keys : List Json) :
    cacheOf platform (documents ++ [keys]) = importKeys platform keys := by
  rw [cacheOf, List.getLast?_append, List.getLast?_singleton, Option.some_or]

/-- The flight in the air lands. -/
theorem JwksInv.land (h : JwksInv platform ttl st) {flight : ℕ}
    (hflight : st.flight = some flight) (answer : FetchAnswer) :
    JwksInv platform ttl (st.land platform flight answer) := by
  obtain ⟨hlast, hequal⟩ := h.inAir flight hflight
  obtain ⟨record, hrecord⟩ : ∃ record,
      record = landed answer.keys (!st.cached.isEmpty) st.now := ⟨_, rfl⟩
  have hstarts : (st.history ++ [record]).countP isStart = st.history.countP isStart := by
    rw [List.countP_append, hrecord]
    rfl
  have hlandings : (st.history ++ [record]).countP isLanding =
      st.history.countP isLanding + 1 := by
    rw [List.countP_append, hrecord]
    rfl
  have hrechecks : JwksHistory.rechecks (st.history ++ [record]) = st.history.rechecks := by
    simp [JwksHistory.rechecks, hrecord, recheck?]
  have hunknown : (st.history ++ [record]).filterMap unknownKid? =
      st.history.filterMap unknownKid? := by
    simp [hrecord, unknownKid?]
  have hdocuments : JwksHistory.documents (st.history ++ [record]) =
      st.history.documents ++ answer.keys.toList := by
    rw [JwksHistory.documents, List.filterMap_append, hrecord]
    cases answer.keys with
    | none => rfl
    | some keys => rfl
  have hended : ∀ ok flight', (Function.update st.ended flight (some ok) flight').isSome = true ↔
      flight' < st.flights ∧ (none : Option ℕ) ≠ some flight' := by
    intro ok flight'
    -- The flight that lands has ended, and the others as before.
    by_cases heq : flight' = flight
    · subst heq
      rw [Function.update_self]
      exact iff_of_true rfl ⟨by omega, (Option.some_ne_none _).symm⟩
    · rw [Function.update_of_ne heq, h.ended, hflight]
      refine and_congr_right fun _ => iff_of_true ?_ (Option.some_ne_none _).symm
      exact fun hnot => heq (Option.some_inj.mp hnot).symm
  have hsub : ∀ keys ∈ st.history.documents,
      keys ∈ JwksHistory.documents (st.history ++ [record]) := by
    intro keys hkeys
    rw [hdocuments]
    exact List.mem_append_left _ hkeys
  have hland : st.land platform flight answer = { st with
      flight := none
      history := st.history ++ [record]
      cached := cacheOf platform (JwksHistory.documents (st.history ++ [record]))
      fetchedAt := (JwksHistory.stamped (st.history ++ [record])).getD 0
      ended := Function.update st.ended flight (some answer.keys.isSome) } := by
    -- The state after a landing, read off the history.
    rw [JwksState.land, hdocuments, ← hrecord]
    have hstamp : JwksHistory.stamped (st.history ++ [record]) =
        (stamp? record).or st.history.stamped := by
      rw [JwksHistory.stamped, List.filterMap_append, List.getLast?_append]
      congr 1
      cases hthis : stamp? record with
      | none => simp [hthis]
      | some reading => simp [hthis]
    rw [hstamp, hrecord]
    cases answer.keys with
    | some keys =>
        rw [Option.toList_some, cacheOf_concat]
        rfl
    | none =>
        -- Without a document the old keys are served on, with a new stamp where there are any.
        rw [Option.toList_none, List.append_nil, ← h.cached]
        cases hwarm : st.cached.isEmpty with
        | true =>
            have hcold : stamp? (landed none (!true) st.now) = none := rfl
            rw [hcold, Option.none_or, ← h.fetchedAt]
            rfl
        | false => rfl
  rw [hland]
  refine ⟨h.single.concat ?_, h.flights.trans hstarts.symm, fun _ => ?_,
    (fun flight' heq => by cases heq), hended _, rfl, rfl, ?_, ?_, ?_,
    h.stale.concat fun reading heq => ?_, h.waits, fun id call hcall =>
      (h.fits id call hcall).mono hsub⟩
  · rw [hstarts, hlandings]
    omega
  · rw [hstarts, hlandings, hequal]
  · rw [hrechecks]
    exact h.missCheckedAt
  · rw [hrechecks]
    exact h.rechecks
  · rw [hrechecks, hunknown]
    exact h.unknown
  · rw [hrecord] at heq
    cases heq

/-! ### The calls -/

section

variable {documents : List (List Json)} (caller : JwksCaller)

theorem fits_ensuring (flight : ℕ) :
    PhaseFits platform documents caller (.ensuring flight) := by
  cases caller <;> trivial

theorem fits_ensured (fresh : Bool) :
    PhaseFits platform documents caller (.ensured fresh) := by
  cases caller <;> trivial

theorem fits_joined (flight : ℕ) :
    PhaseFits platform documents caller (.joined flight) := by
  cases caller <;> trivial

theorem fits_answered (answer : JwksAnswer) :
    PhaseFits platform documents caller (.answered answer) := by
  cases caller <;> trivial

end

theorem JwksInv.ensureFresh (h : JwksInv platform ttl st) (id : ℕ) (caller : JwksCaller) :
    JwksInv platform ttl (st.ensureFresh ttl id caller) := by
  rw [JwksState.ensureFresh]
  split
  · exact h.setCall (fun flight hflight => by cases hflight) (fits_ensured caller true)
  · next hstale =>
      have hlate : ∀ landing ∈ st.history.stamped, ttl ≤ ((st.now - landing : ℤ) : ℚ) := by
        intro landing hlanding
        rw [JwksState.fresh, h.fetchedAt, Option.mem_def.mp hlanding, decide_eq_true_eq,
          not_lt] at hstale
        exact hstale
      obtain ⟨hinv, hlt, -⟩ := h.refresh .stale (fun _ => hlate)
        (fun hnot => by cases hnot)
      refine hinv.setCall (fun flight hflight => ?_) (fits_ensuring caller _)
      cases hflight
      exact hlt

theorem JwksInv.call (h : JwksInv platform ttl st) (id : ℕ) (caller : JwksCaller) :
    JwksInv platform ttl (st.call ttl id caller) := by
  cases caller with
  | verify token options => exact h.ensureFresh id _
  | keys => exact h.ensureFresh id _
  | refresh =>
      obtain ⟨hinv, hlt, -⟩ := h.refresh .refresh (fun hnot => by cases hnot)
        (fun hnot => by cases hnot)
      refine hinv.setCall (fun flight hflight => ?_) (fits_joined _ _)
      cases hflight
      exact hlt
  | warmup =>
      rw [JwksState.call]
      split
      · exact h.setCall (fun flight hflight => by cases hflight)
          (fits_answered _ _)
      · have hwarmed : JwksInv platform ttl { st with warmed := true } := { h with }
        exact hwarmed.ensureFresh id _

/-- What is found in the cache is of a document that has been published. -/
theorem JwksInv.matches_of_lookup (h : JwksInv platform ttl st) {token : JsString}
    {entry : CachedKey} (hfound : lookupKey st.cached (kidOf platform token) = some entry) :
    Matches platform st.history.documents token entry := by
  rw [h.cached, cacheOf] at hfound
  cases hlast : st.history.documents.getLast? with
  | none =>
      rw [hlast] at hfound
      cases hkid : kidOf platform token with
      | none =>
          rw [hkid] at hfound
          cases hfound
      | some kid =>
          rw [hkid] at hfound
          cases hfound
  | some keys =>
      rw [hlast] at hfound
      exact ⟨keys, List.mem_of_getLast? hlast, hfound⟩

/-- An unknown kid is looked for again. -/
theorem JwksInv.recheck (h : JwksInv platform ttl st) (httl : 0 ≤ ttl)
    (hapart : ttl ≤ ((st.now - st.missCheckedAt : ℤ) : ℚ)) :
    JwksInv platform ttl { st with
      missCheckedAt := st.now
      history := st.history ++ [JwksRecord.recheck st.now] } ∧
    ((st.history ++ [JwksRecord.recheck st.now]).filterMap unknownKid? ++ [st.now]).Sublist
      (JwksHistory.rechecks (st.history ++ [JwksRecord.recheck st.now])) := by
  have hrechecks : JwksHistory.rechecks (st.history ++ [JwksRecord.recheck st.now]) =
      st.history.rechecks ++ [st.now] := by
    simp [JwksHistory.rechecks, recheck?]
  have hdocuments : JwksHistory.documents (st.history ++ [JwksRecord.recheck st.now]) =
      st.history.documents := by
    simp [JwksHistory.documents, keys?]
  have hstamped : JwksHistory.stamped (st.history ++ [JwksRecord.recheck st.now]) =
      st.history.stamped := by
    simp [JwksHistory.stamped, stamp?]
  have hunknown : (st.history ++ [JwksRecord.recheck st.now]).filterMap unknownKid? =
      st.history.filterMap unknownKid? := by
    simp [unknownKid?]
  have hstarts : (st.history ++ [JwksRecord.recheck st.now]).countP isStart =
      st.history.countP isStart := by
    rw [List.countP_append]
    rfl
  have hlandings : (st.history ++ [JwksRecord.recheck st.now]).countP isLanding =
      st.history.countP isLanding := by
    rw [List.countP_append]
    rfl
  refine ⟨⟨h.single.concat ?_, ?_, ?_, ?_, h.ended, ?_, ?_, ?_, ?_, ?_,
    h.stale.concat fun reading heq => (by cases heq), h.waits, ?_⟩, ?_⟩
  · rw [hstarts, hlandings]
    exact h.single st.history (List.prefix_refl _)
  · rw [hstarts]
    exact h.flights
  · rw [hstarts, hlandings]
    exact h.grounded
  · rw [hstarts, hlandings]
    exact h.inAir
  · rw [hdocuments]
    exact h.cached
  · rw [hstamped]
    exact h.fetchedAt
  · rw [hrechecks, List.getLast?_append, List.getLast?_singleton]
    rfl
  · rw [hrechecks, List.map_append]
    refine h.rechecks.concat httl fun last hlast => ?_
    rw [List.getLast?_map, Option.mem_def, Option.map_eq_some_iff] at hlast
    obtain ⟨reading, hreading, rfl⟩ := hlast
    rw [h.missCheckedAt, hreading, Int.cast_sub] at hapart
    exact hapart
  · rw [hunknown, hrechecks]
    exact h.unknown.trans (List.sublist_append_left _ _)
  · rw [hdocuments]
    exact h.fits
  · rw [hunknown, hrechecks]
    exact h.unknown.append (List.Sublist.refl _)

theorem JwksInv.seek (h : JwksInv platform ttl st) (httl : 0 ≤ ttl) (id : ℕ)
    (token : JsString) (options : VerifyOptions) :
    JwksInv platform ttl (st.seek ttl platform id token options) := by
  rw [JwksState.seek]
  split
  · next entry hfound =>
      exact h.setCall (fun flight hflight => by cases hflight) (h.matches_of_lookup hfound)
  · split
    · next hapart =>
        obtain ⟨hrechecked, hsub⟩ := h.recheck httl hapart
        obtain ⟨hinv, hlt, -⟩ := hrechecked.refresh .unknownKid
          (fun hnot => by cases hnot) (fun _ => hsub)
        refine hinv.setCall (fun flight hflight => ?_) trivial
        cases hflight
        exact hlt
    · exact h.setCall (fun flight hflight => by cases hflight) trivial

theorem JwksInv.judge (h : JwksInv platform ttl st) (id : ℕ) (token : JsString)
    (options : VerifyOptions) (entry : CachedKey) :
    JwksInv platform ttl (st.judge platform regExps id token options entry) := by
  have hmemory : JwksInv platform ttl { st with
      memory := (verifyJWT platform.toJwtPlatform regExps token (.cryptoKey entry.key) options
        st.now st.memory).2 } := { h with }
  exact hmemory.setCall (fun flight hflight => by cases hflight) trivial

theorem JwksInv.resume (h : JwksInv platform ttl st) (httl : 0 ≤ ttl) {id : ℕ}
    (hresume : st.resume ttl platform regExps id = some st') :
    JwksInv platform ttl st' := by
  rw [JwksState.resume.eq_def] at hresume
  have hnone : ∀ {phase : JwksPhase}, phase.awaits = none →
      ∀ flight ∈ phase.awaits, flight < st.flights := by
    intro phase hphase flight hflight
    rw [hphase] at hflight
    cases hflight
  split at hresume
  · cases hresume
  · next caller flight _ =>
      obtain ⟨ok, -, rfl⟩ := Option.map_eq_some_iff.mp hresume
      exact h.setCall (hnone rfl) (fits_ensured caller _)
  · next token options fresh _ =>
      split at hresume
      · cases hresume
        exact h.seek httl id token options
      · cases hresume
        exact h.setCall (hnone rfl) trivial
  · split at hresume
    · cases hresume
      exact h.setCall (hnone rfl) trivial
    · cases hresume
      exact h.setCall (hnone rfl) trivial
  · next caller fresh _ _ _ =>
      cases hresume
      exact h.setCall (hnone rfl) (fits_answered caller _)
  · next token options flight _ =>
      obtain ⟨ok, -, rfl⟩ := Option.map_eq_some_iff.mp hresume
      split
      · next entry hfound =>
          cases ok with
          | true => exact h.setCall (hnone rfl) (h.matches_of_lookup hfound)
          | false => cases hfound
      · exact h.setCall (hnone rfl) trivial
  · next token options entry _ =>
      cases hresume
      exact h.judge id token options entry
  · next caller flight _ =>
      obtain ⟨ok, -, rfl⟩ := Option.map_eq_some_iff.mp hresume
      exact h.setCall (hnone rfl) (fits_answered caller _)
  · cases hresume

theorem JwksInv.step (h : JwksInv platform ttl st) (httl : 0 ≤ ttl) {e : JwksEvent}
    (hstep : st.step platform regExps ttl e = some st') :
    JwksInv platform ttl st' := by
  cases e with
  | clock now =>
      cases hstep
      exact { h with }
  | call id caller =>
      simp only [JwksState.step, Option.ite_none_left_eq_some, Option.some_inj] at hstep
      obtain ⟨-, rfl⟩ := hstep
      exact h.call id caller
  | resume id => exact h.resume httl hstep
  | land answer =>
      obtain ⟨flight, hflight, rfl⟩ := Option.map_eq_some_iff.mp hstep
      exact h.land hflight answer

theorem jwksInv_of_reachable {now : ℤ} {memory : Memory} (httl : 0 ≤ ttl)
    (h : (jwks platform regExps ttl now memory).Reachable st) : JwksInv platform ttl st :=
  Lts.Reachable.invariant (jwksInv_createJwks platform ttl now memory)
    (fun _ _ _ hinv => hinv.step httl) h

/-! ### Which step answers a call -/

section

variable {id : ℕ}

theorem refresh_calls (cause : FetchCause) : (st.refresh cause).1.calls = st.calls := by
  rw [JwksState.refresh]
  split
  · rfl
  · rfl

theorem land_calls (flight : ℕ) (answer : FetchAnswer) :
    (st.land platform flight answer).calls = st.calls := by
  rw [JwksState.land]
  split
  · rfl
  · rfl

/-- What a step makes of the call that it is about. -/
def JwksState.Moves (st st' : JwksState) (id : ℕ) (caller : JwksCaller) (phase : JwksPhase) :
    Prop :=
  st'.calls = Function.update st.calls id (some ⟨caller, phase⟩)

variable (st) in
theorem moves_refresh (cause : FetchCause) (id : ℕ) (caller : JwksCaller)
    (phase : ℕ → JwksPhase) :
    st.Moves ((st.refresh cause).1.setCall id caller (phase (st.refresh cause).2)) id caller
      (phase (st.refresh cause).2) :=
  congrArg (Function.update · id _) (refresh_calls cause)

variable (ttl st) in
theorem moves_ensureFresh (id : ℕ) (caller : JwksCaller) : ∃ phase,
    st.Moves (st.ensureFresh ttl id caller) id caller phase ∧
      phase ≠ .answered (.verdict true) := by
  rw [JwksState.ensureFresh]
  split
  · exact ⟨_, rfl, fun hnot => by cases hnot⟩
  · exact ⟨_, moves_refresh st .stale id caller .ensuring, fun hnot => by cases hnot⟩

variable (ttl st) in
theorem moves_call (id : ℕ) (caller : JwksCaller) : ∃ phase,
    st.Moves (st.call ttl id caller) id caller phase ∧ phase ≠ .answered (.verdict true) := by
  cases caller with
  | verify token options => exact moves_ensureFresh ttl st id _
  | keys => exact moves_ensureFresh ttl st id _
  | refresh =>
      exact ⟨_, moves_refresh st .refresh id _ .joined, fun hnot => by cases hnot⟩
  | warmup =>
      rw [JwksState.call]
      split
      · exact ⟨_, rfl, fun hnot => by cases hnot⟩
      · exact moves_ensureFresh ttl { st with warmed := true } id _

variable (platform ttl st) in
theorem moves_seek (id : ℕ) (token : JsString) (options : VerifyOptions) : ∃ phase,
    st.Moves (st.seek ttl platform id token options) id (.verify token options) phase ∧
      phase ≠ .answered (.verdict true) := by
  rw [JwksState.seek]
  split
  · exact ⟨_, rfl, fun hnot => by cases hnot⟩
  · split
    · have hmoves := moves_refresh { st with
        missCheckedAt := st.now
        history := st.history ++ [JwksRecord.recheck st.now] } .unknownKid id
        (.verify token options) .rechecking
      exact ⟨_, hmoves, fun hnot => by cases hnot⟩
    · exact ⟨_, rfl, fun hnot => by cases hnot⟩

/-- The call verifies its token with an entry, on the clock and in the memory of
this moment, and the token is good. -/
def JwksState.Verifies (platform : JwksPlatform) (regExps : ℕ → RegExpObject) (st : JwksState)
    (id : ℕ) (token : JsString) (options : VerifyOptions) (entry : CachedKey) : Prop :=
  st.calls id = some ⟨.verify token options, .verifying entry⟩ ∧
    (verifyJWT platform.toJwtPlatform regExps token (.cryptoKey entry.key) options st.now
      st.memory).1.isOk = true

theorem moves_resume (h : st.resume ttl platform regExps id = some st') : ∃ caller phase,
    st.Moves st' id caller phase ∧ (phase = .answered (.verdict true) →
      ∃ token options entry, caller = .verify token options ∧
        st.Verifies platform regExps id token options entry) := by
  have hother : ∀ {after : JwksState} {caller : JwksCaller} {phase : JwksPhase},
      st.Moves after id caller phase → phase ≠ .answered (.verdict true) →
        ∃ caller phase, st.Moves after id caller phase ∧ (phase = .answered (.verdict true) →
          ∃ token options entry, caller = .verify token options ∧
            st.Verifies platform regExps id token options entry) :=
    fun hmoves hphase => ⟨_, _, hmoves, fun heq => absurd heq hphase⟩
  rw [JwksState.resume.eq_def] at h
  split at h
  · cases h
  · obtain ⟨ok, -, rfl⟩ := Option.map_eq_some_iff.mp h
    exact hother rfl fun hnot => by cases hnot
  · split at h
    · cases h
      obtain ⟨phase, hmoves, hphase⟩ := moves_seek platform ttl st id _ _
      exact hother hmoves hphase
    · cases h
      exact hother rfl fun hnot => by cases hnot
  · split at h
    · cases h
      exact hother rfl fun hnot => by cases hnot
    · cases h
      exact hother rfl fun hnot => by cases hnot
  · cases h
    exact hother rfl fun hnot => by cases hnot
  · obtain ⟨ok, -, rfl⟩ := Option.map_eq_some_iff.mp h
    split
    · exact hother rfl fun hnot => by cases hnot
    · exact hother rfl fun hnot => by cases hnot
  · next token options entry hcall =>
      cases h
      refine ⟨_, _, rfl, fun heq => ⟨token, options, entry, rfl, hcall, ?_⟩⟩
      rw [JwksPhase.answered.injEq, JwksAnswer.verdict.injEq] at heq
      exact heq
  · obtain ⟨ok, -, rfl⟩ := Option.map_eq_some_iff.mp h
    refine hother rfl fun hnot => ?_
    cases ok with
    | true => cases hnot
    | false => cases hnot
  · cases h

/-- A step that leaves a call accepted either finds it so or verifies its token. -/
theorem step_accepts {e : JwksEvent} {token : JsString} {options : VerifyOptions}
    (hstep : st.step platform regExps ttl e = some st')
    (hbefore : st.calls id ≠ some ⟨.verify token options, .answered (.verdict true)⟩)
    (hafter : st'.calls id = some ⟨.verify token options, .answered (.verdict true)⟩) :
    e = .resume id ∧ ∃ entry, st.Verifies platform regExps id token options entry := by
  cases e with
  | clock now =>
      cases hstep
      exact absurd hafter hbefore
  | land answer =>
      obtain ⟨flight, -, rfl⟩ := Option.map_eq_some_iff.mp hstep
      rw [land_calls] at hafter
      exact absurd hafter hbefore
  | call other caller =>
      simp only [JwksState.step, Option.ite_none_left_eq_some, Option.some_inj] at hstep
      obtain ⟨-, rfl⟩ := hstep
      obtain ⟨phase, hmoves, hphase⟩ := moves_call ttl st other caller
      rw [hmoves] at hafter
      by_cases hid : id = other
      · rw [hid, Function.update_self, Option.some_inj, JwksCall.mk.injEq] at hafter
        exact absurd hafter.2 hphase
      · rw [Function.update_of_ne hid] at hafter
        exact absurd hafter hbefore
  | resume other =>
      obtain ⟨caller, phase, hmoves, hverified⟩ := moves_resume hstep
      rw [hmoves] at hafter
      by_cases hid : id = other
      · subst hid
        rw [Function.update_self, Option.some_inj, JwksCall.mk.injEq] at hafter
        obtain ⟨token', options', entry, hcaller, hverifies⟩ := hverified hafter.2
        obtain ⟨rfl, rfl⟩ := JwksCaller.verify.inj (hcaller.symm.trans hafter.1)
        exact ⟨rfl, entry, hverifies⟩
      · rw [Function.update_of_ne hid] at hafter
        exact absurd hafter hbefore

end

/-! ### What a run guarantees -/

/-- The cache is always what the last good document makes, whatever has failed
since, and holds published keys only. -/
theorem jwks_cache {now : ℤ} {memory : Memory} (httl : 0 ≤ ttl)
    (h : (jwks platform regExps ttl now memory).Reachable st) :
    st.cached = cacheOf platform st.history.documents ∧
      ∀ slot entry, (slot, entry) ∈ st.cached →
        ∃ keys ∈ st.history.documents, Published platform keys slot entry := by
  have hinv := jwksInv_of_reachable httl h
  refine ⟨hinv.cached, fun slot entry hmem => ?_⟩
  rw [hinv.cached, cacheOf] at hmem
  cases hlast : st.history.documents.getLast? with
  | none =>
      rw [hlast] at hmem
      cases hmem
  | some keys =>
      rw [hlast] at hmem
      exact ⟨keys, List.mem_of_getLast? hlast, published_of_mem hmem⟩

/-- A token is accepted only by a step of its own call, which verifies it on the
clock of that moment, with a key that the endpoint has published until then for
the `kid` of the token: an RSA or EC key, never a shared secret. -/
theorem jwks_verify_sound {now : ℤ} {memory : Memory} (httl : 0 ≤ ttl) {events : List JwksEvent}
    (hrun : (jwks platform regExps ttl now memory).runFrom (createJwks now memory) events =
      some st) {id : ℕ} {token : JsString} {options : VerifyOptions}
    (hcall : st.calls id = some ⟨.verify token options, .answered (.verdict true)⟩) :
    ∃ first rest before, events = first ++ .resume id :: rest ∧
      (jwks platform regExps ttl now memory).runFrom (createJwks now memory) first =
        some before ∧
      ∃ entry, before.Verifies platform regExps id token options entry ∧
        ∃ keys ∈ before.history.documents, (∃ slot, Published platform keys slot entry) ∧
          Named platform keys entry (kidOf platform token) := by
  obtain ⟨first, e, rest, before, after, hevents, hfirst, hstep, hbefore, hafter⟩ :=
    Lts.runFrom_becomes (P := fun st : JwksState =>
      st.calls id = some ⟨.verify token options, .answered (.verdict true)⟩) hrun
      (fun hnot => by cases hnot) hcall
  obtain ⟨rfl, entry, hverifies⟩ := step_accepts hstep hbefore hafter
  have hinv : JwksInv platform ttl before :=
    jwksInv_of_reachable httl (Lts.reachable_of_run first hfirst)
  obtain ⟨keys, hkeys, hfound⟩ : Matches platform before.history.documents token entry :=
    hinv.fits id _ hverifies.1
  exact ⟨first, rest, before, hevents, hfirst, entry, hverifies, keys, hkeys,
    named_of_lookupKey hfound⟩

theorem JwksInv.waits_landed (h : JwksInv platform ttl st) {id : ℕ} {call : JwksCall}
    (hcall : st.calls id = some call) {flight : ℕ} (hflight : call.phase.awaits = some flight) :
    st.flight = some flight ∨ (st.ended flight).isSome = true := by
  by_cases hair : st.flight = some flight
  · exact .inl hair
  · exact .inr ((h.ended flight).mpr ⟨h.waits id call hcall flight hflight, hair⟩)

/-- There is one flight at a time, and no call is lost: what a call waits for
is in the air or has landed, and with nothing in the air every call that is not
answered can go on. -/
theorem jwks_flights {now : ℤ} {memory : Memory} (httl : 0 ≤ ttl)
    (h : (jwks platform regExps ttl now memory).Reachable st) :
    st.history.SingleFlight ∧
      (∀ id call flight, st.calls id = some call → call.phase.awaits = some flight →
        st.flight = some flight ∨ (st.ended flight).isSome = true) ∧
      (st.flight = none → ∀ id call, st.calls id = some call →
        (∃ answer, call.phase = .answered answer) ∨
          (st.resume ttl platform regExps id).isSome = true) := by
  have hinv := jwksInv_of_reachable httl h
  refine ⟨hinv.single, fun id call flight hcall hflight => hinv.waits_landed hcall hflight,
    fun hnone id call hcall => ?_⟩
  -- No flight is in the air, so whatever a call waits for has landed.
  have hlanded : ∀ flight, call.phase.awaits = some flight →
      (st.ended flight).isSome = true := by
    intro flight hflight
    refine (hinv.waits_landed hcall hflight).resolve_left ?_
    rw [hnone]
    exact (Option.some_ne_none _).symm
  obtain ⟨caller, phase⟩ := call
  have hfits := hinv.fits id _ hcall
  rw [JwksState.resume.eq_def, hcall]
  cases phase with
  | ensuring flight =>
      refine .inr ?_
      dsimp only
      rw [Option.isSome_map]
      exact hlanded flight rfl
  | ensured fresh =>
      refine .inr ?_
      cases caller with
      | verify token options =>
          dsimp only
          split
          · rfl
          · rfl
      | keys =>
          dsimp only
          split
          · rfl
          · rfl
      | refresh => rfl
      | warmup => rfl
  | rechecking flight =>
      refine .inr ?_
      cases caller with
      | verify token options =>
          dsimp only
          rw [Option.isSome_map]
          exact hlanded flight rfl
      | keys => exact hfits.elim
      | refresh => exact hfits.elim
      | warmup => exact hfits.elim
  | verifying entry =>
      refine .inr ?_
      cases caller with
      | verify token options => rfl
      | keys => exact hfits.elim
      | refresh => exact hfits.elim
      | warmup => exact hfits.elim
  | joined flight =>
      refine .inr ?_
      dsimp only
      rw [Option.isSome_map]
      exact hlanded flight rfl
  | answered answer => exact .inl ⟨answer, rfl⟩

/-- Between two starts of a flight one lands. -/
theorem JwksHistory.SingleFlight.lands {before mid after : JwksHistory} {first second : JwksRecord}
    (h : JwksHistory.SingleFlight (before ++ first :: (mid ++ second :: after)))
    (hfirst : first.isStart = true) (hsecond : second.isStart = true) :
    ∃ record ∈ mid, record.isLanding = true := by
  have hnot : ∀ {record : JwksRecord}, record.isStart = true → record.isLanding = false := by
    intro record hrecord
    cases record with
    | started cause reading => rfl
    | recheck reading => rfl
    | landed keys warm reading => cases hrecord
  have h₀ := h before ⟨_, rfl⟩
  have h₁ := h (before ++ [first]) ⟨mid ++ second :: after, by simp⟩
  have h₂ := h (before ++ first :: (mid ++ [second])) ⟨after, by simp⟩
  simp only [List.countP_append, List.countP_cons, List.countP_nil, hfirst, hsecond,
    hnot hfirst, hnot hsecond, if_true, Bool.false_eq_true, if_false] at h₁ h₂
  have hpositive : 0 < mid.countP isLanding := by omega
  exact List.countP_pos_iff.mp hpositive

theorem stamped_append (before after : JwksHistory) :
    JwksHistory.stamped (before ++ after) = after.stamped.or before.stamped := by
  rw [JwksHistory.stamped, List.filterMap_append, List.getLast?_append]
  rfl

/-- A flight because the set is stale comes a TTL after the last landing that left
keys to serve, so a TTL after an earlier flight has landed, unless that one failed
with nothing in the cache; and no span of the
clock sees more flights for unknown kids than fit into it a TTL apart. -/
theorem jwks_spacing {now : ℤ} {memory : Memory} (httl : 0 ≤ ttl)
    (h : (jwks platform regExps ttl now memory).Reachable st) :
    st.history.StaleApart ttl ∧
    (∀ before mid after cause first second, st.history =
        before ++ started cause first :: (mid ++ started .stale second :: after) →
      (∃ reading, landed none false reading ∈ mid) ∨
        ∃ landing ∈ JwksHistory.stamped mid, ttl ≤ ((second - landing : ℤ) : ℚ)) ∧
    ∀ a b : ℚ, a ≤ b →
      ((((st.history.filterMap unknownKid?).map fun reading : ℤ => (reading : ℚ)).filter
        fun reading => decide (a ≤ reading ∧ reading ≤ b)).length - 1) • ttl ≤ b - a := by
  have hinv := jwksInv_of_reachable httl h
  refine ⟨hinv.stale, fun before mid after cause first second heq => ?_, fun a b hab => ?_⟩
  · obtain ⟨record, hrecord, hlanding⟩ := (heq ▸ hinv.single).lands rfl rfl
    cases hstamped : JwksHistory.stamped mid with
    | none =>
        rw [JwksHistory.stamped, List.getLast?_eq_none_iff, List.filterMap_eq_nil_iff] at hstamped
        have hcold := hstamped record hrecord
        match record with
        | .landed (some keys) warm reading => cases hcold
        | .landed none true reading => cases hcold
        | .landed none false reading => exact .inl ⟨reading, hrecord⟩
    | some landing =>
        refine .inr ⟨landing, rfl, ?_⟩
        refine hinv.stale (before ++ started cause first :: mid) second after (by simp [heq])
          landing ?_
        have hsplit : before ++ started cause first :: mid =
            (before ++ [started cause first]) ++ mid := by simp
        rw [hsplit, stamped_append, hstamped]
        rfl
  · have hsub := hinv.unknown.map fun reading : ℤ => (reading : ℚ)
    exact (hinv.rechecks.sublist hsub).count_le hab

/-! ### A token of a published key -/

def coldRun : List JwksEvent :=
  [.call 0 (.verify es256Token {}),
    .land (.response true (some (.object [(js "keys", .array [.object es256Jwk])]))),
    .resume 0, .resume 0, .resume 0]

def es256Source : Lts JwksState JwksEvent :=
  jwks es256Platform (fun _ => ⟨false, false, fun _ _ => none⟩) 300000 1000000 fun _ => 0

theorem reaches_coldRun : ∃ st, es256Source.runFrom es256Source.start coldRun = some st :=
  Option.isSome_iff_exists.mp (by decide +kernel)

theorem jwks_cache_cold : ∃ st, es256Source.runFrom es256Source.start coldRun = some st ∧
    st.cached = cacheOf es256Platform st.history.documents := by
  obtain ⟨st, hrun⟩ := reaches_coldRun
  exact ⟨st, hrun, (jwks_cache (by decide) (Lts.reachable_of_run coldRun hrun)).1⟩

def acceptedBy (st : JwksState) : Bool :=
  match st.calls 0 with
  | some ⟨.verify token _, .answered (.verdict true)⟩ => token = es256Token
  | _ => false

theorem jwks_verify_sound_cold : ∃ options first rest before,
    coldRun = first ++ .resume 0 :: rest ∧
      es256Source.runFrom es256Source.start first = some before ∧
      ∃ entry, before.Verifies es256Platform (fun _ => ⟨false, false, fun _ _ => none⟩) 0
          es256Token options entry ∧
        ∃ keys ∈ before.history.documents, (∃ slot, Published es256Platform keys slot entry) ∧
          Named es256Platform keys entry (kidOf es256Platform es256Token) := by
  have hends : (es256Source.runFrom es256Source.start coldRun).any acceptedBy = true := by
    decide +kernel
  obtain ⟨st, hrun, haccepted⟩ := (Option.any_eq_true _ _).mp hends
  have hcall : ∃ options, st.calls 0 =
      some ⟨.verify es256Token options, .answered (.verdict true)⟩ := by
    rw [acceptedBy] at haccepted
    split at haccepted
    · next token options hcall =>
        rw [decide_eq_true_eq] at haccepted
        exact ⟨options, haccepted ▸ hcall⟩
    · cases haccepted
  obtain ⟨options, hcall⟩ := hcall
  exact ⟨options, jwks_verify_sound (by decide) hrun hcall⟩

theorem jwks_flights_cold : ∃ st, es256Source.runFrom es256Source.start coldRun = some st ∧
    st.history.SingleFlight := by
  obtain ⟨st, hrun⟩ := reaches_coldRun
  exact ⟨st, hrun, (jwks_flights (by decide) (Lts.reachable_of_run coldRun hrun)).1⟩

/-- A set that has gone stale is fetched again, to no avail. -/
def staleRun : List JwksEvent :=
  coldRun ++ [.clock 1400000, .call 1 .keys, .land .rejected, .resume 1, .resume 1]

theorem jwks_spacing_stale : ∃ st, es256Source.runFrom es256Source.start staleRun = some st ∧
    st.history.StaleApart 300000 ∧
    ∀ before mid after cause first second, st.history =
        before ++ started cause first :: (mid ++ started .stale second :: after) →
      (∃ reading, landed none false reading ∈ mid) ∨
        ∃ landing ∈ JwksHistory.stamped mid, (300000 : ℚ) ≤ ((second - landing : ℤ) : ℚ) := by
  obtain ⟨st, hrun⟩ := Option.isSome_iff_exists.mp
    (by decide +kernel : (es256Source.runFrom es256Source.start staleRun).isSome = true)
  have hspacing := jwks_spacing (by decide) (Lts.reachable_of_run staleRun hrun)
  exact ⟨st, hrun, hspacing.1, hspacing.2.1⟩

end Keala.Middleware
