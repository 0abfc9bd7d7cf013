import Keala.Adapters.OwnedRead

/-!
How the read of a message body ends: it settles once and leaves no listener, no
event that ends the message passes it by, and the first reason that reports the
client gone is the one that stays.
-/

namespace Keala.Adapters

open Js Plugins

namespace NodeRequestSource

variable {Err : Type} {s t : NodeRequestSource Err} {cap : Number} {first : Option Number}

/-! ### No read is left behind -/

/-- A read that was not begun too late has not missed the end of the message. -/
def Awake (s : NodeRequestSource Err) : Prop :=
  ∀ read, s.Reading read → read.late = false →
    s.incoming.readableEnded = false ∧ s.incoming.destroyed = false ∧ s.disconnected = none

theorem SourceBooks.awake (h : SourceBooks cap first s) (hidle : s.pendingRead = false) :
    Awake s := by
  intro read hreading
  rw [h.pending.mpr ⟨read, hreading⟩] at hidle
  cases hidle

theorem pendingRead_fail (failure : ReadFailure Err) (h : s.pendingRead = false) :
    (s.fail failure).pendingRead = false := by
  rw [fail]
  split
  · split
    · exact h
    · rfl
  · exact h

theorem pendingRead_destroy (h : s.pendingRead = false) : s.destroy.pendingRead = false := by
  rw [destroy]
  split
  · exact h
  · dsimp only
    split
    · exact pendingRead_fail _ h
    · exact h

theorem pendingRead_emitEnd (h : SourceBooks cap first s) : s.emitEnd.pendingRead = false := by
  rw [emitEnd]
  dsimp only
  split
  · next hlistens =>
    obtain ⟨read, hreading⟩ := h.pending.mp (h.onEnd ▸ hlistens)
    rw [NodeRequestSource.onEnd, hreading.1]
    dsimp only
    rw [hreading.2, Option.isSome_none, if_neg Bool.false_ne_true]
    rfl
  · next hdeaf => exact h.onEnd.symm.trans ((Bool.not_eq_true _).mp hdeaf)

theorem pendingRead_emitError (h : SourceBooks cap first s) (error : Err) :
    (s.emitError error).pendingRead = false := by
  rw [emitError]
  dsimp only
  split
  · next hlistens =>
    obtain ⟨read, hreading⟩ := h.pending.mp (h.onError ▸ hlistens)
    rw [fail_reading read]
    · rfl
    · exact hreading
  · next hdeaf => exact h.onError.symm.trans ((Bool.not_eq_true _).mp hdeaf)

theorem Awake.destroy (hawake : Awake s) (h : SourceBooks cap first s) : Awake s.destroy := by
  have hbooks := h.destroy
  rw [NodeRequestSource.destroy] at hbooks ⊢
  split at hbooks
  · next hgone => rwa [if_pos hgone]
  · next hopen =>
    rw [if_neg hopen]
    dsimp only at hbooks ⊢
    split at hbooks
    · next hlistens =>
      rw [if_pos hlistens]
      rw [Bool.and_eq_true, h.onAborted] at hlistens
      obtain ⟨read, hreading⟩ := h.pending.mp hlistens.1
      refine hbooks.awake ?_
      rw [fail_reading read]
      · rfl
      · exact hreading
    · next hdeaf =>
      rw [if_neg hdeaf]
      rintro read hreading hlate
      -- A read that listens has seen the end of the message.
      have hended := (hawake read hreading hlate).1
      rw [Bool.and_eq_true, h.onAborted, h.pending.mpr ⟨read, hreading⟩, hended] at hdeaf
      exact absurd ⟨rfl, rfl⟩ hdeaf

/-- A first report of the client fails the read that is under way. -/
theorem pendingRead_disconnect (h : SourceBooks cap first s) (hnone : s.disconnected = none)
    (reason : Reason Err) : (s.disconnect reason).pendingRead = false := by
  have hidle : ((s.setDisconnected reason).failPending reason.failure).pendingRead = false := by
    rw [failPending]
    split
    · next hpending =>
      obtain ⟨read, hreading⟩ := h.pending.mp hpending
      rw [fail_reading read]
      · rfl
      · exact hreading
    · next hidle => exact (Bool.not_eq_true _).mp hidle
  rw [disconnect, if_neg (by rw [hnone]; exact Bool.false_ne_true), destroyWeb]
  split
  · exact pendingRead_destroy hidle
  · exact hidle

theorem disconnect_again {first : Reason Err} (hsome : s.disconnected = some first)
    (reason : Reason Err) : s.disconnect reason = s := by
  rw [disconnect, hsome]
  rfl

theorem Awake.disconnect (hawake : Awake s) (h : SourceBooks cap first s) (reason : Reason Err) :
    Awake (s.disconnect reason) := by
  cases hgone : s.disconnected with
  | some first => rwa [disconnect_again hgone]
  | none => exact (h.disconnect reason).awake (pendingRead_disconnect h hgone reason)

theorem Awake.emitData (hawake : Awake s) (h : SourceBooks cap first s) {chunk : List UInt8}
    {rest : List (List UInt8)} {first' : Option Number}
    (hbooks : SourceBooks cap first' (s.emitData chunk rest)) : Awake (s.emitData chunk rest) := by
  rw [NodeRequestSource.emitData] at hbooks ⊢
  dsimp only at hbooks ⊢
  split at hbooks
  · next hlistens =>
    obtain ⟨read, hreading⟩ := h.pending.mp (h.onData ▸ hlistens)
    rw [if_pos hlistens]
    rw [NodeRequestSource.onData, hreading.1] at hbooks ⊢
    dsimp only at hbooks ⊢
    split at hbooks
    · next hlarge =>
      rw [if_pos hlarge]
      refine hbooks.awake ?_
      rw [fail_reading { read with total := read.total + chunk.length } ⟨rfl, hreading.2⟩]
      rfl
    · next hfits =>
      rw [if_neg hfits]
      rintro other ⟨hother, -⟩ hlate
      rw [setRead, Option.some_inj, BytesPromise.incoming.injEq] at hother
      subst hother
      exact hawake read hreading hlate
  · next hdeaf =>
    have hidle : s.pendingRead = false := h.onData.symm.trans ((Bool.not_eq_true _).mp hdeaf)
    rw [if_neg hdeaf]
    split at hbooks
    · next htaken =>
      rw [if_pos htaken]
      exact hbooks.awake hidle
    · next hfree =>
      rw [if_neg hfree]
      exact hbooks.awake hidle

structure Same (s t : NodeRequestSource Err) : Prop where
  bytes : t.bytes = s.bytes
  readableEnded : t.incoming.readableEnded = s.incoming.readableEnded
  destroyed : t.incoming.destroyed = s.incoming.destroyed
  disconnected : t.disconnected = s.disconnected
  abort : t.abort = s.abort

theorem Same.awake (h : Same s t) (hawake : Awake s) : Awake t := by
  rintro read ⟨hread, hnone⟩ hlate
  rw [h.readableEnded, h.destroyed, h.disconnected]
  exact hawake read ⟨h.bytes ▸ hread, hnone⟩ hlate

theorem getBody_same (s : NodeRequestSource Err) : Same s s.getBody := by
  rw [NodeRequestSource.getBody]
  split
  · exact ⟨rfl, rfl, rfl, rfl, rfl⟩
  · split <;> exact ⟨rfl, rfl, rfl, rfl, rfl⟩

theorem getRequest_same (s : NodeRequestSource Err) : Same s s.getRequest := by
  have hbody := getBody_same s
  rw [NodeRequestSource.getRequest]
  split
  · exact ⟨rfl, rfl, rfl, rfl, rfl⟩
  · split
    · exact ⟨rfl, rfl, rfl, rfl, rfl⟩
    · exact { hbody with }

theorem answer_same (s : NodeRequestSource Err) : Same s s.answer := by
  rw [NodeRequestSource.answer, cleanupUnread]
  split
  · split <;> exact ⟨rfl, rfl, rfl, rfl, rfl⟩
  · exact ⟨rfl, rfl, rfl, rfl, rfl⟩

theorem Awake.readBytes (hawake : Awake s) (limit : Number) : Awake (s.readBytes limit) := by
  rw [NodeRequestSource.readBytes]
  dsimp only
  split
  · exact hawake
  · split
    · split
      · rintro read ⟨⟨⟩, -⟩
      · rintro read ⟨⟨⟩, -⟩
    · split
      · rintro read ⟨⟨⟩, -⟩
      · rintro read ⟨hread, -⟩ hlate
        rw [NodeRequestSource.readIncoming, Option.some_inj, BytesPromise.incoming.injEq] at hread
        subst hread
        simp only [Bool.or_eq_false_iff, Option.isSome_eq_false_iff,
          Option.isNone_iff_eq_none] at hlate
        exact ⟨hlate.1.1, hlate.1.2, hlate.2⟩

theorem Awake.clientAbort (hawake : Awake s) (h : SourceBooks cap first s) (out : OutState) :
    Awake (s.clientAbort out) := by
  have hmade : SourceBooks cap first { s with abort := some s.disconnected } := { h with }
  rw [NodeRequestSource.clientAbort]
  split
  · exact hawake
  · dsimp only
    split
    · exact hawake
    · cases out with
      | ended => exact hawake
      | gone =>
          exact Awake.disconnect (s := { s with abort := some s.disconnected }) hawake hmade _
      | live => exact hawake

theorem Awake.step (hawake : Awake s) (h : SourceBooks cap first s) {event : SourceEvent Err}
    (hstep : s.step event = some t) : Awake t := by
  have hbooks := h.step hstep
  cases event with
  | push chunk =>
      simp only [NodeRequestSource.step, Option.ite_none_left_eq_some, Option.some_inj] at hstep
      obtain ⟨-, rfl⟩ := hstep
      exact hawake
  | complete =>
      simp only [NodeRequestSource.step, Option.ite_none_left_eq_some, Option.some_inj] at hstep
      obtain ⟨-, rfl⟩ := hstep
      exact hawake
  | emit =>
      simp only [NodeRequestSource.step, Option.ite_none_left_eq_some] at hstep
      obtain ⟨-, hstep⟩ := hstep
      split at hstep
      · cases hstep
        exact hawake.emitData h hbooks
      · -- The end settles the pending read.
        rw [Option.ite_none_right_eq_some, Option.some_inj] at hstep
        obtain ⟨-, rfl⟩ := hstep
        exact hbooks.awake (pendingRead_emitEnd h)
  | teardown =>
      cases hstep
      exact hawake.destroy h
  | error error =>
      cases hstep
      exact hbooks.awake (pendingRead_emitError h error)
  | bytes limit =>
      cases hstep
      exact hawake.readBytes limit
  | request =>
      cases hstep
      exact (getRequest_same s).awake hawake
  | useWeb web =>
      rw [NodeRequestSource.step] at hstep
      split at hstep
      · cases hstep
        exact hawake
      · cases hstep
  | clientAbort out =>
      cases hstep
      exact hawake.clientAbort h out
  | closed ended =>
      simp only [NodeRequestSource.step, Option.ite_none_right_eq_some, Option.some_inj] at hstep
      obtain ⟨-, rfl⟩ := hstep
      have hunwatched : SourceBooks cap first { s with watching := false } := { h with }
      split
      · exact hawake
      · exact Awake.disconnect (s := { s with watching := false }) hawake hunwatched _
  | disconnect reason =>
      cases hstep
      exact hawake.disconnect h reason
  | answer =>
      simp only [NodeRequestSource.step, Option.ite_none_left_eq_some, Option.some_inj] at hstep
      obtain ⟨-, rfl⟩ := hstep
      exact (answer_same s).awake hawake
  | earlyClosed =>
      have hclosed : SourceBooks cap first { s with early := .closed } := { h with }
      rw [NodeRequestSource.step] at hstep
      split at hstep
      · cases hstep
        exact Awake.disconnect (s := { s with early := .closed }) hawake hclosed _
      · cases hstep

/-! ### A read that has settled -/

theorem bytes_destroy (h : SourceBooks cap first s) (hidle : s.pendingRead = false) :
    s.destroy.bytes = s.bytes := by
  rw [destroy, h.onAborted, hidle]
  split <;> rfl

theorem bytes_disconnect (h : SourceBooks cap first s) (hidle : s.pendingRead = false)
    (reason : Reason Err) : (s.disconnect reason).bytes = s.bytes := by
  have htold : (s.setDisconnected reason).failPending reason.failure =
      s.setDisconnected reason := by
    rw [failPending, show (s.setDisconnected reason).pendingRead = false from hidle,
      if_neg Bool.false_ne_true]
  rw [disconnect]
  split
  · rfl
  · rw [htold, destroyWeb]
    split
    · exact bytes_destroy ((h.setDisconnected reason).signal reason) hidle
    · rfl

/-- No step changes what a settled read has settled to. -/
theorem bytes_step (h : SourceBooks cap first s) {read : OwnedRead Err}
    (hread : s.bytes = some (.incoming read)) (hsettled : read.settled.isSome = true)
    {event : SourceEvent Err} (hstep : s.step event = some t) : t.bytes = s.bytes := by
  -- The read is settled, so no read is pending and its listeners are off.
  have hidle : s.pendingRead = false := by
    rw [← Bool.not_eq_true, h.pending]
    rintro ⟨other, hother, hnone⟩
    rw [hread, Option.some_inj, BytesPromise.incoming.injEq] at hother
    rw [hother, hnone] at hsettled
    cases hsettled
  cases event with
  | push chunk =>
      simp only [NodeRequestSource.step, Option.ite_none_left_eq_some, Option.some_inj] at hstep
      obtain ⟨-, rfl⟩ := hstep
      rfl
  | complete =>
      simp only [NodeRequestSource.step, Option.ite_none_left_eq_some, Option.some_inj] at hstep
      obtain ⟨-, rfl⟩ := hstep
      rfl
  | emit =>
      simp only [NodeRequestSource.step, Option.ite_none_left_eq_some] at hstep
      obtain ⟨-, hstep⟩ := hstep
      split at hstep
      · cases hstep
        rw [emitData]
        dsimp only
        rw [h.onData, hidle, if_neg Bool.false_ne_true]
        split <;> rfl
      · rw [Option.ite_none_right_eq_some, Option.some_inj] at hstep
        obtain ⟨-, rfl⟩ := hstep
        rw [emitEnd, h.onEnd, hidle]
        rfl
  | teardown =>
      cases hstep
      exact bytes_destroy h hidle
  | error error =>
      cases hstep
      rw [emitError, h.onError, hidle]
      rfl
  | bytes limit =>
      cases hstep
      rw [readBytes]
      dsimp only
      -- The promise is kept: a second call gets the first one's.
      rw [if_pos (by rw [hread]; rfl)]
  | request =>
      cases hstep
      exact bytes_getRequest s
  | useWeb web =>
      rw [NodeRequestSource.step] at hstep
      split at hstep
      · cases hstep
        rfl
      · cases hstep
  | clientAbort out =>
      cases hstep
      have hmade : SourceBooks cap first { s with abort := some s.disconnected } := { h with }
      rw [clientAbort]
      split
      · rfl
      · dsimp only
        split
        · rfl
        · cases out with
          | ended => rfl
          | gone => exact bytes_disconnect hmade hidle _
          | live => rfl
  | closed ended =>
      simp only [NodeRequestSource.step, Option.ite_none_right_eq_some, Option.some_inj] at hstep
      obtain ⟨-, rfl⟩ := hstep
      have hunwatched : SourceBooks cap first { s with watching := false } := { h with }
      split
      · rfl
      · exact bytes_disconnect hunwatched hidle _
  | disconnect reason =>
      cases hstep
      exact bytes_disconnect h hidle reason
  | answer =>
      simp only [NodeRequestSource.step, Option.ite_none_left_eq_some, Option.some_inj] at hstep
      obtain ⟨-, rfl⟩ := hstep
      exact (answer_same s).bytes
  | earlyClosed =>
      have hclosed : SourceBooks cap first { s with early := .closed } := { h with }
      rw [NodeRequestSource.step] at hstep
      split at hstep
      · cases hstep
        exact bytes_disconnect hclosed hidle _
      · cases hstep

/-! ### The channel of the client -/

structure Quiet (s t : NodeRequestSource Err) : Prop where
  disconnected : t.disconnected = s.disconnected
  abort : t.abort = s.abort
  early : t.early = s.early

theorem Quiet.rfl : Quiet s s := ⟨Eq.refl _, Eq.refl _, Eq.refl _⟩

theorem Quiet.trans {u : NodeRequestSource Err} (h : Quiet s t) (h' : Quiet t u) : Quiet s u :=
  ⟨h'.disconnected.trans h.disconnected, h'.abort.trans h.abort, h'.early.trans h.early⟩

theorem quiet_fail (s : NodeRequestSource Err) (failure : ReadFailure Err) :
    Quiet s (s.fail failure) := by
  rw [fail]
  split
  · split
    · exact .rfl
    · exact ⟨rfl, rfl, rfl⟩
  · exact .rfl

theorem quiet_onData (s : NodeRequestSource Err) (chunk : List UInt8) :
    Quiet s (s.onData chunk) := by
  rw [onData]
  split
  · next read _ =>
    dsimp only
    split
    · have hset : Quiet s (s.setRead { read with total := read.total + chunk.length }) :=
        ⟨rfl, rfl, rfl⟩
      exact { hset.trans (quiet_fail _ (.body (.tooLarge read.limit none))) with }
    · exact ⟨rfl, rfl, rfl⟩
  · exact .rfl

theorem quiet_emitData (s : NodeRequestSource Err) (chunk : List UInt8)
    (rest : List (List UInt8)) : Quiet s (s.emitData chunk rest) := by
  rw [emitData]
  dsimp only
  split
  · exact { quiet_onData { s with
      incoming := { s.incoming with buffered := rest }, heard := s.heard ++ [chunk] } chunk with }
  · split <;> exact ⟨rfl, rfl, rfl⟩

theorem quiet_emitEnd (s : NodeRequestSource Err) : Quiet s s.emitEnd := by
  rw [emitEnd]
  dsimp only
  split
  · rw [onEnd]
    split
    · split <;> exact ⟨rfl, rfl, rfl⟩
    · exact ⟨rfl, rfl, rfl⟩
  · exact ⟨rfl, rfl, rfl⟩

theorem quiet_emitError (s : NodeRequestSource Err) (error : Err) :
    Quiet s (s.emitError error) := by
  rw [emitError]
  dsimp only
  split
  · exact { quiet_fail { s with incoming := { s.incoming with onError := false } } _ with }
  · exact ⟨rfl, rfl, rfl⟩

theorem quiet_destroy (s : NodeRequestSource Err) : Quiet s s.destroy := by
  rw [destroy]
  split
  · exact .rfl
  · dsimp only
    split
    · exact { quiet_fail { s with incoming :=
        { s.incoming with destroyed := true, onAborted := false } } _ with }
    · exact ⟨rfl, rfl, rfl⟩

theorem quiet_getRequest (s : NodeRequestSource Err) : Quiet s s.getRequest := by
  rw [getRequest, getBody]
  split
  · exact .rfl
  · split
    · exact ⟨rfl, rfl, rfl⟩
    · split
      · exact ⟨rfl, rfl, rfl⟩
      · split <;> exact ⟨rfl, rfl, rfl⟩

theorem quiet_readBytes (s : NodeRequestSource Err) (limit : Number) :
    Quiet s (s.readBytes limit) := by
  rw [readBytes]
  dsimp only
  split
  · exact .rfl
  · split
    · have hrequest := quiet_getRequest { s with bodyOwned := true }
      split <;> exact { hrequest with }
    · split <;> exact ⟨rfl, rfl, rfl⟩

/-- The signal says what was said of the client first. -/
structure Told (s : NodeRequestSource Err) : Prop where
  abort : ∀ signal, s.abort = some signal → signal = s.disconnected
  early : s.early = .closed → s.disconnected ≠ none

theorem Quiet.told (h : Quiet s t) (htold : Told s) : Told t where
  abort := fun signal hsignal => by
    rw [h.disconnected]
    exact htold.abort signal (h.abort ▸ hsignal)
  early := fun hclosed => by
    rw [h.disconnected]
    exact htold.early (h.early ▸ hclosed)

/-- Where nothing was said before, the reason is what `disconnect` leaves behind. -/
theorem disconnect_first_reason (hnone : s.disconnected = none) (reason : Reason Err) :
    (s.disconnect reason).disconnected = some reason ∧
      (s.disconnect reason).abort = s.abort.map (fun _ => some reason) ∧
      (s.disconnect reason).early = s.early := by
  have hfailed : Quiet (s.setDisconnected reason)
      ((s.setDisconnected reason).failPending reason.failure) := by
    rw [failPending]
    split
    · exact quiet_fail _ _
    · exact .rfl
  have hdestroyed : Quiet
      (((s.setDisconnected reason).failPending reason.failure).signal reason)
      (s.disconnect reason) := by
    rw [disconnect, if_neg (by rw [hnone]; exact Bool.false_ne_true), destroyWeb]
    split
    · exact quiet_destroy _
    · exact .rfl
  refine ⟨hdestroyed.disconnected.trans hfailed.disconnected, ?_,
    hdestroyed.early.trans hfailed.early⟩
  rw [hdestroyed.abort]
  show Option.map _ _ = _
  rw [hfailed.abort]
  rfl

/-- The early answer of a source is told by the step that reports it. -/
theorem told_disconnect (habort : ∀ signal, s.abort = some signal → signal = s.disconnected)
    (reason : Reason Err) : Told (s.disconnect reason) := by
  cases hgone : s.disconnected with
  | some first =>
      rw [disconnect_again hgone]
      exact ⟨habort, fun _ => by rw [hgone]; exact Option.some_ne_none _⟩
  | none =>
      obtain ⟨hreason, htold, -⟩ := disconnect_first_reason hgone reason
      refine ⟨fun signal hsignal => ?_, fun _ => by rw [hreason]; exact Option.some_ne_none _⟩
      rw [htold, Option.map_eq_some_iff] at hsignal
      obtain ⟨-, -, rfl⟩ := hsignal
      exact hreason.symm

/-- What is known of the client is left as it is, or reported once. -/
structure Tells (s t : NodeRequestSource Err) : Prop where
  told : Told t
  report : t.disconnected = s.disconnected ∨
    ∃ u : NodeRequestSource Err, ∃ reason, t = u.disconnect reason ∧
      u.disconnected = s.disconnected ∧
        ∀ cap first, SourceBooks cap first s → SourceBooks cap first u

theorem Quiet.tells (h : Quiet s t) (htold : Told s) : Tells s t :=
  ⟨h.told htold, .inl h.disconnected⟩

theorem tells_disconnect {u : NodeRequestSource Err}
    (hbooks : ∀ cap first, SourceBooks cap first s → SourceBooks cap first u)
    (habort : ∀ signal, u.abort = some signal → signal = u.disconnected)
    (hsame : u.disconnected = s.disconnected) (reason : Reason Err) :
    Tells s (u.disconnect reason) :=
  ⟨told_disconnect habort reason, .inr ⟨u, reason, rfl, hsame, hbooks⟩⟩

theorem Told.clientAbort (h : Told s) (out : OutState) : Tells s (s.clientAbort out) := by
  have hmade : ∀ signal, some s.disconnected = some signal → signal = s.disconnected :=
    fun signal hsignal => (Option.some_inj.mp hsignal).symm
  have hbooks : ∀ cap first, SourceBooks cap first s →
      SourceBooks cap first { s with abort := some s.disconnected } :=
    fun _ _ hbooks => { hbooks with }
  rw [NodeRequestSource.clientAbort]
  split
  · exact ⟨h, .inl rfl⟩
  · dsimp only
    split
    · exact ⟨⟨hmade, h.early⟩, .inl rfl⟩
    · cases out with
      | ended => exact ⟨⟨hmade, h.early⟩, .inl rfl⟩
      | gone => exact tells_disconnect hbooks hmade rfl .clientDisconnected
      | live => exact ⟨⟨hmade, h.early⟩, .inl rfl⟩

theorem Told.answer (h : Told s) : Tells s s.answer := by
  have hearly : s.answer.early = .closed → s.early = .closed := by
    rw [NodeRequestSource.answer]
    dsimp only
    split
    · rintro ⟨⟩
    · rw [cleanupUnread]
      split
      · split <;> exact id
      · exact id
  have hsame := answer_same s
  refine ⟨⟨fun signal hsignal => ?_, fun hclosed => ?_⟩, .inl hsame.disconnected⟩
  · rw [hsame.disconnected]
    exact h.abort signal (hsame.abort ▸ hsignal)
  · rw [hsame.disconnected]
    exact h.early (hearly hclosed)

theorem Told.step (h : Told s) {event : SourceEvent Err} (hstep : s.step event = some t) :
    Tells s t := by
  cases event with
  | push chunk =>
      simp only [NodeRequestSource.step, Option.ite_none_left_eq_some, Option.some_inj] at hstep
      obtain ⟨-, rfl⟩ := hstep
      exact Quiet.tells ⟨rfl, rfl, rfl⟩ h
  | complete =>
      simp only [NodeRequestSource.step, Option.ite_none_left_eq_some, Option.some_inj] at hstep
      obtain ⟨-, rfl⟩ := hstep
      exact Quiet.tells ⟨rfl, rfl, rfl⟩ h
  | emit =>
      simp only [NodeRequestSource.step, Option.ite_none_left_eq_some] at hstep
      obtain ⟨-, hstep⟩ := hstep
      split at hstep
      · cases hstep
        exact (quiet_emitData s _ _).tells h
      · rw [Option.ite_none_right_eq_some, Option.some_inj] at hstep
        obtain ⟨-, rfl⟩ := hstep
        exact (quiet_emitEnd s).tells h
  | teardown =>
      cases hstep
      exact (quiet_destroy s).tells h
  | error error =>
      cases hstep
      exact (quiet_emitError s error).tells h
  | bytes limit =>
      cases hstep
      exact (quiet_readBytes s limit).tells h
  | request =>
      cases hstep
      exact (quiet_getRequest s).tells h
  | useWeb web =>
      rw [NodeRequestSource.step] at hstep
      split at hstep
      · cases hstep
        exact Quiet.tells ⟨rfl, rfl, rfl⟩ h
      · cases hstep
  | clientAbort out =>
      cases hstep
      exact h.clientAbort out
  | closed ended =>
      simp only [NodeRequestSource.step, Option.ite_none_right_eq_some, Option.some_inj] at hstep
      obtain ⟨-, rfl⟩ := hstep
      split
      · exact Quiet.tells ⟨rfl, rfl, rfl⟩ h
      · have hbooks : ∀ cap first, SourceBooks cap first s →
            SourceBooks cap first { s with watching := false } :=
          fun _ _ hbooks => { hbooks with }
        exact tells_disconnect hbooks h.abort rfl .clientDisconnected
  | disconnect reason =>
      cases hstep
      exact tells_disconnect (fun _ _ hbooks => hbooks) h.abort rfl reason
  | answer =>
      simp only [NodeRequestSource.step, Option.ite_none_left_eq_some, Option.some_inj] at hstep
      obtain ⟨-, rfl⟩ := hstep
      exact h.answer
  | earlyClosed =>
      rw [NodeRequestSource.step] at hstep
      split at hstep
      · cases hstep
        have hbooks : ∀ cap first, SourceBooks cap first s →
            SourceBooks cap first { s with early := .closed } :=
          fun _ _ hbooks => { hbooks with }
        exact tells_disconnect hbooks h.abort rfl .earlyAnswer
      · cases hstep

theorem body_fail (s : NodeRequestSource Err) (failure : ReadFailure Err) :
    (s.fail failure).body = s.body ∧
      (s.fail failure).incoming.destroyed = s.incoming.destroyed := by
  rw [fail]
  split
  · split <;> exact ⟨rfl, rfl⟩
  · exact ⟨rfl, rfl⟩

theorem body_destroy (s : NodeRequestSource Err) :
    s.destroy.body = s.body ∧ s.destroy.incoming.destroyed = true := by
  rw [destroy]
  split
  · next hgone => exact ⟨rfl, hgone⟩
  · dsimp only
    split
    · obtain ⟨hbody, hdestroyed⟩ := body_fail { s with incoming :=
        { s.incoming with destroyed := true, onAborted := false } } .aborted
      exact ⟨hbody, hdestroyed⟩
    · exact ⟨rfl, rfl⟩

/-- The web stream is not left waiting for a client that is gone. -/
theorem body_disconnect (hnone : s.disconnected = none) (reason : Reason Err)
    (hbody : (s.disconnect reason).body.join.isSome = true) :
    (s.disconnect reason).incoming.readableEnded = true ∨
      (s.disconnect reason).incoming.destroyed = true := by
  rw [disconnect, if_neg (by rw [hnone]; exact Bool.false_ne_true), destroyWeb] at hbody ⊢
  split at hbody
  · next hopen =>
    rw [if_pos hopen]
    exact .inr (body_destroy _).2
  · next hshut =>
    rw [if_neg hshut]
    rw [hbody, Bool.true_and, Bool.not_eq_true, Bool.not_eq_false'] at hshut
    exact .inl hshut

theorem awake_of_reachable {method : JsString} {contentLength transferEncoding : Option JsString}
    {response : Bool}
    (h : (nodeRequestSource Err method contentLength transferEncoding cap response).Reachable s) :
    Awake s := by
  induction h with
  | start => rintro read ⟨⟨⟩, -⟩
  | step hreach _ hstep ih =>
      obtain ⟨first, hbooks⟩ := sourceBooks_of_reachable hreach
      exact ih.step hbooks hstep

theorem told_of_reachable {method : JsString} {contentLength transferEncoding : Option JsString}
    {response : Bool}
    (h : (nodeRequestSource Err method contentLength transferEncoding cap response).Reachable s) :
    Told s := by
  refine Lts.Reachable.invariant ⟨?_, ?_⟩ (fun _ _ _ htold hstep => (htold.step hstep).told) h
  · rintro signal ⟨⟩
  · rintro ⟨⟩

end NodeRequestSource

/-! ### The end of a read -/

section

variable {Err : Type} {method : JsString} {contentLength transferEncoding : Option JsString}
  {cap : Number} {response : Bool} {s : NodeRequestSource Err}

theorem readChunks_fits {limit : Number} {xs : List (List UInt8)} {out all : List UInt8}
    (h : readChunks limit xs out = .ok all) (hne : xs ≠ []) :
    limit.lt (.ofNat all.length) = false := by
  induction xs generalizing out with
  | nil => exact absurd rfl hne
  | cons chunk xs ih =>
      rw [readChunks] at h
      split at h
      · cases h
      · next hfits =>
        cases xs with
        | nil =>
            rw [readChunks, Except.ok.injEq] at h
            rw [← h]
            exact (Bool.not_eq_true _).mp hfits
        | cons next xs => exact ih h (List.cons_ne_nil _ _)

/-- The read listens exactly while it is under way; what it keeps is within its
limit; it does not outlive the end of the message, its destruction or the report
that the client is gone, unless it was begun after; it settles once; and no web
stream wraps a message that is read. -/
theorem owned_read_settles
    (h : (nodeRequestSource Err method contentLength transferEncoding cap response).Reachable s) :
    (∀ listens ∈ [s.incoming.onData, s.incoming.onEnd, s.incoming.onAborted, s.incoming.onError],
      listens = true ↔ ∃ read, s.Reading read) ∧
      (∀ read, s.Reading read →
        (read.chunks ≠ [] → read.limit.lt (.ofNat read.chunks.flatten.length) = false) ∧
        (read.late = false → s.incoming.readableEnded = false ∧ s.incoming.destroyed = false ∧
          s.disconnected = none)) ∧
      ∀ read, s.bytes = some (.incoming read) → s.body = none ∧
        ∀ event t, s.step event = some t → read.settled ≠ none → t.bytes = s.bytes := by
  obtain ⟨first, hbooks⟩ := NodeRequestSource.sourceBooks_of_reachable h
  have hawake := NodeRequestSource.awake_of_reachable h
  refine ⟨fun listens hlistens => ?_, fun read hreading => ⟨fun hne => ?_, hawake read hreading⟩,
    fun read hread => ⟨(hbooks.alone read hread).1, fun event t hstep hsettled => ?_⟩⟩
  · simp only [List.mem_cons, List.not_mem_nil, or_false, hbooks.onData, hbooks.onEnd,
      hbooks.onAborted, hbooks.onError, or_self] at hlistens
    rw [hlistens]
    exact hbooks.pending
  · obtain ⟨hchunks, -, -, hcounted⟩ := hbooks.reading read hreading
    rw [hchunks] at hne ⊢
    exact readChunks_fits hcounted hne
  · exact NodeRequestSource.bytes_step hbooks hread (Option.isSome_iff_ne_none.mpr hsettled) hstep

/-- The signal of the client and the source agree, the first reason stays, an
early answer that has closed has given one, and the step that gives it leaves
neither a read under way nor a web stream over a message that still arrives. -/
theorem disconnect_first
    (h : (nodeRequestSource Err method contentLength transferEncoding cap response).Reachable s) :
    (∀ signal, s.abort = some signal → signal = s.disconnected) ∧
      (s.early = .closed → s.disconnected ≠ none) ∧
      ∀ event t, s.step event = some t →
        (∀ reason, s.disconnected = some reason → t.disconnected = some reason) ∧
        (s.disconnected = none → t.disconnected ≠ none → (∀ read, ¬ t.Reading read) ∧
          (t.body.join.isSome = true →
            t.incoming.readableEnded = true ∨ t.incoming.destroyed = true)) := by
  have htold := NodeRequestSource.told_of_reachable h
  obtain ⟨first, hbooks⟩ := NodeRequestSource.sourceBooks_of_reachable h
  refine ⟨htold.abort, htold.early, fun event t hstep => ?_⟩
  have hafter := hbooks.step hstep
  rcases (htold.step hstep).report with hsame | ⟨u, reason, rfl, hsame, hbefore⟩
  · rw [hsame]
    exact ⟨fun _ hsome => hsome, fun hnone hsome => absurd hnone hsome⟩
  · refine ⟨fun reported hreported => ?_, fun hnone _ => ⟨fun read hreading => ?_, ?_⟩⟩
    · rw [NodeRequestSource.disconnect_again (hsame.trans hreported)]
      exact hsame.trans hreported
    · have hidle := NodeRequestSource.pendingRead_disconnect (hbefore cap first hbooks)
        (hsame.trans hnone) reason
      rw [hafter.pending.mpr ⟨read, hreading⟩] at hidle
      cases hidle
    · exact NodeRequestSource.body_disconnect (hsame.trans hnone) reason

end

/-- The client goes away while a read is under way. -/
theorem owned_read_settles_gone : ∃ s : NodeRequestSource Unit,
    (nodeRequestSource Unit (js "POST") (some (js "3")) none .infinity true).runFrom
      (nodeRequestSource Unit (js "POST") (some (js "3")) none .infinity true).start
      [.bytes (.finite 10), .push [1, 2], .emit, .disconnect .clientDisconnected] = some s ∧
    s.incoming.onData = false ∧ ∀ read, ¬ s.Reading read := by
  refine ⟨_, rfl, rfl, fun read hreading => ?_⟩
  have hlistens := (owned_read_settles (Lts.reachable_of_run
    (L := nodeRequestSource Unit (js "POST") (some (js "3")) none .infinity true)
    [.bytes (.finite 10), .push [1, 2], .emit, .disconnect .clientDisconnected] rfl)).1 false
      (List.mem_cons_self)
  exact Bool.false_ne_true (hlistens.mpr ⟨read, hreading⟩)

/-- An early answer closes before the client is found gone. -/
theorem disconnect_first_early : ∃ s : NodeRequestSource Unit,
    (nodeRequestSource Unit (js "POST") (some (js "3")) none .infinity true).runFrom
      (nodeRequestSource Unit (js "POST") (some (js "3")) none .infinity true).start
      [.clientAbort .live, .bytes (.finite 10), .answer, .earlyClosed, .closed false] = some s ∧
    s.abort = some (some .earlyAnswer) ∧ s.disconnected = some .earlyAnswer := by
  refine ⟨_, rfl, rfl, ?_⟩
  exact ((disconnect_first (Lts.reachable_of_run
    (L := nodeRequestSource Unit (js "POST") (some (js "3")) none .infinity true)
    [.clientAbort .live, .bytes (.finite 10), .answer, .earlyClosed, .closed false] rfl)).1 _
      rfl).symm

end Keala.Adapters
