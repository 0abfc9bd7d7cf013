import Keala.Adapters.NodeSource

/-!
What the read of a message body settles to: what the plain reader makes of the
whole body, or a failure of the transport.
-/

namespace Keala.Adapters

open Js Plugins

/-! ### The chunks -/

theorem readChunks_append (limit : Number) (xs ys : List (List UInt8)) (out : List UInt8) :
    readChunks limit (xs ++ ys) out = (readChunks limit xs out).bind (readChunks limit ys) := by
  induction xs generalizing out with
  | nil => rfl
  | cons chunk xs ih =>
      rw [List.cons_append, readChunks, readChunks]
      split
      · rfl
      · exact ih (out ++ chunk)

theorem bufferConcat_total (list : List (List UInt8)) :
    bufferConcat list list.flatten.length = list.flatten := by
  simp [bufferConcat]

/-! ### The books of a source -/

namespace NodeRequestSource

variable {Err : Type} {s t : NodeRequestSource Err} {cap : Number} {first : Option Number}

def Reading (s : NodeRequestSource Err) (read : OwnedRead Err) : Prop :=
  s.bytes = some (.incoming read) ∧ read.settled = none

/-- Every delivered chunk is accounted for, and the read has counted what it was given;
`first` is the limit of the first `bytes()` call, where there has been one. -/
structure SourceBooks (cap : Number) (first : Option Number) (s : NodeRequestSource Err) :
    Prop where
  cap : s.bodyCap = cap
  asked : first.isSome = s.bytes.isSome
  onData : s.incoming.onData = s.pendingRead
  onEnd : s.incoming.onEnd = s.pendingRead
  onAborted : s.incoming.onAborted = s.pendingRead
  onError : s.incoming.onError = s.pendingRead
  pending : s.pendingRead = true ↔ ∃ read, s.Reading read
  ended : s.incoming.readableEnded = true →
    s.incoming.complete = true ∧ s.incoming.buffered = []
  drained : s.drained = false → s.lost = []
  flowing : s.bytes = none → s.body = none → s.incoming.flowing = true → s.drained = true
  unread : s.bytes = none →
    s.heard = [] ∧ (s.body = none → s.incoming.pushed = s.lost ++ s.incoming.buffered)
  alone : ∀ read, s.bytes = some (.incoming read) → s.body = none ∧ mayCarryBody s.method = true
  limit : ∀ read, s.bytes = some (.incoming read) →
    ∃ asked, first = some asked ∧ read.limit = asked.min s.bodyCap
  reading : ∀ read, s.Reading read →
    read.chunks = s.heard ∧ read.total = s.heard.flatten.length ∧
      s.incoming.pushed = s.lost ++ s.heard ++ s.incoming.buffered ∧
      readChunks read.limit s.heard [] = .ok s.heard.flatten
  whole : ∀ read out, s.bytes = some (.incoming read) → read.settled = some (.ok out) →
    s.incoming.complete = true ∧ s.incoming.pushed = s.lost ++ s.heard ∧
      readChunks read.limit s.heard [] = .ok out
  large : ∀ read error, s.bytes = some (.incoming read) →
    read.settled = some (.error (.body error)) →
    s.lost ++ s.heard <+: s.incoming.pushed ∧ readChunks read.limit s.heard [] = .error error

theorem fail_reading (read : OwnedRead Err) (h : s.Reading read) (failure : ReadFailure Err) :
    s.fail failure = s.cleanup.setRead { read with settled := some (.error failure) } := by
  rw [fail, h.1]
  dsimp only
  rw [h.2, Option.isSome_none, if_neg Bool.false_ne_true]

/-- The read has settled: its listeners are gone. -/
theorem settle_books {read : OwnedRead Err} {result : Except (ReadFailure Err) (List UInt8)}
    (hcap : s.bodyCap = cap)
    (hended : s.incoming.readableEnded = true →
      s.incoming.complete = true ∧ s.incoming.buffered = [])
    (hdrained : s.drained = false → s.lost = [])
    (halone : s.body = none ∧ mayCarryBody s.method = true)
    (hlimit : ∃ asked, first = some asked ∧ read.limit = asked.min s.bodyCap)
    (hwhole : ∀ out, result = .ok out →
      s.incoming.complete = true ∧ s.incoming.pushed = s.lost ++ s.heard ∧
        readChunks read.limit s.heard [] = .ok out)
    (hlarge : ∀ error, result = .error (.body error) →
      s.lost ++ s.heard <+: s.incoming.pushed ∧ readChunks read.limit s.heard [] = .error error) :
    SourceBooks cap first (s.cleanup.setRead { read with settled := some result }) := by
  have hread : ∀ other : OwnedRead Err,
      (s.cleanup.setRead { read with settled := some result }).bytes = some (.incoming other) →
        other = { read with settled := some result } := by
    intro other hother
    simp only [setRead, Option.some_inj, BytesPromise.incoming.injEq] at hother
    exact hother.symm
  have hnot : ∀ other,
      ¬ (s.cleanup.setRead { read with settled := some result }).Reading other := by
    rintro other ⟨hother, hnone⟩
    rw [hread other hother] at hnone
    cases hnone
  refine
    { cap := hcap
      asked := by
        obtain ⟨asked, hasked, -⟩ := hlimit
        rw [hasked]
        rfl
      onData := rfl
      onEnd := rfl
      onAborted := rfl
      onError := rfl
      pending := ⟨fun h => (by cases h), fun ⟨other, h⟩ => absurd h (hnot other)⟩
      ended := hended
      drained := hdrained
      flowing := fun h => (by cases h)
      unread := fun h => (by cases h)
      alone := fun _ _ => halone
      limit := fun other hother => ?_
      reading := fun other h => absurd h (hnot other)
      whole := fun other out hother hok => ?_
      large := fun other error hother herror => ?_ }
  · rw [hread other hother]
    exact hlimit
  · rw [hread other hother] at hok ⊢
    exact hwhole out (Option.some_inj.mp hok)
  · rw [hread other hother] at herror ⊢
    exact hlarge error (Option.some_inj.mp herror)

theorem SourceBooks.resume (h : SourceBooks cap first s) (hread : s.bytes.isSome = true) :
    SourceBooks cap first s.resume :=
  { h with flowing := fun hnone => (by rw [show s.bytes = none from hnone] at hread; cases hread) }

/-- A failure that is not the reader's own settles the read, and nothing else. -/
theorem SourceBooks.fail (h : SourceBooks cap first s) {failure : ReadFailure Err}
    (hfailure : ∀ error, failure ≠ .body error) : SourceBooks cap first (s.fail failure) := by
  rcases hbytes : s.bytes with _ | _ | _ | read
  case some.incoming =>
    cases hsettled : read.settled with
    | some result =>
        rw [NodeRequestSource.fail, hbytes]
        dsimp only
        rwa [hsettled, Option.isSome_some, if_pos rfl]
    | none =>
        rw [fail_reading read ⟨hbytes, hsettled⟩]
        refine settle_books h.cap h.ended h.drained (h.alone read hbytes)
          (h.limit read hbytes) ?_ ?_
        · rintro out ⟨⟩
        · rintro error herror
          exact absurd (Except.error.inj herror) (hfailure error)
  all_goals
    rw [NodeRequestSource.fail, hbytes]
    exact h

/-! ### The events of the message -/

theorem SourceBooks.push (h : SourceBooks cap first s) (hopen : s.incoming.complete = false)
    (chunk : List UInt8) :
    SourceBooks cap first { s with incoming :=
      { s.incoming with
        pushed := s.incoming.pushed ++ [chunk], buffered := s.incoming.buffered ++ [chunk] } } :=
  { h with
    ended := fun hended => absurd (h.ended hended).1 (by rw [hopen]; exact Bool.false_ne_true)
    unread := fun hnone => ⟨(h.unread hnone).1, fun hbody => by
      dsimp only
      rw [(h.unread hnone).2 hbody, List.append_assoc]⟩
    reading := fun read hreading => by
      obtain ⟨hchunks, htotal, hpushed, hread⟩ := h.reading read hreading
      refine ⟨hchunks, htotal, ?_, hread⟩
      dsimp only
      rw [hpushed, List.append_assoc]
    whole := fun read out hread hok =>
      absurd (h.whole read out hread hok).1 (by rw [hopen]; exact Bool.false_ne_true)
    large := fun read error hread herror =>
      ⟨(h.large read error hread herror).1.trans (List.prefix_append _ _),
        (h.large read error hread herror).2⟩ }

theorem SourceBooks.complete (h : SourceBooks cap first s) :
    SourceBooks cap first { s with incoming := { s.incoming with complete := true } } :=
  { h with
    ended := fun hended => ⟨rfl, (h.ended hended).2⟩
    whole := fun read out hread hok => ⟨rfl, (h.whole read out hread hok).2⟩ }

/-- A chunk that the read takes: it is counted, and the read goes on or is refused. -/
theorem SourceBooks.heard (h : SourceBooks cap first s) {read : OwnedRead Err}
    (hreading : s.Reading read) {chunk : List UInt8} {rest : List (List UInt8)}
    (hbuffered : s.incoming.buffered = chunk :: rest) (hopen : s.incoming.readableEnded = false) :
    SourceBooks cap first ({ s with
      incoming := { s.incoming with buffered := rest }
      heard := s.heard ++ [chunk] }.onData chunk) := by
  obtain ⟨hchunks, htotal, hpushed, hread⟩ := h.reading read hreading
  have hended : s.incoming.readableEnded = true →
      s.incoming.complete = true ∧ rest = [] := fun hended => by
    rw [hopen] at hended
    cases hended
  have hnext : readChunks read.limit (s.heard ++ [chunk]) [] =
      readChunks read.limit [chunk] s.heard.flatten := by
    rw [readChunks_append, hread]
    rfl
  have hlength : read.total + chunk.length = (s.heard.flatten ++ chunk).length := by
    rw [htotal, List.length_append]
  have hplace : s.incoming.pushed = s.lost ++ (s.heard ++ [chunk]) ++ rest := by
    rw [hpushed, hbuffered, List.append_assoc, List.append_assoc, List.append_assoc]
    rfl
  rw [NodeRequestSource.onData, hreading.1]
  dsimp only
  split
  · next hlarge =>
    -- Over the limit the read fails here, and the message is drained.
    rw [fail_reading { read with total := read.total + chunk.length } ⟨rfl, hreading.2⟩]
    refine SourceBooks.resume (settle_books h.cap hended h.drained (h.alone read hreading.1)
      (h.limit read hreading.1) ?_ ?_) rfl
    · rintro out ⟨⟩
    · rintro error herror
      have herr : error = .tooLarge read.limit none :=
        (ReadFailure.body.inj (Except.error.inj herror)).symm
      refine ⟨⟨rest, hplace.symm⟩, ?_⟩
      show readChunks read.limit (s.heard ++ [chunk]) [] = _
      rw [hnext, readChunks, ← hlength, if_pos hlarge, herr]
  · next hfits =>
    -- The chunk is kept and the read goes on.
    have hsame : ∀ other : OwnedRead Err,
        some (BytesPromise.incoming { read with
          total := read.total + chunk.length, chunks := read.chunks ++ [chunk] }) =
          some (.incoming other) →
        other = { read with
          total := read.total + chunk.length, chunks := read.chunks ++ [chunk] } := by
      intro other hother
      rw [Option.some_inj, BytesPromise.incoming.injEq] at hother
      exact hother.symm
    exact
      { h with
        asked := by
          rw [h.asked, hreading.1]
          rfl
        pending := iff_of_true (h.pending.mpr ⟨read, hreading⟩) ⟨_, rfl, hreading.2⟩
        ended := hended
        flowing := fun hnone => (by cases hnone)
        unread := fun hnone => (by cases hnone)
        alone := fun _ _ => h.alone read hreading.1
        limit := fun other hother => by
          rw [hsame other hother]
          exact h.limit read hreading.1
        reading := fun other hother => by
          rw [hsame other hother.1]
          refine ⟨congrArg (· ++ [chunk]) hchunks, ?_, hplace, ?_⟩
          · show read.total + chunk.length = (s.heard ++ [chunk]).flatten.length
            rw [hlength, List.flatten_append, List.flatten_singleton]
          · show readChunks read.limit (s.heard ++ [chunk]) [] = .ok (s.heard ++ [chunk]).flatten
            rw [hnext, readChunks, ← hlength, if_neg hfits, List.flatten_append,
              List.flatten_singleton]
            rfl
        whole := fun other out hother hok => by
          rw [hsame other hother] at hok
          cases hreading.2.symm.trans hok
        large := fun other error hother herror => by
          rw [hsame other hother] at herror
          cases hreading.2.symm.trans herror }

theorem SourceBooks.emitData (h : SourceBooks cap first s) {chunk : List UInt8}
    {rest : List (List UInt8)} (hbuffered : s.incoming.buffered = chunk :: rest)
    (hflowing : s.incoming.flowing = true) (hopen : s.incoming.readableEnded = false) :
    SourceBooks cap first (s.emitData chunk rest) := by
  have hended : s.incoming.readableEnded = true →
      s.incoming.complete = true ∧ rest = [] := fun hended => by
    rw [hopen] at hended
    cases hended
  rw [NodeRequestSource.emitData]
  dsimp only
  split
  · next hlistens =>
    obtain ⟨read, hreading⟩ := h.pending.mp (h.onData ▸ hlistens)
    exact h.heard hreading hbuffered hopen
  · next hdeaf =>
    have hidle : ∀ read, ¬ s.Reading read := fun read hreading =>
      hdeaf (h.onData.trans (h.pending.mpr ⟨read, hreading⟩))
    split
    · next htaken =>
      rw [Bool.or_eq_true, Option.isSome_iff_ne_none, Option.isSome_iff_ne_none] at htaken
      exact
        { h with
          ended := hended
          unread := fun hnone => ⟨(h.unread hnone).1, fun hbody =>
            (htaken.elim (absurd hnone) (absurd hbody))⟩
          reading := fun read hreading => absurd hreading (hidle read) }
    · next hfree =>
      rw [Bool.or_eq_true, not_or, Option.not_isSome_iff_eq_none,
        Option.not_isSome_iff_eq_none] at hfree
      have hnone : ∀ read, s.bytes ≠ some (.incoming read) := fun read hread => by
        rw [hfree.1] at hread
        cases hread
      exact
        { h with
          ended := hended
          drained := fun hdrained => by
            rw [h.flowing hfree.1 hfree.2 hflowing] at hdrained
            cases hdrained
          unread := fun _ => ⟨(h.unread hfree.1).1, fun _ => by
            dsimp only
            rw [(h.unread hfree.1).2 hfree.2, hbuffered, List.append_assoc]
            rfl⟩
          reading := fun read hreading => absurd hreading (hidle read)
          whole := fun read _ hread => absurd hread (hnone read)
          large := fun read _ hread => absurd hread (hnone read) }

theorem concat_eq {read : OwnedRead Err} (htotal : read.total = read.chunks.flatten.length) :
    read.concat = read.chunks.flatten := by
  rw [OwnedRead.concat]
  split
  · next hnil => rw [hnil, List.flatten_nil]
  · next chunk hone => rw [hone, List.flatten_singleton]
  · rw [htotal, bufferConcat_total]

theorem SourceBooks.emitEnd (h : SourceBooks cap first s) (hbuffered : s.incoming.buffered = [])
    (hcomplete : s.incoming.complete = true) : SourceBooks cap first s.emitEnd := by
  rw [NodeRequestSource.emitEnd]
  dsimp only
  split
  · next hlistens =>
    obtain ⟨read, hreading⟩ := h.pending.mp (h.onEnd ▸ hlistens)
    obtain ⟨hchunks, htotal, hpushed, hread⟩ := h.reading read hreading
    rw [NodeRequestSource.onEnd, hreading.1]
    dsimp only
    rw [hreading.2, Option.isSome_none, if_neg Bool.false_ne_true,
      concat_eq (by rw [htotal, hchunks])]
    refine settle_books h.cap (fun _ => ⟨hcomplete, hbuffered⟩) h.drained (h.alone read hreading.1)
      (h.limit read hreading.1) ?_ ?_
    · rintro out hok
      rw [← Except.ok.inj hok, hchunks]
      refine ⟨hcomplete, ?_, hread⟩
      show s.incoming.pushed = s.lost ++ s.heard
      rw [hpushed, hbuffered, List.append_nil]
    · rintro error ⟨⟩
  · next hdeaf =>
    exact
      { h with
        onEnd := ((Bool.not_eq_true _).mp hdeaf).symm.trans h.onEnd
        ended := fun _ => ⟨hcomplete, hbuffered⟩ }

/-- An event that fails the read where it listens. -/
theorem SourceBooks.emitError (h : SourceBooks cap first s) (error : Err) :
    SourceBooks cap first (s.emitError error) := by
  rw [NodeRequestSource.emitError]
  dsimp only
  split
  · next hlistens =>
    obtain ⟨read, hreading⟩ := h.pending.mp (h.onError ▸ hlistens)
    rw [fail_reading read]
    · exact settle_books h.cap h.ended h.drained (h.alone read hreading.1) (h.limit read hreading.1)
        (fun out hok => (by cases hok)) (fun error herror => (by cases herror))
    · exact hreading
  · next hdeaf =>
    exact { h with onError := ((Bool.not_eq_true _).mp hdeaf).symm.trans h.onError }

theorem SourceBooks.destroy (h : SourceBooks cap first s) : SourceBooks cap first s.destroy := by
  rw [NodeRequestSource.destroy]
  split
  · exact h
  · dsimp only
    split
    · next hlistens =>
      rw [Bool.and_eq_true] at hlistens
      obtain ⟨read, hreading⟩ := h.pending.mp (h.onAborted ▸ hlistens.1)
      rw [fail_reading read]
      · exact settle_books h.cap h.ended h.drained (h.alone read hreading.1)
          (h.limit read hreading.1) (fun out hok => (by cases hok))
          (fun error herror => (by cases herror))
      · exact hreading
    · exact { h with }

/-! ### The callers -/

theorem SourceBooks.setDisconnected (h : SourceBooks cap first s) (reason : Reason Err) :
    SourceBooks cap first (s.setDisconnected reason) := { h with }

theorem SourceBooks.signal (h : SourceBooks cap first s) (reason : Reason Err) :
    SourceBooks cap first (s.signal reason) := { h with }

theorem SourceBooks.failPending (h : SourceBooks cap first s) {failure : ReadFailure Err}
    (hfailure : ∀ error, failure ≠ .body error) :
    SourceBooks cap first (s.failPending failure) := by
  rw [NodeRequestSource.failPending]
  split
  · exact h.fail hfailure
  · exact h

theorem SourceBooks.destroyWeb (h : SourceBooks cap first s) :
    SourceBooks cap first s.destroyWeb := by
  rw [NodeRequestSource.destroyWeb]
  split
  · exact h.destroy
  · exact h

theorem failure_ne_body (reason : Reason Err) (error : BodyError) :
    reason.failure ≠ .body error := by
  cases reason <;> rintro ⟨⟩

theorem SourceBooks.disconnect (h : SourceBooks cap first s) (reason : Reason Err) :
    SourceBooks cap first (s.disconnect reason) := by
  rw [NodeRequestSource.disconnect]
  split
  · exact h
  · apply SourceBooks.destroyWeb
    apply SourceBooks.signal
    exact (h.setDisconnected reason).failPending (failure_ne_body reason)

theorem SourceBooks.clientAbort (h : SourceBooks cap first s) (out : OutState) :
    SourceBooks cap first (s.clientAbort out) := by
  have hmade : SourceBooks cap first { s with abort := some s.disconnected } := { h with }
  rw [NodeRequestSource.clientAbort]
  split
  · exact h
  · dsimp only
    split
    · exact hmade
    · cases out with
      | ended => exact hmade
      | gone => exact hmade.disconnect _
      | live => exact { h with }

theorem SourceBooks.answer (h : SourceBooks cap first s) : SourceBooks cap first s.answer := by
  have hclean : SourceBooks cap first s.cleanupUnread := by
    rw [cleanupUnread]
    split
    · exact h
    · exact
        { h with
          drained := fun hdrained => (by cases hdrained)
          flowing := fun _ _ _ => rfl }
  rw [NodeRequestSource.answer]
  split
  · exact { hclean with }
  · exact { h with }

theorem SourceBooks.getBody (h : SourceBooks cap first s)
    (hread : ∀ read, s.bytes ≠ some (.incoming read)) : SourceBooks cap first s.getBody := by
  rw [NodeRequestSource.getBody]
  split
  · exact h
  · split
    · exact
        { h with
          flowing := fun _ hbody => (by cases hbody)
          unread := fun hnone => ⟨(h.unread hnone).1, fun hbody => (by cases hbody)⟩
          alone := fun read hsome => absurd hsome (hread read) }
    · exact
        { h with
          flowing := fun _ hbody => (by cases hbody)
          unread := fun hnone => ⟨(h.unread hnone).1, fun hbody => (by cases hbody)⟩
          alone := fun read hsome => absurd hsome (hread read) }

theorem SourceBooks.getRequest (h : SourceBooks cap first s) :
    SourceBooks cap first s.getRequest := by
  rw [NodeRequestSource.getRequest]
  split
  · exact h
  · split
    · exact { h with }
    · next hown =>
      have hread : ∀ read, s.bytes ≠ some (.incoming read) := fun read hread => by
        rw [hread, (h.alone read hread).2] at hown
        exact hown rfl
      exact { h.getBody hread with }

/-- A promise that reads nothing of the message itself. -/
theorem SourceBooks.promise (h : SourceBooks cap first s) (hnone : s.bytes = none)
    {promise : BytesPromise Err} (hpromise : ∀ read, promise ≠ .incoming read) (limit : Number) :
    SourceBooks cap (some limit) { s with bytes := some promise } := by
  have hread : ∀ read, some promise ≠ some (BytesPromise.incoming read) := fun read hread =>
    hpromise read (Option.some_inj.mp hread)
  have hidle : s.pendingRead ≠ true := fun hpending => by
    obtain ⟨read, hreading⟩ := h.pending.mp hpending
    cases hnone.symm.trans hreading.1
  exact
    { h with
      asked := rfl
      pending := iff_of_false hidle fun ⟨read, hreading⟩ => hread read hreading.1
      flowing := fun hsome => (by cases hsome)
      unread := fun hsome => (by cases hsome)
      alone := fun read hsome => absurd hsome (hread read)
      limit := fun read hsome => absurd hsome (hread read)
      reading := fun read hreading => absurd hreading.1 (hread read)
      whole := fun read _ hsome => absurd hsome (hread read)
      large := fun read _ hsome => absurd hsome (hread read) }

theorem SourceBooks.readIncoming (h : SourceBooks cap first s) (hnone : s.bytes = none)
    (hbody : s.body = none) (hmethod : mayCarryBody s.method = true) (limit : Number) :
    SourceBooks cap (some limit) (s.readIncoming (limit.min s.bodyCap)) := by
  have hsame : ∀ read : OwnedRead Err,
      (s.readIncoming (limit.min s.bodyCap)).bytes = some (.incoming read) →
        read.limit = limit.min s.bodyCap ∧ read.chunks = [] ∧ read.total = 0 ∧
          read.settled = none := by
    intro read hread
    rw [NodeRequestSource.readIncoming, Option.some_inj, BytesPromise.incoming.injEq] at hread
    subst hread
    exact ⟨rfl, rfl, rfl, rfl⟩
  obtain ⟨hheard, hpushed⟩ := h.unread hnone
  exact
    { cap := h.cap
      asked := rfl
      onData := rfl
      onEnd := rfl
      onAborted := rfl
      onError := rfl
      pending := iff_of_true rfl ⟨_, rfl, rfl⟩
      ended := h.ended
      drained := h.drained
      flowing := fun hsome => (by cases hsome)
      unread := fun hsome => (by cases hsome)
      alone := fun _ _ => ⟨hbody, hmethod⟩
      limit := fun read hread => ⟨limit, rfl, (hsame read hread).1⟩
      reading := fun read hreading => by
        obtain ⟨-, hchunks, htotal, -⟩ := hsame read hreading.1
        show read.chunks = s.heard ∧ read.total = s.heard.flatten.length ∧
          s.incoming.pushed = s.lost ++ s.heard ++ s.incoming.buffered ∧
          readChunks read.limit s.heard [] = .ok s.heard.flatten
        rw [hheard, List.append_nil]
        exact ⟨hchunks, htotal, hpushed hbody, rfl⟩
      whole := fun read out hread hok => by
        cases (hsame read hread).2.2.2.symm.trans hok
      large := fun read error hread herror => by
        cases (hsame read hread).2.2.2.symm.trans herror }

theorem SourceBooks.useWeb (h : SourceBooks cap first s) {web : WebBody}
    (hbody : s.body = some (some web)) (used : WebBody) :
    SourceBooks cap first { s with body := some (some used) } :=
  { h with
    flowing := fun _ hnull => (by cases hnull)
    unread := fun hnone => ⟨(h.unread hnone).1, fun hnull => (by cases hnull)⟩
    alone := fun read hread => (by cases hbody.symm.trans (h.alone read hread).1) }

@[simp] theorem bytes_getBody (s : NodeRequestSource Err) : s.getBody.bytes = s.bytes := by
  rw [NodeRequestSource.getBody]
  split
  · rfl
  · split <;> rfl

@[simp] theorem bytes_getRequest (s : NodeRequestSource Err) : s.getRequest.bytes = s.bytes := by
  rw [NodeRequestSource.getRequest]
  split
  · rfl
  · split
    · rfl
    · exact bytes_getBody s

theorem SourceBooks.readBytes (h : SourceBooks cap first s) (limit : Number) :
    SourceBooks cap (first.or (some limit)) (s.readBytes limit) := by
  rw [NodeRequestSource.readBytes]
  dsimp only
  split
  · next hlater =>
    obtain ⟨asked, hasked⟩ := Option.isSome_iff_exists.mp (h.asked.trans hlater)
    rw [hasked, Option.some_or, ← hasked]
    exact h
  · next hfirst =>
    rw [Bool.not_eq_true, Option.isSome_eq_false_iff, Option.isNone_iff_eq_none] at hfirst
    have hnever : first = none := by
      rw [← Option.isNone_iff_eq_none, ← Option.isSome_eq_false_iff, h.asked, hfirst]
      rfl
    rw [hnever, Option.none_or]
    have howned : SourceBooks cap first { s with bodyOwned := true } := { h with }
    split
    · have hrequest := howned.getRequest
      have hnone : ({ s with bodyOwned := true }.getRequest).bytes = none :=
        (bytes_getRequest _).trans hfirst
      split
      · next hbody =>
        exact (hrequest.promise hnone (fun read => (by rintro ⟨⟩)) limit).useWeb hbody _
      · exact hrequest.promise hnone (fun read => (by rintro ⟨⟩)) limit
    · next hunseen =>
      rw [Bool.or_eq_true, not_or, Option.not_isSome_iff_eq_none,
        Option.not_isSome_iff_eq_none] at hunseen
      split
      · exact howned.promise hfirst (fun read => (by rintro ⟨⟩)) limit
      · next hbody =>
        refine howned.readIncoming hfirst hunseen.2 ?_ limit
        rw [Bool.not_eq_true, bodyless, Bool.or_eq_false_iff, Bool.or_eq_false_iff] at hbody
        exact (Bool.not_eq_false' _).mp hbody.1.1

theorem SourceBooks.step (h : SourceBooks cap first s) {event : SourceEvent Err}
    (hstep : s.step event = some t) : SourceBooks cap (first.or event.asked) t := by
  -- Nothing but a `bytes()` call can be the first one to ask.
  have hcall : (∃ limit, event = .bytes limit) ∨ event.asked = none := by
    cases event <;> simp [SourceEvent.asked]
  rcases hcall with ⟨limit, rfl⟩ | hother
  · cases hstep
    exact h.readBytes limit
  rw [hother, Option.or_none]
  cases event with
  | push chunk =>
      simp only [NodeRequestSource.step, Option.ite_none_left_eq_some, Bool.or_eq_true, not_or,
        Bool.not_eq_true, Option.some_inj] at hstep
      obtain ⟨⟨hopen, -⟩, rfl⟩ := hstep
      exact h.push hopen chunk
  | complete =>
      simp only [NodeRequestSource.step, Option.ite_none_left_eq_some, Option.some_inj] at hstep
      obtain ⟨-, rfl⟩ := hstep
      exact h.complete
  | emit =>
      simp only [NodeRequestSource.step, Option.ite_none_left_eq_some, Bool.or_eq_true, not_or,
        Bool.not_eq_true, Bool.not_eq_false'] at hstep
      obtain ⟨⟨⟨hflowing, -⟩, hopen⟩, hstep⟩ := hstep
      split at hstep
      · next hbuffered =>
        cases hstep
        exact h.emitData hbuffered hflowing hopen
      · next hbuffered =>
        rw [Option.ite_none_right_eq_some, Option.some_inj] at hstep
        obtain ⟨hcomplete, rfl⟩ := hstep
        exact h.emitEnd hbuffered hcomplete
  | teardown =>
      cases hstep
      exact h.destroy
  | error error =>
      cases hstep
      exact h.emitError error
  | bytes limit => cases hother
  | request =>
      cases hstep
      exact h.getRequest
  | useWeb web =>
      rw [NodeRequestSource.step] at hstep
      split at hstep
      · next hbody =>
        cases hstep
        exact h.useWeb hbody web
      · cases hstep
  | clientAbort out =>
      cases hstep
      exact h.clientAbort out
  | closed ended =>
      -- The watcher is off before it reports.
      have hunwatched : SourceBooks cap first { s with watching := false } := { h with }
      simp only [NodeRequestSource.step, Option.ite_none_right_eq_some, Option.some_inj] at hstep
      obtain ⟨-, rfl⟩ := hstep
      split
      · exact hunwatched
      · exact hunwatched.disconnect _
  | disconnect reason =>
      cases hstep
      exact h.disconnect reason
  | answer =>
      simp only [NodeRequestSource.step, Option.ite_none_left_eq_some, Option.some_inj] at hstep
      obtain ⟨-, rfl⟩ := hstep
      exact h.answer
  | earlyClosed =>
      have hclosed : SourceBooks cap first { s with early := .closed } := { h with }
      rw [NodeRequestSource.step] at hstep
      split at hstep
      · cases hstep
        exact hclosed.disconnect _
      · cases hstep

section

variable {method : JsString} {contentLength transferEncoding : Option JsString} {response : Bool}

theorem sourceBooks_start : SourceBooks cap none
    (nodeRequestSource Err method contentLength transferEncoding cap response).start where
  cap := rfl
  asked := rfl
  onData := rfl
  onEnd := rfl
  onAborted := rfl
  onError := rfl
  pending := ⟨fun hpending => (by cases hpending), fun ⟨_, hread, _⟩ => (by cases hread)⟩
  ended hended := by cases hended
  drained _ := rfl
  flowing _ _ hflowing := by cases hflowing
  unread _ := ⟨rfl, fun _ => rfl⟩
  alone _ hread := by cases hread
  limit _ hread := by cases hread
  reading _ hreading := by cases hreading.1
  whole _ _ hread := by cases hread
  large _ _ hread := by cases hread

theorem sourceBooks_of_reachable
    (h : (nodeRequestSource Err method contentLength transferEncoding cap response).Reachable s) :
    ∃ first, SourceBooks cap first s := by
  let books (s : NodeRequestSource Err) : Prop := ∃ first, SourceBooks cap first s
  exact Lts.Reachable.invariant (show books _ from ⟨none, sourceBooks_start⟩)
    (fun _ _ _ ⟨_, hbooks⟩ hstep => ⟨_, hbooks.step hstep⟩) h

/-- After a run the books know the first `bytes()` call of it. -/
theorem sourceBooks_of_run {events : List (SourceEvent Err)}
    (hrun : (nodeRequestSource Err method contentLength transferEncoding cap response).runFrom
      (nodeRequestSource Err method contentLength transferEncoding cap response).start events =
        some s) :
    SourceBooks cap (events.findSome? SourceEvent.asked) s := by
  let books (events : List (SourceEvent Err)) (s : NodeRequestSource Err) : Prop :=
    SourceBooks cap (events.findSome? SourceEvent.asked) s
  refine Lts.runFrom_invariant (show books [] _ from sourceBooks_start)
    (fun events s event t hbooks hstep => ?_) hrun
  have hasked : [event].findSome? SourceEvent.asked = event.asked := by
    rw [List.findSome?_cons]
    cases event.asked with
    | none => rfl
    | some limit => rfl
  change SourceBooks cap ((events ++ [event]).findSome? SourceEvent.asked) t
  rw [List.findSome?_append, hasked]
  exact hbooks.step hstep

end

end NodeRequestSource

section

variable {Err : Type} {method : JsString} {contentLength transferEncoding : Option JsString}
  {cap : Number} {response : Bool} {s : NodeRequestSource Err}

/-- The read of a message settles, where the transport does not fail it, with
what the plain reader makes of all chunks that the parser delivers, under the
limit of its first caller and the ceiling of the server; only what the adapter
has drained before the read is missing. -/
theorem owned_read_whole {events : List (SourceEvent Err)}
    (hrun : (nodeRequestSource Err method contentLength transferEncoding cap response).runFrom
      (nodeRequestSource Err method contentLength transferEncoding cap response).start events =
        some s)
    {read : OwnedRead Err} (hread : s.bytes = some (.incoming read)) :
    (∃ asked, events.findSome? SourceEvent.asked = some asked ∧ read.limit = asked.min cap) ∧
      (∀ out, read.settled = some (.ok out) → s.incoming.complete = true ∧
        readChunks read.limit (s.incoming.pushed.drop s.lost.length) [] = .ok out) ∧
      (∀ error, read.settled = some (.error (.body error)) →
        readChunks read.limit (s.incoming.pushed.drop s.lost.length) [] = .error error) ∧
      (s.drained = false → s.lost = []) := by
  have hbooks := NodeRequestSource.sourceBooks_of_run hrun
  refine ⟨hbooks.cap ▸ hbooks.limit read hread, fun out hok => ?_, fun error herror => ?_,
    hbooks.drained⟩
  · obtain ⟨hcomplete, hpushed, hout⟩ := hbooks.whole read out hread hok
    rw [hpushed, List.drop_left]
    exact ⟨hcomplete, hout⟩
  · -- The plain reader refuses the body at the same chunk.
    obtain ⟨⟨rest, hpushed⟩, hrefused⟩ := hbooks.large read error hread herror
    rw [← hpushed, List.append_assoc, List.drop_left, readChunks_append, hrefused]
    rfl

end

/-- A body in two chunks, and a handler that asks for at most ten bytes. -/
theorem owned_read_whole_post : ∃ s : NodeRequestSource Unit, ∃ read,
    (nodeRequestSource Unit (js "POST") (some (js "3")) none .infinity true).runFrom
      (nodeRequestSource Unit (js "POST") (some (js "3")) none .infinity true).start
      [.push [1, 2], .bytes (.finite 10), .emit, .push [3], .complete, .emit, .emit] = some s ∧
    s.bytes = some (.incoming read) ∧ read.settled = some (.ok [1, 2, 3]) ∧
    (∃ asked, some (Number.finite 10) = some asked ∧ read.limit = asked.min .infinity) ∧
    readChunks read.limit (s.incoming.pushed.drop s.lost.length) [] = .ok [1, 2, 3] := by
  have hrun : (nodeRequestSource Unit (js "POST") (some (js "3")) none .infinity true).runFrom
      (nodeRequestSource Unit (js "POST") (some (js "3")) none .infinity true).start
      [.push [1, 2], .bytes (.finite 10), .emit, .push [3], .complete, .emit, .emit] =
        some _ := rfl
  obtain ⟨hlimit, hwhole, -⟩ := owned_read_whole hrun rfl
  exact ⟨_, _, hrun, rfl, rfl, hlimit, (hwhole _ rfl).2⟩

end Keala.Adapters
