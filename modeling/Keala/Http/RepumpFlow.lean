import Keala.Http.Repump

/-!
What holds of a re-pump after every event: no chunk is lost, repeated or moved
past another, and each waiting read has a pull on its way.
-/

namespace Keala.Http

variable {Chunk Err : Type} {chunks : List Chunk} {ending : SourceEnding Err}

/-! ### The invariant -/

/-- The chunk that a read has brought and the stream has not taken yet. -/
def inTransit : SourceRead Chunk Err → List Chunk
  | .settled (.chunk value) => [value]
  | _ => []

theorem told_idle {read : SourceRead Chunk Err} : read.told = .idle ↔ read = .idle := by
  cases read <;> simp [SourceRead.told]

theorem told_failed {read : SourceRead Chunk Err} {error : Err} :
    read.told = .settled (.failed error) ↔ read = .settled (.failed error) := by
  cases read <;> simp [SourceRead.told]

theorem told_ne_waiting (read : SourceRead Chunk Err) : read.told ≠ .waiting := by
  cases read <;> simp [SourceRead.told]

namespace Repump

/-- All chunks, from those delivered to those not read yet. -/
def pipe (pump : Repump Chunk Err) : List Chunk :=
  pump.stream.received ++ pump.stream.queue ++ inTransit pump.read ++ pump.source.remaining

def Errored (pump : Repump Chunk Err) : Prop := ∃ error, pump.stream.status = .errored error

/-- The consumer or the producer has broken off. -/
def Dropped (pump : Repump Chunk Err) : Prop := pump.source.cancelled = true ∨ pump.Errored

structure Flowing (chunks : List Chunk) (ending : SourceEnding Err) (pump : Repump Chunk Err) :
    Prop where
  source : pump.source.ending = ending
  whole : ¬pump.Dropped → pump.pipe = chunks
  part : pump.stream.received <+: chunks
  closing : pump.stream.closeRequested = true →
    pump.read = .idle ∧ pump.source.remaining = [] ∧ ending = .ended
  atEnd : pump.source.cancelled = false → pump.read = .settled .done →
    pump.source.remaining = [] ∧ ending = .ended
  failing : ∀ error, pump.read = .settled (.failed error) →
    pump.source.remaining = [] ∧ ending = .failed error
  quiet : pump.stream.isReadable = false → pump.stream.requests = 0 ∧ pump.stream.queue = []
  waiting : 0 < pump.stream.requests → pump.stream.queue = []
  drained : pump.stream.closeRequested = true → pump.stream.queue = [] →
    pump.stream.isReadable = false
  closed : pump.stream.status = .closed →
    pump.source.cancelled = true ∨ pump.stream.closeRequested = true
  cancelled : pump.source.cancelled = true → pump.stream.status = .closed ∧ pump.read ≠ .waiting
  busy : pump.stream.pulling = true ↔ pump.read ≠ .idle ∨ pump.returned = true
  once : pump.read ≠ .idle → pump.returned = false
  late : pump.stream.started = false → pump.stream.pulling = false

/-- A read that waits for a chunk has a pull that runs, or one that is called behind it. -/
def Served (pump : Repump Chunk Err) : Prop :=
  0 < pump.stream.requests → pump.stream.started = true →
    pump.stream.pulling = true ∧ (pump.returned = true → pump.stream.pullAgain = true)

end Repump

open ReadableStream

/-! ### Calling `pull` -/

theorem received_callPull (stream : ReadableStream Chunk Err) :
    stream.callPullIfNeeded.1.received = stream.received := by
  rw [received, callPullIfNeeded_answers]
  rfl

theorem isReadable_callPull (stream : ReadableStream Chunk Err) :
    stream.callPullIfNeeded.1.isReadable = stream.isReadable := by
  rw [isReadable, isReadable, callPullIfNeeded_status]

namespace Repump

/-- A call of `pull` where the stream may want one keeps what holds. -/
theorem Flowing.call {pump : Repump Chunk Err} {stream : ReadableStream Chunk Err}
    (h : Flowing chunks ending { pump with stream := stream }) :
    Flowing chunks ending (pump.withStream stream.callPullIfNeeded) := by
  have hreadable := isReadable_callPull stream
  have hreceived := received_callPull stream
  rw [withStream, callPullIfNeeded_flag]
  split_ifs with hflag
  · -- The pull is called, which is idle until its read is there.
    obtain ⟨hshould, hpulling⟩ := Bool.and_eq_true_iff.mp hflag
    obtain ⟨hidle, hreturned⟩ := not_or.mp (h.busy.not.mp (by simpa using hpulling))
    replace hidle : pump.read = .idle := not_not.mp hidle
    have hnow : stream.callPullIfNeeded.1.pulling = true := by
      rw [callPullIfNeeded_pulling, hshould, Bool.or_true]
    simp only [shouldCallPull, canCloseOrEnqueue, Bool.and_eq_true, Bool.not_eq_true'] at hshould
    obtain ⟨⟨⟨hopen, hisReadable⟩, hstarted⟩, -⟩ := hshould
    exact {
      source := h.source
      whole := fun hdropped => by
        have hwhole := h.whole fun hbefore => hdropped (by simpa [Dropped, Errored] using hbefore)
        simpa [pipe, hreceived, hidle, inTransit] using hwhole
      part := by
        rw [hreceived]
        exact h.part
      closing := fun hclosing => by simp [hopen] at hclosing
      atEnd := fun _ hread => by cases hread
      failing := fun _ hread => by cases hread
      quiet := fun hquiet => by
        rw [hreadable, hisReadable] at hquiet
        cases hquiet
      waiting := by simpa using h.waiting
      drained := fun hclosing => by simp [hopen] at hclosing
      closed := by simpa using h.closed
      cancelled := fun hcancelled => by
        have hclosed := (h.cancelled hcancelled).1
        simp [isReadable, show stream.status = .closed from hclosed] at hisReadable
      busy := by simp [hnow]
      once := fun _ => by simpa using hreturned
      late := fun hlate => by simp [hstarted] at hlate }
  · -- It is not called, or called again once the running one is over.
    have hsame : stream.callPullIfNeeded.1.pulling = stream.pulling := by
      rw [callPullIfNeeded_pulling]
      cases hpulling : stream.pulling with
      | true => rfl
      | false => simpa [hpulling] using hflag
    exact {
      source := h.source
      whole := fun hdropped => by
        have hwhole := h.whole fun hbefore => hdropped (by simpa [Dropped, Errored] using hbefore)
        simpa [pipe, hreceived] using hwhole
      part := by
        rw [hreceived]
        exact h.part
      closing := by simpa using h.closing
      atEnd := h.atEnd
      failing := h.failing
      quiet := by
        rw [hreadable]
        simpa using h.quiet
      waiting := by simpa using h.waiting
      drained := by
        rw [hreadable]
        simpa using h.drained
      closed := by simpa using h.closed
      cancelled := by simpa using h.cancelled
      busy := by
        rw [hsame]
        exact h.busy
      once := h.once
      late := by
        rw [hsame, callPullIfNeeded_started]
        exact h.late }

/-- Behind such a call the reads are served. -/
theorem Flowing.served_call {pump : Repump Chunk Err} {stream : ReadableStream Chunk Err}
    (h : Flowing chunks ending { pump with stream := stream }) :
    (pump.withStream stream.callPullIfNeeded).Served := by
  have hshould : 0 < stream.requests → stream.started = true → stream.shouldCallPull = true := by
    intro hrequests hstarted
    have hreadable : stream.isReadable = true := by
      by_contra hnot
      exact Nat.pos_iff_ne_zero.mp hrequests (h.quiet (Bool.eq_false_iff.mpr hnot)).1
    have hopen : stream.closeRequested = false := by
      by_contra hnot
      have hclosing := Bool.not_eq_false _ ▸ hnot
      exact absurd hreadable (by simp [h.drained hclosing (h.waiting hrequests)])
    simp [shouldCallPull, canCloseOrEnqueue, hopen, hreadable, hstarted, hrequests]
  rw [withStream, callPullIfNeeded_flag]
  split_ifs with hflag
  · intro _ _
    obtain ⟨hshouldCall, hpulling⟩ := Bool.and_eq_true_iff.mp hflag
    have hreturned := (not_or.mp (h.busy.not.mp (by simpa using hpulling))).2
    refine ⟨?_, fun hback => absurd hback hreturned⟩
    show stream.callPullIfNeeded.1.pulling = true
    rw [callPullIfNeeded_pulling, hshouldCall, Bool.or_true]
  · intro hrequests hstarted
    have hshouldCall := hshould (by simpa using hrequests) (by simpa using hstarted)
    have hpulling : stream.pulling = true := by simpa [hshouldCall] using hflag
    constructor
    · show stream.callPullIfNeeded.1.pulling = true
      rw [callPullIfNeeded_pulling, hshouldCall, Bool.or_true]
    · intro _
      show stream.callPullIfNeeded.1.pullAgain = true
      rw [callPullIfNeeded_pullAgain, hshouldCall, hpulling]
      simp

/-! ### The events -/

variable {pump : Repump Chunk Err}

theorem Flowing.not_dropped (h : Flowing chunks ending pump)
    (hreadable : pump.stream.status = .readable) : ¬pump.Dropped := by
  rintro (hcancelled | ⟨error, herror⟩)
  · have hclosed := (h.cancelled hcancelled).1
    cases hclosed.symm.trans hreadable
  · cases herror.symm.trans hreadable

/-- An answer that brings no chunk changes nothing else. -/
theorem Flowing.answered (h : Flowing chunks ending pump) {answer : ReadAnswer Chunk Err}
    (hanswer : ∀ value, answer ≠ .chunk value) :
    Flowing chunks ending
      { pump with stream := { pump.stream with answers := pump.stream.answers ++ [answer] } } := by
  have hreceived : received { pump.stream with answers := pump.stream.answers ++ [answer] } =
      pump.stream.received :=
    received_replicate (n := 1) rfl hanswer
  exact { h with
    whole := fun hdropped => by
      rw [pipe, hreceived]
      exact h.whole hdropped
    part := by
      rw [hreceived]
      exact h.part }

theorem served_quiet (h : pump.stream.requests = 0) : pump.Served :=
  fun hrequests => absurd h (Nat.pos_iff_ne_zero.mp hrequests)

/-- The first chunk of the queue is delivered. -/
theorem Flowing.deliver (h : Flowing chunks ending pump)
    (hstatus : pump.stream.status = .readable) {value : Chunk} {queue : List Chunk}
    (hqueue : pump.stream.queue = value :: queue) :
    pump.stream.received ++ [value] ++ queue ++ inTransit pump.read ++ pump.source.remaining =
      chunks := by
  have hwhole := h.whole (h.not_dropped hstatus)
  rw [pipe, hqueue] at hwhole
  simpa using hwhole

theorem Flowing.read (h : Flowing chunks ending pump) (hserved : pump.Served) :
    Flowing chunks ending (pump.withStream pump.stream.read) ∧
      (pump.withStream pump.stream.read).Served := by
  cases hstatus : pump.stream.status with
  | closed =>
    rw [read_closed hstatus]
    exact ⟨h.answered (by simp), hserved⟩
  | errored error =>
    rw [read_errored hstatus]
    exact ⟨h.answered (by simp), hserved⟩
  | readable =>
    cases hqueue : pump.stream.queue with
    | nil =>
      -- The read waits, and may have a chunk pulled for it.
      rw [read_waiting hstatus hqueue]
      have hwaiting : Flowing chunks ending
          { pump with stream := { pump.stream with requests := pump.stream.requests + 1 } } :=
        { h with
          quiet := fun hquiet => by simp [isReadable, hstatus] at hquiet
          waiting := fun _ => hqueue }
      exact ⟨hwaiting.call, hwaiting.served_call⟩
    | cons value queue =>
      have hdeliver := h.deliver hstatus hqueue
      have hpart : pump.stream.received ++ [value] <+: chunks := by
        refine ⟨queue ++ inTransit pump.read ++ pump.source.remaining, ?_⟩
        rw [← hdeliver]
        simp only [List.append_assoc]
      have hnone : pump.stream.requests = 0 := by
        by_contra hsome
        cases hqueue.symm.trans (h.waiting (Nat.pos_of_ne_zero hsome))
      have hreceived : ∀ next : ReadableStream Chunk Err,
          next.answers = pump.stream.answers ++ [.chunk value] →
            next.received = pump.stream.received ++ [value] :=
        fun _ => received_chunk
      rw [read_chunk hstatus hqueue]
      split_ifs with hlast
      · -- The last chunk of a stream that is to close: it closes behind it.
        obtain ⟨hclosing, rfl⟩ := hlast
        refine ⟨?_, served_quiet rfl⟩
        exact { h with
          whole := fun _ => by
            show received (ReadableStream.closed _) ++ _ ++ _ ++ _ = _
            rw [received_closed, hreceived _ rfl]
            exact hdeliver
          part := by
            show received (ReadableStream.closed _) <+: _
            rw [received_closed, hreceived _ rfl]
            exact hpart
          quiet := fun _ => ⟨rfl, rfl⟩
          waiting := fun _ => rfl
          drained := fun _ _ => rfl
          closed := fun _ => .inr hclosing
          cancelled := fun hcancelled => ⟨rfl, (h.cancelled hcancelled).2⟩ }
      · have htaken : Flowing chunks ending { pump with stream :=
            { pump.stream with
              queue := queue, answers := pump.stream.answers ++ [.chunk value] } } :=
          { h with
            whole := fun _ => by
              show received _ ++ _ ++ _ ++ _ = _
              rw [hreceived _ rfl]
              exact hdeliver
            part := by
              show received _ <+: _
              rw [hreceived _ rfl]
              exact hpart
            quiet := fun hquiet => by simp [isReadable, hstatus] at hquiet
            waiting := fun hrequests => absurd hnone (Nat.pos_iff_ne_zero.mp hrequests)
            drained := fun hclosing hempty => absurd ⟨hclosing, hempty⟩ hlast }
        exact ⟨htaken.call, htaken.served_call⟩

theorem Flowing.cancel (h : Flowing chunks ending pump)
    (hcalled : pump.stream.cancel.2 = true) :
    Flowing chunks ending (cancelSource { pump with stream := pump.stream.cancel.1 }) ∧
      Served (cancelSource { pump with stream := pump.stream.cancel.1 }) := by
  have hstatus : pump.stream.status = .readable := by
    rw [ReadableStream.cancel] at hcalled
    split at hcalled
    · assumption
    · cases hcalled
  have hcancel : pump.stream.cancel = ({ pump.stream.closed with queue := [] }, true) := by
    rw [ReadableStream.cancel]
    split
    · rfl
    · next hother => exact absurd hstatus hother
  rw [hcancel]
  refine ⟨?_, served_quiet rfl⟩
  exact { h with
    whole := fun hdropped => absurd (.inl rfl) hdropped
    part := received_closed pump.stream ▸ h.part
    closing := fun hclosing => ⟨told_idle.mpr (h.closing hclosing).1, (h.closing hclosing).2⟩
    atEnd := fun hlive => by cases hlive
    failing := fun error hread => h.failing error (told_failed.mp hread)
    quiet := fun _ => ⟨rfl, rfl⟩
    waiting := fun _ => rfl
    drained := fun _ _ => rfl
    closed := fun _ => .inl rfl
    cancelled := fun _ => ⟨rfl, told_ne_waiting pump.read⟩
    busy := h.busy.trans (or_congr told_idle.not.symm Iff.rfl)
    once := fun hread => h.once (told_idle.not.mp hread) }

theorem Flowing.start (h : Flowing chunks ending pump) :
    Flowing chunks ending (pump.withStream pump.stream.start) ∧
      (pump.withStream pump.stream.start).Served := by
  have hbegun : Flowing chunks ending
      { pump with stream := { pump.stream with started := true } } :=
    { h with late := fun hlate => by cases hlate }
  exact ⟨hbegun.call, hbegun.served_call⟩

/-- A waiting read is settled with what the source has next. -/
theorem Flowing.settled (h : Flowing chunks ending pump) (hwaiting : pump.read = .waiting)
    (remaining : List Chunk) (result : Settled Chunk Err)
    (hpipe : inTransit (.settled result) ++ remaining = pump.source.remaining)
    (hdone : result = .done → remaining = [] ∧ ending = .ended)
    (hfailed : ∀ error, result = .failed error → remaining = [] ∧ ending = .failed error) :
    Flowing chunks ending
        { pump with
          source := { pump.source with remaining := remaining }
          read := .settled result } ∧
      Served
        { pump with
          source := { pump.source with remaining := remaining }
          read := .settled result } := by
  have hreturned := h.once (by simp [hwaiting])
  have hpulling := h.busy.mpr (.inl (by simp [hwaiting]))
  refine ⟨?_, fun _ _ => ⟨hpulling, fun hback => ?_⟩⟩
  · exact { h with
      whole := fun hdropped => by
        have hwhole := h.whole hdropped
        rw [Repump.pipe, hwaiting, ← hpipe] at hwhole
        rw [← hwhole]
        simp [Repump.pipe, inTransit]
      closing := fun hclosing => by cases hwaiting.symm.trans (h.closing hclosing).1
      atEnd := fun _ hread => hdone (by simpa using hread)
      failing := fun error hread => hfailed error (by simpa using hread)
      cancelled := fun hcancelled => absurd hwaiting (h.cancelled hcancelled).2
      busy := by simpa using hpulling
      once := fun _ => hreturned }
  · cases hreturned.symm.trans hback

theorem Flowing.settle (h : Flowing chunks ending pump) (hwaiting : pump.read = .waiting)
    {next : Repump Chunk Err} (hnext : pump.settle = some next) :
    Flowing chunks ending next ∧ next.Served := by
  have hsource := h.source
  rw [Repump.settle] at hnext
  split at hnext
  · next value remaining hremaining =>
    cases hnext
    exact h.settled hwaiting remaining (.chunk value) hremaining.symm (by simp) (by simp)
  · next hremaining hended =>
    cases hnext
    have hsettled := h.settled hwaiting [] .done hremaining.symm
      (fun _ => ⟨rfl, hsource.symm.trans hended⟩) (by simp)
    rw [← hremaining] at hsettled
    exact hsettled
  · next error hremaining hfailed =>
    cases hnext
    have hsettled := h.settled hwaiting [] (.failed error) hremaining.symm (by simp)
      (by simpa using hsource.symm.trans hfailed)
    rw [← hremaining] at hsettled
    exact hsettled
  · cases hnext

theorem Flowing.idle_of_returned (h : Flowing chunks ending pump)
    (hreturned : pump.returned = true) : pump.read = .idle := by
  by_contra hbusy
  cases hreturned.symm.trans (h.once hbusy)

/-- The stream has been told that the pull has returned. -/
theorem Flowing.rested (h : Flowing chunks ending pump) (hreturned : pump.returned = true)
    (again : Bool) :
    Flowing chunks ending
      { pump with
        returned := false
        stream := { pump.stream with pulling := false, pullAgain := again } } :=
  { h with
    busy := by simp [h.idle_of_returned hreturned]
    once := fun _ => rfl
    late := fun _ => rfl }

theorem Flowing.pullFulfilled (h : Flowing chunks ending pump) (hserved : pump.Served)
    (hreturned : pump.returned = true) :
    Flowing chunks ending
        (withStream { pump with returned := false } pump.stream.pullFulfilled) ∧
      Served (withStream { pump with returned := false } pump.stream.pullFulfilled) := by
  rw [ReadableStream.pullFulfilled]
  split_ifs with hagain
  · exact ⟨(h.rested hreturned false).call, (h.rested hreturned false).served_call⟩
  · refine ⟨h.rested hreturned pump.stream.pullAgain, fun hrequests hstarted => ?_⟩
    exact absurd ((hserved hrequests hstarted).2 hreturned) hagain

theorem Flowing.finish (h : Flowing chunks ending pump) : Flowing chunks ending pump.finish := by
  rw [Repump.finish]
  split_ifs
  · exact h
  · exact { h with }

theorem Served.finish (h : pump.Served) : pump.finish.Served := by
  rw [Repump.finish]
  split_ifs
  · exact h
  · exact h

/-- Where the stream takes neither chunk nor end no read waits. -/
theorem Flowing.no_requests (h : Flowing chunks ending pump)
    (hshut : pump.stream.canCloseOrEnqueue = false) : pump.stream.requests = 0 := by
  by_contra hsome
  have hempty := h.waiting (Nat.pos_of_ne_zero hsome)
  have hreadable : pump.stream.isReadable = true := by
    by_contra hnot
    exact hsome (h.quiet (Bool.eq_false_iff.mpr hnot)).1
  cases hclosing : pump.stream.closeRequested with
  | true => cases hreadable.symm.trans (h.drained hclosing hempty)
  | false => simp [canCloseOrEnqueue, hclosing, hreadable] at hshut

/-- A pull that has a result to act on finds the stream open, or broken off. -/
theorem Flowing.open_or_dropped (h : Flowing chunks ending pump)
    (hopen : pump.stream.closeRequested = false) :
    pump.stream.status = .readable ∨ pump.Dropped := by
  cases hstatus : pump.stream.status with
  | readable => exact .inl rfl
  | errored error => exact .inr (.inr ⟨error, hstatus⟩)
  | closed =>
    rcases h.closed hstatus with hcancelled | hclosing
    · exact .inr (.inl hcancelled)
    · cases hopen.symm.trans hclosing

def taken (pump : Repump Chunk Err) : Repump Chunk Err :=
  { pump with read := .idle, returned := true }

theorem resume_taken (pump : Repump Chunk Err) (result : Settled Chunk Err) :
    { resume { pump with read := .idle } result with returned := true } =
      pump.taken.resume result := by
  have hfinish : ∀ pump : Repump Chunk Err,
      { pump.finish with returned := true } = finish { pump with returned := true } := by
    intro pump
    rw [Repump.finish, Repump.finish]
    split_ifs <;> rfl
  cases result with
  | done =>
    rw [resume, resume]
    split
    · next stream hclose =>
      rw [hfinish, show pump.taken.stream.close = some stream from hclose]
      rfl
    · next hclose =>
      rw [hfinish, show pump.taken.stream.close = none from hclose]
      rfl
  | failed error => exact hfinish _
  | chunk value =>
    rw [resume, resume]
    split
    · next answer henqueue =>
      rw [show pump.taken.stream.enqueue value = some answer from henqueue]
      show _ = pump.taken.withStream answer
      rw [withStream, withStream]
      split_ifs <;> rfl
    · next henqueue =>
      rw [hfinish, show pump.taken.stream.enqueue value = none from henqueue]
      rfl

theorem Flowing.taken (h : Flowing chunks ending pump) {result : Settled Chunk Err}
    (hread : pump.read = .settled result)
    (hwhole : ¬pump.Dropped →
      pump.stream.received ++ pump.stream.queue ++ pump.source.remaining = chunks) :
    Flowing chunks ending pump.taken :=
  { h with
    whole := fun hdropped => by
      rw [← hwhole hdropped]
      simp [Repump.pipe, Repump.taken, inTransit]
    closing := fun hclosing => ⟨rfl, (h.closing hclosing).2⟩
    atEnd := fun _ hidle => by cases hidle
    failing := fun _ hidle => by cases hidle
    cancelled := fun hcancelled => ⟨(h.cancelled hcancelled).1, by simp [Repump.taken]⟩
    busy := by simpa [Repump.taken] using h.busy.mpr (.inl (by simp [hread]))
    once := fun hbusy => absurd rfl hbusy }

theorem Flowing.open_of_settled (h : Flowing chunks ending pump) {result : Settled Chunk Err}
    (hread : pump.read = .settled result) : pump.stream.closeRequested = false := by
  by_contra hclosing
  cases hread.symm.trans (h.closing (Bool.not_eq_false _ ▸ hclosing)).1

theorem Flowing.resume_done (h : Flowing chunks ending pump) (hread : pump.read = .settled .done) :
    Flowing chunks ending (pump.taken.resume .done) ∧ (pump.taken.resume .done).Served := by
  have htaken : Flowing chunks ending pump.taken := by
    apply h.taken hread
    intro hdropped
    have hwhole := h.whole hdropped
    rw [Repump.pipe, hread] at hwhole
    simpa [inTransit] using hwhole
  rw [Repump.resume]
  split
  · next stream hclose =>
    rw [ReadableStream.close] at hclose
    split at hclose
    · next hcan =>
      have hstatus : pump.stream.status = .readable :=
        isReadable_iff.mp (Bool.and_eq_true_iff.mp hcan).2
      have hlive : pump.source.cancelled = false := by
        by_contra hcancelled
        exact h.not_dropped hstatus (.inl (Bool.not_eq_false _ ▸ hcancelled))
      have hend := h.atEnd hlive hread
      cases hclose
      suffices hnext : Flowing chunks ending { pump.taken with
            stream := if pump.stream.queue = [] then
                ReadableStream.closed { pump.stream with closeRequested := true }
              else { pump.stream with closeRequested := true } } ∧
          Served { pump.taken with
            stream := if pump.stream.queue = [] then
                ReadableStream.closed { pump.stream with closeRequested := true }
              else { pump.stream with closeRequested := true } } from
        ⟨hnext.1.finish, hnext.2.finish⟩
      split_ifs with hqueue
      · refine ⟨?_, served_quiet rfl⟩
        have hreceived := received_closed { pump.stream with closeRequested := true }
        have hwhole := htaken.whole (h.not_dropped hstatus)
        exact { htaken with
          whole := fun _ => by
            rw [Repump.pipe, hreceived]
            exact hwhole
          part := hreceived ▸ h.part
          closing := fun _ => ⟨rfl, hend⟩
          quiet := fun _ => ⟨rfl, hqueue⟩
          waiting := fun _ => hqueue
          drained := fun _ _ => rfl
          closed := fun _ => .inr rfl
          cancelled := fun hcancelled => by cases hlive.symm.trans hcancelled }
      · refine ⟨{ htaken with
          closing := fun _ => ⟨rfl, hend⟩
          drained := fun _ hempty => absurd hempty hqueue
          closed := fun _ => .inr rfl }, served_quiet ?_⟩
        by_contra hsome
        exact hqueue (h.waiting (Nat.pos_of_ne_zero hsome))
    · cases hclose
  · next hclose =>
    have hshut : pump.taken.stream.canCloseOrEnqueue = false := by
      rw [ReadableStream.close] at hclose
      split at hclose
      · cases hclose
      · next hcan => exact Bool.eq_false_iff.mpr hcan
    exact ⟨htaken.finish, (served_quiet (htaken.no_requests hshut)).finish⟩

theorem Flowing.resume_failed (h : Flowing chunks ending pump) {error : Err}
    (hread : pump.read = .settled (.failed error)) :
    Flowing chunks ending (pump.taken.resume (.failed error)) ∧
      (pump.taken.resume (.failed error)).Served := by
  have htaken : Flowing chunks ending pump.taken := by
    apply h.taken hread
    intro hdropped
    have hwhole := h.whole hdropped
    rw [Repump.pipe, hread] at hwhole
    simpa [inTransit] using hwhole
  suffices hnext : Flowing chunks ending
        { pump.taken with stream := pump.stream.error error } ∧
      Served { pump.taken with stream := pump.stream.error error } from
    ⟨Flowing.finish { hnext.1 with }, Served.finish hnext.2⟩
  rw [ReadableStream.error]
  split
  · next hstatus =>
    refine ⟨?_, served_quiet rfl⟩
    have hreceived : received { pump.stream.answerAll (.error error) with
        status := .errored error, queue := [] } = pump.stream.received :=
      received_replicate rfl (by simp)
    exact { htaken with
      whole := fun hdropped => absurd (.inr ⟨error, rfl⟩) hdropped
      part := hreceived ▸ h.part
      quiet := fun _ => ⟨rfl, rfl⟩
      waiting := fun _ => rfl
      drained := fun _ _ => rfl
      closed := fun hclosed => by cases hclosed
      cancelled := fun hcancelled => absurd (.inl hcancelled) (h.not_dropped hstatus) }
  · next hstatus =>
    refine ⟨htaken, served_quiet (h.quiet ?_).1⟩
    exact Bool.eq_false_iff.mpr fun hreadable => hstatus (isReadable_iff.mp hreadable)

/-- A stream that has taken the chunk of the read, into its queue or to its consumer. -/
theorem Flowing.took (h : Flowing chunks ending pump) {value : Chunk}
    (hread : pump.read = .settled (.chunk value)) (hstatus : pump.stream.status = .readable)
    (queue : List Chunk) (requests : ℕ) (answers : List (ReadAnswer Chunk Err))
    (hwhole : received { pump.stream with answers := answers } ++ queue =
      pump.stream.received ++ pump.stream.queue ++ [value])
    (hwaiting : 0 < requests → queue = []) :
    Flowing chunks ending { pump.taken with
      stream :=
        { pump.stream with queue := queue, requests := requests, answers := answers } } := by
  have hopen := h.open_of_settled hread
  have hpipe := h.whole (h.not_dropped hstatus)
  rw [Repump.pipe, hread] at hpipe
  have hall : received { pump.stream with answers := answers } ++ queue ++ pump.source.remaining =
      chunks := by
    rw [hwhole]
    exact hpipe
  exact {
    source := h.source
    whole := fun _ => by
      rw [← hall]
      simp [Repump.pipe, Repump.taken, inTransit, received]
    part := ⟨queue ++ pump.source.remaining, by rw [← List.append_assoc]; exact hall⟩
    closing := fun hclosing => by cases hopen.symm.trans hclosing
    atEnd := fun _ hidle => by cases hidle
    failing := fun _ hidle => by cases hidle
    quiet := fun hquiet => by simp [isReadable, hstatus] at hquiet
    waiting := hwaiting
    drained := fun hclosing => by cases hopen.symm.trans hclosing
    closed := h.closed
    cancelled := fun hcancelled => absurd (.inl hcancelled) (h.not_dropped hstatus)
    busy := by simpa [Repump.taken] using h.busy.mpr (.inl (by simp [hread]))
    once := fun hbusy => absurd rfl hbusy
    late := h.late }

theorem Flowing.resume_chunk (h : Flowing chunks ending pump) {value : Chunk}
    (hread : pump.read = .settled (.chunk value)) :
    Flowing chunks ending (pump.taken.resume (.chunk value)) ∧
      (pump.taken.resume (.chunk value)).Served := by
  cases hcan : pump.stream.canCloseOrEnqueue with
  | true =>
    have hstatus : pump.stream.status = .readable :=
      isReadable_iff.mp (Bool.and_eq_true_iff.mp hcan).2
    by_cases hrequests : 0 < pump.stream.requests
    · have htook := h.took hread hstatus pump.stream.queue (pump.stream.requests - 1)
        (pump.stream.answers ++ [.chunk value])
        (by
          have hreceived : received { pump.stream with
              answers := pump.stream.answers ++ [.chunk value] } =
              pump.stream.received ++ [value] := received_chunk rfl
          rw [hreceived, h.waiting hrequests]
          simp)
        (fun _ => h.waiting hrequests)
      have henqueue : pump.stream.enqueue value = some (callPullIfNeeded { pump.stream with
          requests := pump.stream.requests - 1
          answers := pump.stream.answers ++ [.chunk value] }) := by
        rw [enqueue, if_pos hcan, if_pos hrequests]
      rw [Repump.resume, show pump.taken.stream.enqueue value = _ from henqueue]
      exact ⟨htook.call, htook.served_call⟩
    · have htook := h.took hread hstatus (pump.stream.queue ++ [value]) pump.stream.requests
        pump.stream.answers
        (List.append_assoc _ _ _).symm (fun hsome => absurd hsome hrequests)
      have henqueue : pump.stream.enqueue value =
          some (callPullIfNeeded { pump.stream with queue := pump.stream.queue ++ [value] }) := by
        rw [enqueue, if_pos hcan, if_neg hrequests]
      rw [Repump.resume, show pump.taken.stream.enqueue value = _ from henqueue]
      exact ⟨htook.call, htook.served_call⟩
  | false =>
    have htaken : Flowing chunks ending pump.taken := by
      apply h.taken hread
      intro hdropped
      rcases h.open_or_dropped (h.open_of_settled hread) with hstatus | hbroken
      · simp [canCloseOrEnqueue, h.open_of_settled hread, isReadable, hstatus] at hcan
      · exact absurd hbroken hdropped
    have henqueue : pump.stream.enqueue value = none := by
      rw [enqueue, if_neg]
      exact Bool.eq_false_iff.mp hcan
    rw [Repump.resume, show pump.taken.stream.enqueue value = _ from henqueue]
    exact ⟨htaken.finish, (served_quiet (htaken.no_requests hcan)).finish⟩

/-- Every event keeps the flow. -/
theorem Flowing.step (h : Flowing chunks ending pump) (hserved : pump.Served)
    {event : RepumpEvent} {next : Repump Chunk Err} (hstep : pump.step event = some next) :
    Flowing chunks ending next ∧ next.Served := by
  cases event with
  | read =>
    cases hstep
    exact h.read hserved
  | cancel =>
    rw [Repump.step] at hstep
    split_ifs at hstep with hcalled
    · cases hstep
      exact ⟨(h.cancel hcalled).1.finish, (h.cancel hcalled).2.finish⟩
    · cases hstep
      exact ⟨h, hserved⟩
  | start =>
    rw [Repump.step] at hstep
    split_ifs at hstep
    cases hstep
    exact h.start
  | settle =>
    rw [Repump.step] at hstep
    split at hstep
    · next hwaiting => exact h.settle hwaiting hstep
    · cases hstep
  | resume =>
    rw [Repump.step] at hstep
    split at hstep
    · next result hread =>
      cases hstep
      rw [resume_taken]
      cases result with
      | done => exact h.resume_done hread
      | failed error => exact h.resume_failed hread
      | chunk value => exact h.resume_chunk hread
    · cases hstep
  | pullFulfilled =>
    rw [Repump.step] at hstep
    split_ifs at hstep with hreturned
    cases hstep
    exact h.pullFulfilled hserved hreturned

end Repump

end Keala.Http
