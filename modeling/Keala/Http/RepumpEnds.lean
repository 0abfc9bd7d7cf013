import Keala.Http.RepumpRuns

/-!
A re-pump that has told its hook of the end has nothing left for its consumer:
the source is read only while nothing is queued, so that a close never waits for
a queue to be read. With that, all that the re-pump owes.
-/

namespace Keala.Http

variable {Chunk Err : Type} {chunks : List Chunk} {ending : SourceEnding Err}

namespace Repump

variable {pump next : Repump Chunk Err}

/-- Nothing is queued while the source is read, nor when the stream is to close. -/
structure Emptied (pump : Repump Chunk Err) : Prop where
  reading : pump.read ≠ .idle → pump.stream.queue = []
  closing : pump.stream.closeRequested = true → pump.stream.queue = []

theorem emptied_of_queue (h : pump.stream.queue = []) : pump.Emptied := ⟨fun _ => h, fun _ => h⟩

theorem emptied_finish : pump.finish.Emptied ↔ pump.Emptied := by
  rw [Repump.finish]
  split_ifs
  · rfl
  · exact ⟨fun h => ⟨h.reading, h.closing⟩, fun h => ⟨h.reading, h.closing⟩⟩

/-- `pull` is called where something is asked for or nothing is queued. -/
theorem Emptied.call {stream : ReadableStream Chunk Err}
    (h : Emptied { pump with stream := stream })
    (hwaiting : 0 < stream.requests → stream.queue = []) :
    (pump.withStream stream.callPullIfNeeded).Emptied := by
  have hclosing : stream.callPullIfNeeded.1.closeRequested = true →
      stream.callPullIfNeeded.1.queue = [] := by simpa using h.closing
  rw [withStream, ReadableStream.callPullIfNeeded_flag]
  split_ifs with hflag
  · refine ⟨fun _ => ?_, hclosing⟩
    show stream.callPullIfNeeded.1.queue = []
    rw [ReadableStream.callPullIfNeeded_queue]
    obtain ⟨hshould, -⟩ := Bool.and_eq_true_iff.mp hflag
    rw [ReadableStream.shouldCallPull, Bool.and_eq_true, Bool.or_eq_true, decide_eq_true_iff,
      decide_eq_true_iff] at hshould
    rcases hshould.2 with hasked | hshort
    · exact hwaiting hasked
    · apply List.eq_nil_of_length_eq_zero
      omega
  · exact ⟨fun hread => by simpa using h.reading hread, hclosing⟩

theorem Emptied.read (h : pump.Emptied) (hflow : Flowing chunks ending pump) :
    (pump.withStream pump.stream.read).Emptied := by
  cases hstatus : pump.stream.status with
  | closed =>
    rw [ReadableStream.read_closed hstatus]
    exact ⟨h.reading, h.closing⟩
  | errored error =>
    rw [ReadableStream.read_errored hstatus]
    exact ⟨h.reading, h.closing⟩
  | readable =>
    cases hqueue : pump.stream.queue with
    | nil =>
      rw [ReadableStream.read_waiting hstatus hqueue]
      exact Emptied.call ⟨fun _ => hqueue, fun _ => hqueue⟩ fun _ => hqueue
    | cons value queue =>
      rw [ReadableStream.read_chunk hstatus hqueue]
      -- a chunk is queued, so neither a read nor a close is under way
      have hidle : pump.read = .idle := by
        by_contra hread
        cases hqueue.symm.trans (h.reading hread)
      have hopen : ¬pump.stream.closeRequested = true := by
        intro hclosing
        cases hqueue.symm.trans (h.closing hclosing)
      have hunasked : ¬0 < pump.stream.requests := by
        intro hasked
        cases hqueue.symm.trans (hflow.waiting hasked)
      rw [if_neg fun hlast => hopen hlast.1]
      exact Emptied.call ⟨fun hread => absurd hidle hread, fun hclosing => absurd hclosing hopen⟩
        fun hasked => absurd hasked hunasked

theorem Emptied.resume (h : pump.Emptied) (hflow : Flowing chunks ending pump)
    {result : Settled Chunk Err} (hread : pump.read = .settled result) :
    (pump.taken.resume result).Emptied := by
  have hqueue : pump.stream.queue = [] := h.reading (by simp [hread])
  cases result with
  | done =>
    rw [Repump.resume]
    split
    · next stream hclose =>
      rw [emptied_finish]
      apply emptied_of_queue
      rw [ReadableStream.close] at hclose
      split at hclose
      · rw [← Option.some.inj hclose]
        show (if pump.stream.queue = [] then _ else _ : ReadableStream Chunk Err).queue = []
        rw [if_pos hqueue]
        exact hqueue
      · cases hclose
    · rw [emptied_finish]
      exact emptied_of_queue hqueue
  | failed error =>
    rw [Repump.resume, emptied_finish]
    apply emptied_of_queue
    show (pump.stream.error error).queue = []
    rw [ReadableStream.error]
    split
    · rfl
    · exact hqueue
  | chunk value =>
    rw [Repump.resume]
    split
    · next answer henqueue =>
      have hopen := hflow.open_of_settled hread
      rw [ReadableStream.enqueue] at henqueue
      split at henqueue
      · split at henqueue
        · rw [← Option.some.inj henqueue]
          exact Emptied.call (emptied_of_queue hqueue) fun _ => hqueue
        · next hnone =>
          rw [← Option.some.inj henqueue]
          refine Emptied.call ⟨fun hbusy => absurd rfl hbusy, fun hclosing => ?_⟩
            fun hasked => absurd hasked hnone
          cases hopen.symm.trans hclosing
      · cases henqueue
    · rw [emptied_finish]
      exact emptied_of_queue hqueue

theorem Emptied.step (h : pump.Emptied) (hflow : Flowing chunks ending pump)
    {event : RepumpEvent} (hstep : pump.step event = some next) : next.Emptied := by
  cases event with
  | read =>
    cases hstep
    exact h.read hflow
  | cancel =>
    rw [Repump.step] at hstep
    split_ifs at hstep with hcalled
    · cases hstep
      rw [emptied_finish]
      apply emptied_of_queue
      show pump.stream.cancel.1.queue = []
      rw [ReadableStream.cancel] at hcalled ⊢
      split at hcalled
      · rfl
      · cases hcalled
    · cases hstep
      exact h
  | start =>
    rw [Repump.step] at hstep
    split_ifs at hstep
    cases hstep
    exact Emptied.call ⟨h.reading, h.closing⟩ hflow.waiting
  | settle =>
    rw [Repump.step] at hstep
    split at hstep
    · next hwaiting =>
      have hqueue : pump.stream.queue = [] := h.reading (by simp [hwaiting])
      rw [Repump.settle] at hstep
      split at hstep
      all_goals cases hstep
      all_goals exact emptied_of_queue hqueue
    · cases hstep
  | resume =>
    rw [Repump.step] at hstep
    split at hstep
    · next result hread =>
      cases hstep
      rw [resume_taken]
      exact h.resume hflow hread
    · cases hstep
  | pullFulfilled =>
    rw [Repump.step] at hstep
    split_ifs at hstep
    cases hstep
    rw [ReadableStream.pullFulfilled]
    split_ifs
    · exact Emptied.call ⟨h.reading, h.closing⟩ hflow.waiting
    · exact ⟨h.reading, h.closing⟩

/-- The consumer has all that it will get. -/
theorem Emptied.shut (h : pump.Emptied) (hflow : Flowing chunks ending pump) (hhooked : pump.Hooked)
    (hfinished : pump.finished = true) : pump.stream.isReadable = false := by
  rcases hhooked.ended.mp hfinished with hclosing | ⟨error, herrored⟩ | hcancelled
  · exact hflow.drained hclosing (h.closing hclosing)
  · simp [ReadableStream.isReadable, herrored]
  · simp [ReadableStream.isReadable, (hflow.cancelled hcancelled).1]

theorem Reached.emptied {before events : List RepumpEvent} (h : Reached chunks ending before pump)
    (hempty : pump.Emptied) (hrun : events.foldlM Repump.step pump = some next) :
    next.Emptied := by
  induction events generalizing before pump with
  | nil =>
    cases hrun
    exact hempty
  | cons event events ih =>
    obtain ⟨middle, hstep, hrun⟩ := Option.bind_eq_some_iff.mp hrun
    exact ih (h.step hstep) (hempty.step h.flowing hstep) hrun

theorem emptied_after {events : List RepumpEvent}
    (hrun : Repump.after chunks ending events = some pump) : pump.Emptied :=
  (reached_start chunks ending).emptied (emptied_of_queue rfl) hrun

/-! ### The end of the source -/

theorem Reached.finishes_eq_one {events : List RepumpEvent}
    (h : Reached chunks ending events pump) :
    finishes pump.calls = 1 ↔ pump.finished = true := by
  rw [h.hooked.reported.count]
  split_ifs with hdone <;> simp [hdone]

theorem step_resume {result : Settled Chunk Err} (hread : pump.read = .settled result) :
    pump.step .resume = some (pump.taken.resume result) := by
  rw [Repump.step, hread]
  exact congrArg some (resume_taken pump result)

/-- The read that finds the end closes the stream. -/
theorem Reached.ends {events : List RepumpEvent} (h : Reached chunks ending events pump)
    (hempty : pump.Emptied) (hcancel : .cancel ∉ events) (hread : pump.read = .settled .done) :
    ∃ next, pump.step .resume = some next ∧ next.stream.status = .closed ∧
      finishes next.calls = 1 := by
  have hlive : pump.source.cancelled ≠ true := fun hcancelled => hcancel (h.byCancel hcancelled)
  have hended := (h.flowing.atEnd (Bool.eq_false_iff.mpr hlive) hread).2
  have hopen := h.flowing.open_of_settled hread
  have hstatus : pump.stream.status = .readable := by
    rcases h.flowing.open_or_dropped hopen with hstatus | hcancelled | ⟨error, herrored⟩
    · exact hstatus
    · exact absurd hcancelled hlive
    · cases hended.symm.trans (h.failing error herrored)
  have hqueue : pump.stream.queue = [] := hempty.reading (by simp [hread])
  have hclose : pump.taken.stream.close =
      some { pump.stream with closeRequested := true }.closed := by
    have hcan : pump.stream.canCloseOrEnqueue = true := by
      rw [ReadableStream.canCloseOrEnqueue, hopen, ReadableStream.isReadable, hstatus]
      rfl
    show pump.stream.close = _
    rw [ReadableStream.close, if_pos hcan]
    exact congrArg some (if_pos hqueue)
  have hstep := step_resume hread
  rw [Repump.resume, hclose] at hstep
  refine ⟨_, hstep, ?_, ?_⟩
  · rw [finish_stream]
    rfl
  · exact (h.step hstep).finishes_eq_one.mpr (finished_finish _)

/-- The read that fails errors the stream with what it failed with. -/
theorem Reached.fails {events : List RepumpEvent} (h : Reached chunks ending events pump)
    (hcancel : .cancel ∉ events) {error : Err} (hread : pump.read = .settled (.failed error)) :
    ∃ next, pump.step .resume = some next ∧ next.stream.status = .errored error ∧
      finishes next.calls = 1 := by
  have hlive : pump.source.cancelled ≠ true := fun hcancelled => hcancel (h.byCancel hcancelled)
  have hfailed := (h.flowing.failing error hread).2
  have hstatus : (pump.stream.error error).status = .errored error := by
    rcases h.flowing.open_or_dropped (h.flowing.open_of_settled hread) with
      hstatus | hcancelled | ⟨other, herrored⟩
    · simp [ReadableStream.error, hstatus]
    · exact absurd hcancelled hlive
    · cases hfailed.symm.trans (h.failing other herrored)
      simp [ReadableStream.error, herrored]
  have hstep := step_resume hread
  rw [Repump.resume] at hstep
  refine ⟨_, hstep, ?_, ?_⟩
  · rw [finish_stream]
    exact hstatus
  · exact (h.step hstep).finishes_eq_one.mpr (finished_finish _)

end Repump

/-! ### The re-pump as a whole -/

/-- What a re-pump owes to its consumer and to its hooks after the events of a run. -/
structure FaithfulPump (chunks : List Chunk) (ending : SourceEnding Err)
    (events : List RepumpEvent) (pump : Repump Chunk Err) : Prop where
  delivered : pump.stream.received <+: chunks
  complete : .cancel ∉ events → pump.stream.status = .closed →
    pump.stream.received = chunks ∧ ending = .ended
  /-- A consumer that reads on gets all: the callbacks come to rest, with all delivered. -/
  readOn : .cancel ∉ events → ending = .ended → pump.AtRest →
    chunks.length < events.count .read →
      pump.stream.received = chunks ∧ pump.stream.status = .closed ∧ finishes pump.calls = 1
  /-- One that reads on is told of a failure. -/
  failOn : ∀ error, .cancel ∉ events → ending = .failed error → pump.AtRest →
    chunks.length < events.count .read →
      pump.stream.status = .errored error ∧ finishes pump.calls = 1
  /-- Where the end has been read, it is passed on next, and a failure likewise. -/
  ends : .cancel ∉ events → pump.read = .settled .done →
    ∃ next, pump.step .resume = some next ∧ next.stream.status = .closed ∧
      finishes next.calls = 1
  fails : ∀ error, .cancel ∉ events → pump.read = .settled (.failed error) →
    ∃ next, pump.step .resume = some next ∧ next.stream.status = .errored error ∧
      finishes next.calls = 1
  rests : ∀ (more : List RepumpEvent) (next : Repump Chunk Err),
    (∀ event ∈ more, event.isInternal = true) → more.foldlM Repump.step pump = some next →
      more.length ≤ pump.pending
  finishOnce : finishes pump.calls ≤ 1
  finish : finishes pump.calls = 1 ↔
    pump.stream.closeRequested = true ∨ pump.Errored ∨ .cancel ∈ events
  readErrors : ∀ error, .onReadError error ∈ pump.calls →
    ending = .failed error ∧ pump.source.remaining = []
  unlocked : .onLocked ∉ pump.calls
  released : heldReleases pump.calls = finishes pump.calls

/-- A locked body is told so and never pumped; any other is pumped faithfully, whatever the
consumer, the source and the callbacks do in whatever order. -/
theorem repumpStream_faithful {Chunk Err : Type} (chunks : List Chunk)
    (ending : SourceEnding Err) :
    repumpStream true chunks ending = ([.onLocked], none) ∧
      heldReleases [(.onLocked : HookCall Err)] = 1 ∧
      ∀ events pump, Repump.after chunks ending events = some pump →
        FaithfulPump chunks ending events pump := by
  refine ⟨rfl, rfl, fun events pump hafter => ?_⟩
  have h := Repump.reached_after hafter
  have hempty := Repump.emptied_after hafter
  have honce : finishes pump.calls ≤ 1 := by
    rw [h.hooked.reported.count]
    split_ifs <;> omega
  have hfinish : finishes pump.calls = 1 ↔
      pump.stream.closeRequested = true ∨ pump.Errored ∨ .cancel ∈ events := by
    rw [h.finishes_eq_one]
    constructor
    · intro hdone
      rcases h.hooked.ended.mp hdone with hclosing | herrored | hcancelled
      · exact .inl hclosing
      · exact .inr (.inl herrored)
      · exact .inr (.inr (h.byCancel hcancelled))
    · rintro (hclosing | herrored | hcancel)
      · exact h.hooked.ended.mpr (.inl hclosing)
      · exact h.hooked.ended.mpr (.inr (.inl herrored))
      · exact h.onCancel hcancel
  refine {
    delivered := h.flowing.part
    complete := h.received_of_closed
    readOn := fun hcancel hended hrest hreads => ?_
    failOn := fun error hcancel hfailed hrest hreads => ?_
    ends := h.ends hempty
    fails := fun error hcancel => h.fails hcancel
    rests := fun more next hmore hrun => h.rests hmore hrun
    finishOnce := honce
    finish := hfinish
    readErrors := fun error herror => ?_
    unlocked := h.hooked.reported.unlocked
    released := heldReleases_finishes h.hooked.reported.unlocked honce }
  · obtain ⟨hclosed, hall⟩ :=
      (h.told_at_rest hcancel (by simp [hended]) hrest hreads).1 hended
    refine ⟨hall, hclosed, hfinish.mpr (.inl ?_)⟩
    apply (h.flowing.closed hclosed).resolve_left
    exact fun hcancelled => hcancel (h.byCancel hcancelled)
  · have herrored := (h.told_at_rest hcancel (by simp [hfailed]) hrest hreads).2 error hfailed
    exact ⟨herrored, hfinish.mpr (.inr (.inl ⟨error, herrored⟩))⟩
  · obtain ⟨hfailed, hnone⟩ := h.hooked.reported.errors error herror
    exact ⟨h.flowing.source.symm.trans hfailed, hnone⟩

/-- A cancel with the second read parked. -/
theorem repumpStream_faithful_parked :
    ∃ pump, Repump.after [1, 2] (.ended : SourceEnding ℕ)
        [.start, .read, .settle, .resume, .pullFulfilled, .cancel, .resume] = some pump ∧
      FaithfulPump [1, 2] .ended
        [.start, .read, .settle, .resume, .pullFulfilled, .cancel, .resume] pump := by
  have hruns : (Repump.after [1, 2] (.ended : SourceEnding ℕ)
      [.start, .read, .settle, .resume, .pullFulfilled, .cancel, .resume]).isSome := by
    decide +kernel
  obtain ⟨pump, hpump⟩ := Option.isSome_iff_exists.mp hruns
  exact ⟨pump, hpump, (repumpStream_faithful [1, 2] .ended).2.2 _ _ hpump⟩

end Keala.Http
