import Keala.Http.RepumpFlow

/-!
The runs of a re-pump: its hooks fire as they say, its consumer gets what the
source has, and the callbacks come to rest with no read left waiting.
-/

namespace Keala.Http

variable {Chunk Err : Type} {chunks : List Chunk} {ending : SourceEnding Err}

/-! ### The hooks -/

def HookCall.isFinish : HookCall Err → Bool
  | .onFinish => true
  | _ => false

def finishes (calls : List (HookCall Err)) : ℕ := calls.countP HookCall.isFinish

/-- The events that are no doing of the consumer. -/
def RepumpEvent.isInternal : RepumpEvent → Bool
  | .read => false
  | .cancel => false
  | _ => true

namespace Repump

variable {pump next : Repump Chunk Err}

def Over (pump : Repump Chunk Err) : Prop :=
  pump.stream.closeRequested = true ∨ pump.Errored ∨ pump.source.cancelled = true

structure Reported (pump : Repump Chunk Err) : Prop where
  count : finishes pump.calls = if pump.finished then 1 else 0
  errors : ∀ error, .onReadError error ∈ pump.calls →
    pump.source.ending = .failed error ∧ pump.source.remaining = []
  unlocked : .onLocked ∉ pump.calls

theorem Reported.finish (h : pump.Reported) : pump.finish.Reported := by
  rw [Repump.finish]
  split_ifs with hfinished
  · exact h
  · refine ⟨?_, fun error herror => ?_, ?_⟩
    · show finishes (pump.calls ++ [.onFinish]) = 1
      rw [finishes, List.countP_append]
      have hcount := h.count
      rw [if_neg hfinished, finishes] at hcount
      rw [hcount]
      rfl
    · exact h.errors error (by simpa using herror)
    · simpa using h.unlocked

theorem finished_finish (pump : Repump Chunk Err) : pump.finish.finished = true := by
  rw [Repump.finish]
  split_ifs with hfinished
  · exact hfinished
  · rfl

theorem over_finish : pump.finish.Over ↔ pump.Over := by
  rw [Repump.finish]
  split_ifs
  · rfl
  · rfl

/-- The pump has finished just when it is over, and its hooks know. -/
structure Hooked (pump : Repump Chunk Err) : Prop where
  reported : pump.Reported
  ended : pump.finished = true ↔ pump.Over

theorem Hooked.finish (h : pump.Reported) (hover : pump.Over) : pump.finish.Hooked :=
  ⟨h.finish, by simp [finished_finish, over_finish, hover]⟩

/-- Where nothing that the hooks speak of has changed. -/
theorem Hooked.keep (h : pump.Hooked) (hfinished : next.finished = pump.finished)
    (hcalls : next.calls = pump.calls) (hending : next.source.ending = pump.source.ending)
    (hremaining : pump.source.remaining = [] → next.source.remaining = [])
    (hover : next.Over ↔ pump.Over) : next.Hooked := by
  refine ⟨⟨?_, fun error herror => ?_, ?_⟩, ?_⟩
  · rw [hcalls, hfinished]
    exact h.reported.count
  · rw [hcalls] at herror
    obtain ⟨hfailed, hnone⟩ := h.reported.errors error herror
    exact ⟨hending.trans hfailed, hremaining hnone⟩
  · rw [hcalls]
    exact h.reported.unlocked
  · rw [hfinished, hover]
    exact h.ended

/-- A stream in the same condition. -/
theorem Hooked.withStream (h : pump.Hooked) {answer : ReadableStream Chunk Err × Bool}
    (hclosing : answer.1.closeRequested = pump.stream.closeRequested)
    (herrored : ∀ error, answer.1.status = .errored error ↔ pump.stream.status = .errored error) :
    (pump.withStream answer).Hooked := by
  have hover : (pump.withStream answer).Over ↔ pump.Over := by
    rw [Repump.withStream]
    split_ifs
    · simp [Over, Errored, hclosing, herrored]
    · simp [Over, Errored, hclosing, herrored]
  apply h.keep _ _ _ _ hover
  all_goals
    rw [Repump.withStream]
    split_ifs
  all_goals first | rfl | exact id

theorem read_condition (stream : ReadableStream Chunk Err) :
    stream.read.1.closeRequested = stream.closeRequested ∧
      ∀ error, stream.read.1.status = .errored error ↔ stream.status = .errored error := by
  cases hstatus : stream.status with
  | closed =>
    rw [ReadableStream.read_closed hstatus]
    exact ⟨rfl, fun error => by simp [hstatus]⟩
  | errored error =>
    rw [ReadableStream.read_errored hstatus]
    exact ⟨rfl, fun error => by simp [hstatus]⟩
  | readable =>
    cases hqueue : stream.queue with
    | nil =>
      rw [ReadableStream.read_waiting hstatus hqueue]
      simp [hstatus]
    | cons value queue =>
      rw [ReadableStream.read_chunk hstatus hqueue]
      split_ifs
      · exact ⟨rfl, fun error => by simp [ReadableStream.closed]⟩
      · simp [hstatus]

/-- Where the stream takes nothing more, something has ended it. -/
theorem Flowing.over_of_shut (h : Flowing chunks ending pump)
    (hshut : pump.stream.canCloseOrEnqueue = false) : pump.Over := by
  cases hclosing : pump.stream.closeRequested with
  | true => exact .inl hclosing
  | false =>
    rcases h.open_or_dropped hclosing with hstatus | hcancelled | herrored
    · simp [ReadableStream.canCloseOrEnqueue, hclosing, ReadableStream.isReadable, hstatus] at hshut
    · exact .inr (.inr hcancelled)
    · exact .inr (.inl herrored)

theorem Hooked.resume (h : pump.Hooked) (hflow : Flowing chunks ending pump)
    {result : Settled Chunk Err} (hread : pump.read = .settled result) :
    (pump.taken.resume result).Hooked := by
  have htaken : pump.taken.Hooked := h.keep rfl rfl rfl id Iff.rfl
  cases result with
  | done =>
    -- The end closes the stream, unless that is shut already.
    rw [Repump.resume]
    split
    · next stream hclose =>
      rw [ReadableStream.close] at hclose
      split at hclose
      · cases hclose
        apply Hooked.finish
        · exact { htaken.reported with }
        · left
          dsimp only
          split_ifs <;> rfl
      · cases hclose
    · next hclose =>
      apply Hooked.finish htaken.reported
      apply hflow.over_of_shut
      rw [ReadableStream.close] at hclose
      split at hclose
      · cases hclose
      · next hcan => exact Bool.eq_false_iff.mpr hcan
  | failed error =>
    obtain ⟨hnone, hfailed⟩ := hflow.failing error hread
    rw [Repump.resume]
    apply Hooked.finish
    · refine ⟨?_, fun other hother => ?_, ?_⟩
      · show finishes (pump.calls ++ [.onReadError error]) = if pump.finished then 1 else 0
        rw [← h.reported.count, finishes, finishes, List.countP_append]
        rfl
      · rcases List.mem_append.mp hother with hother | hother
        · exact h.reported.errors other hother
        · cases List.mem_singleton.mp hother
          exact ⟨hflow.source.trans hfailed, hnone⟩
      · simpa [Repump.taken] using h.reported.unlocked
    · have hopen := hflow.open_of_settled hread
      rcases hflow.open_or_dropped hopen with hstatus | hcancelled | herrored
      · exact .inr (.inl ⟨error, by simp [Repump.taken, ReadableStream.error, hstatus]⟩)
      · exact .inr (.inr hcancelled)
      · obtain ⟨other, herror⟩ := herrored
        exact .inr (.inl ⟨other, by simp [Repump.taken, ReadableStream.error, herror]⟩)
  | chunk value =>
    -- A chunk that cannot be enqueued finds the stream shut.
    rw [Repump.resume]
    split
    · next answer henqueue =>
      rw [ReadableStream.enqueue] at henqueue
      split_ifs at henqueue
      · cases henqueue
        exact htaken.withStream (by simp) (by simp)
      · cases henqueue
        exact htaken.withStream (by simp) (by simp)
    · next henqueue =>
      apply Hooked.finish htaken.reported
      apply hflow.over_of_shut
      rw [ReadableStream.enqueue] at henqueue
      split_ifs at henqueue with hcan
      exact Bool.eq_false_iff.mpr hcan

theorem Hooked.step (h : pump.Hooked) (hflow : Flowing chunks ending pump) {event : RepumpEvent}
    (hstep : pump.step event = some next) : next.Hooked := by
  cases event with
  | read =>
    cases hstep
    exact h.withStream (read_condition _).1 (read_condition _).2
  | cancel =>
    rw [Repump.step] at hstep
    split_ifs at hstep
    · cases hstep
      apply Hooked.finish
      · exact { h.reported with }
      · exact .inr (.inr rfl)
    · cases hstep
      exact h
  | start =>
    rw [Repump.step] at hstep
    split_ifs at hstep
    cases hstep
    exact h.withStream (by simp [ReadableStream.start]) (by simp [ReadableStream.start])
  | settle =>
    rw [Repump.step] at hstep
    split at hstep
    · rw [Repump.settle] at hstep
      split at hstep
      · next value remaining hremaining =>
        cases hstep
        exact h.keep rfl rfl rfl (fun hnone => by cases hremaining.symm.trans hnone) Iff.rfl
      · cases hstep
        exact h.keep rfl rfl rfl id Iff.rfl
      · cases hstep
        exact h.keep rfl rfl rfl id Iff.rfl
      · cases hstep
    · cases hstep
  | resume =>
    rw [Repump.step] at hstep
    split at hstep
    · next result hread =>
      cases hstep
      rw [resume_taken]
      exact h.resume hflow hread
    · cases hstep
  | pullFulfilled =>
    rw [Repump.step] at hstep
    split_ifs at hstep
    cases hstep
    have hreturned : Hooked { pump with returned := false } := h.keep rfl rfl rfl id Iff.rfl
    apply hreturned.withStream
    · rw [ReadableStream.pullFulfilled]
      split_ifs <;> simp
    · rw [ReadableStream.pullFulfilled]
      split_ifs <;> simp

/-! ### Coming to rest -/

def phase (pump : Repump Chunk Err) : ℕ :=
  match pump.read with
  | .waiting => 4
  | .settled _ => 3
  | .idle => if pump.returned then (if pump.finished then 1 else 5) else 0

def pending (pump : Repump Chunk Err) : ℕ :=
  7 * (pump.source.remaining.length + (inTransit pump.read).length +
    (if pump.finished then 0 else 1)) + pump.phase + (if pump.stream.started then 0 else 5)

/-- Behind a pull that finishes the pump. -/
theorem pending_finish (hread : pump.read = .idle) (hreturned : pump.returned = true) :
    pump.finish.pending = 7 * pump.source.remaining.length + 1 +
      (if pump.stream.started then 0 else 5) := by
  by_cases hbefore : pump.finished = true
  · simp [Repump.finish, pending, phase, hread, hreturned, hbefore, inTransit]
  · simp [Repump.finish, pending, phase, hread, hreturned, hbefore, inTransit]

theorem Flowing.not_over (h : Flowing chunks ending pump)
    (hopen : pump.stream.canCloseOrEnqueue = true) : ¬pump.Over := by
  obtain ⟨hrequested, hreadable⟩ := Bool.and_eq_true_iff.mp hopen
  have hstatus := ReadableStream.isReadable_iff.mp hreadable
  rintro (hclosing | herrored | hcancelled)
  · simp [hclosing] at hrequested
  · exact h.not_dropped hstatus (.inr herrored)
  · exact h.not_dropped hstatus (.inl hcancelled)

/-- A pull is called only of a pump that is not over, and then it is all that is new. -/
theorem Flowing.pending_call {stream : ReadableStream Chunk Err}
    (h : Flowing chunks ending { pump with stream := stream }) :
    (pump.withStream stream.callPullIfNeeded).pending = pending { pump with stream := stream } ∨
      ¬Over { pump with stream := stream } ∧
        (pump.withStream stream.callPullIfNeeded).pending =
          pending { pump with stream := stream } + 4 := by
  rw [Repump.withStream, ReadableStream.callPullIfNeeded_flag]
  split_ifs with hflag
  · obtain ⟨hshould, hpulling⟩ := Bool.and_eq_true_iff.mp hflag
    obtain ⟨hidle, hreturned⟩ := not_or.mp (h.busy.not.mp (by simpa using hpulling))
    replace hidle : pump.read = .idle := not_not.mp hidle
    replace hreturned : pump.returned = false := Bool.eq_false_iff.mpr hreturned
    right
    refine ⟨h.not_over ?_, ?_⟩
    · simp only [ReadableStream.shouldCallPull, Bool.and_eq_true] at hshould
      exact hshould.1.1
    · simp only [pending, phase, hidle, hreturned, inTransit,
        ReadableStream.callPullIfNeeded_started]
      simp only [Bool.false_eq_true, if_false, List.length_nil]
      omega
  · left
    simp [pending, phase]

theorem pending_settled (pump : Repump Chunk Err) {result : Settled Chunk Err}
    (hread : pump.read = .settled result) :
    pump.pending = 7 * (pump.source.remaining.length + (inTransit (.settled result)).length +
      (if pump.finished then 0 else 1)) + 3 + (if pump.stream.started then 0 else 5) := by
  rw [pending, phase, hread]

theorem pending_taken (pump : Repump Chunk Err) (stream : ReadableStream Chunk Err) :
    pending { pump.taken with stream := stream } = 7 * (pump.source.remaining.length +
      (if pump.finished then 0 else 1)) + (if pump.finished then 1 else 5) +
        (if stream.started then 0 else 5) := rfl

theorem pending_withStream (hread : pump.read = .idle) (answer : ReadableStream Chunk Err × Bool) :
    (pump.withStream answer).pending ≤ pending { pump with stream := answer.1 } + 4 := by
  rw [Repump.withStream]
  split_ifs
  · simp only [pending, phase, hread, inTransit]
    omega
  · omega

theorem pending_resume {result : Settled Chunk Err} (hread : pump.read = .settled result) :
    (pump.taken.resume result).pending < pump.pending := by
  have hfinish : ∀ next : Repump Chunk Err, next.read = .idle → next.returned = true →
      next.source.remaining = pump.source.remaining →
      next.stream.started = pump.stream.started → next.finish.pending < pump.pending := by
    intro next hidle hreturned hremaining hstarted
    rw [pending_finish hidle hreturned, hremaining, hstarted, pending_settled pump hread]
    omega
  cases result with
  | done =>
    rw [Repump.resume]
    split
    · next stream hclose =>
      apply hfinish { pump.taken with stream := stream } rfl rfl rfl
      rw [ReadableStream.close] at hclose
      split at hclose
      · cases hclose
        dsimp only
        split_ifs <;> rfl
      · cases hclose
    · exact hfinish pump.taken rfl rfl rfl rfl
  | failed error =>
    apply hfinish { pump.taken with
      stream := pump.stream.error error
      calls := pump.calls ++ [.onReadError error] } rfl rfl rfl
    show (pump.stream.error error).started = pump.stream.started
    rw [ReadableStream.error]
    split <;> rfl
  | chunk value =>
    rw [Repump.resume]
    split
    · next answer henqueue =>
      have hstarted : answer.1.started = pump.stream.started := by
        rw [ReadableStream.enqueue] at henqueue
        split_ifs at henqueue
        · cases henqueue
          exact ReadableStream.callPullIfNeeded_started _
        · cases henqueue
          exact ReadableStream.callPullIfNeeded_started _
      have hbound := @pending_withStream _ _ pump.taken rfl answer
      rw [pending_taken, hstarted] at hbound
      rw [pending_settled pump hread]
      have hone : (inTransit (.settled (.chunk value : Settled Chunk Err))).length = 1 := rfl
      split_ifs at hbound ⊢ <;> omega
    · exact hfinish pump.taken rfl rfl rfl rfl

/-- Each event without the consumer leaves less to do. -/
theorem Hooked.pending_step (h : pump.Hooked) (hflow : Flowing chunks ending pump)
    {event : RepumpEvent} (hinternal : event.isInternal = true)
    (hstep : pump.step event = some next) : next.pending < pump.pending := by
  cases event with
  | read => cases hinternal
  | cancel => cases hinternal
  | start =>
    rw [Repump.step] at hstep
    split_ifs at hstep with hstarted
    cases hstep
    -- Nothing is read before the stream has started.
    have hidle : pump.read = .idle := by
      by_contra hbusy
      have hpulling := hflow.busy.mpr (.inl hbusy)
      cases hpulling.symm.trans (hflow.late (Bool.eq_false_iff.mpr hstarted))
    have hbound := pending_withStream hidle pump.stream.start
    have hbegun : pending { pump with stream := pump.stream.start.1 } + 5 = pump.pending := by
      simp [pending, phase, hidle, ReadableStream.start, hstarted]
    omega
  | settle =>
    rw [Repump.step] at hstep
    split at hstep
    · next hwaiting =>
      rw [Repump.settle] at hstep
      split at hstep
      · next value remaining hremaining =>
        cases hstep
        simp only [pending, phase, hwaiting, hremaining, inTransit, List.length_cons,
          List.length_nil]
        omega
      · cases hstep
        simp only [pending, phase, hwaiting, inTransit]
        omega
      · cases hstep
        simp only [pending, phase, hwaiting, inTransit]
        omega
      · cases hstep
    · cases hstep
  | resume =>
    rw [Repump.step] at hstep
    split at hstep
    · next result hread =>
      cases hstep
      rw [resume_taken]
      exact pending_resume hread
    · cases hstep
  | pullFulfilled =>
    rw [Repump.step] at hstep
    split_ifs at hstep with hreturned
    cases hstep
    have hidle := hflow.idle_of_returned hreturned
    -- The pull that has returned counts; at most one more takes its place.
    have hrest : ∀ again : Bool, pending { pump with
        returned := false
        stream := { pump.stream with pulling := false, pullAgain := again } } +
          (if pump.finished then 1 else 5) = pump.pending := by
      intro again
      simp only [pending, phase, hidle, hreturned, Bool.false_eq_true, if_false, if_true]
      omega
    have hless : ∀ again : Bool, pending { pump with
        returned := false
        stream := { pump.stream with pulling := false, pullAgain := again } } < pump.pending := by
      intro again
      have hbefore := hrest again
      split_ifs at hbefore <;> omega
    rw [ReadableStream.pullFulfilled]
    split_ifs with hagain
    · have hcall := @Flowing.pending_call _ _ _ _ { pump with returned := false }
        { pump.stream with pulling := false, pullAgain := false } (hflow.rested hreturned false)
      have hfinished : pump.finished = true → pump.Over := h.ended.mp
      rcases hcall with hsame | ⟨hnot, hcalled⟩
      · exact lt_of_eq_of_lt hsame (hless false)
      · refine lt_of_eq_of_lt hcalled ?_
        have hbefore := hrest false
        rw [if_neg fun hdone => hnot (hfinished hdone)] at hbefore
        exact Nat.lt_of_lt_of_eq (Nat.add_lt_add_left (show 4 < 5 by omega) _) hbefore
    · exact hless pump.stream.pullAgain

/-- No event is left but those of the consumer. -/
def AtRest (pump : Repump Chunk Err) : Prop :=
  ∀ event : RepumpEvent, event.isInternal = true → pump.step event = none

/-- At rest no read waits, unless the source stalls. -/
theorem Flowing.served_at_rest (h : Flowing chunks ending pump) (hserved : pump.Served)
    (hrest : pump.AtRest) (hending : ending ≠ .stalled) : pump.stream.requests = 0 := by
  by_contra hsome
  have hstarted : pump.stream.started = true := by
    by_contra hnot
    have hstart := hrest .start rfl
    simp [Repump.step, hnot] at hstart
  have hback : pump.returned = false := by
    by_contra hreturned
    have hfulfilled := hrest .pullFulfilled rfl
    simp [Repump.step, hreturned] at hfulfilled
  obtain ⟨hpulling, -⟩ := hserved (Nat.pos_of_ne_zero hsome) hstarted
  rcases h.busy.mp hpulling with hbusy | hreturned
  · cases hread : pump.read with
    | idle => exact hbusy hread
    | settled result =>
      have hresume := hrest .resume rfl
      simp [Repump.step, hread] at hresume
    | waiting =>
      have hsettle := hrest .settle rfl
      have hsource := h.source
      rw [Repump.step, hread] at hsettle
      dsimp only at hsettle
      rw [Repump.settle] at hsettle
      split at hsettle
      · cases hsettle
      · cases hsettle
      · cases hsettle
      · next hstalled => exact hending (hsource.symm.trans hstalled)
  · cases hback.symm.trans hreturned

/-! ### The parts of a step -/

@[simp] theorem withStream_stream (pump : Repump Chunk Err)
    (answer : ReadableStream Chunk Err × Bool) : (pump.withStream answer).stream = answer.1 := by
  rw [Repump.withStream]
  split_ifs <;> rfl

@[simp] theorem withStream_source (pump : Repump Chunk Err)
    (answer : ReadableStream Chunk Err × Bool) :
    (pump.withStream answer).source = pump.source := by
  rw [Repump.withStream]
  split_ifs <;> rfl

@[simp] theorem withStream_finished (pump : Repump Chunk Err)
    (answer : ReadableStream Chunk Err × Bool) :
    (pump.withStream answer).finished = pump.finished := by
  rw [Repump.withStream]
  split_ifs <;> rfl

@[simp] theorem finish_stream (pump : Repump Chunk Err) : pump.finish.stream = pump.stream := by
  rw [Repump.finish]
  split_ifs <;> rfl

@[simp] theorem finish_source (pump : Repump Chunk Err) : pump.finish.source = pump.source := by
  rw [Repump.finish]
  split_ifs <;> rfl

/-- What a pull makes of the stream, of the source and of the once-guard. -/
theorem resume_parts {result : Settled Chunk Err} {reads : ℕ}
    (h : pump.stream.Answered reads) :
    (pump.taken.resume result).stream.Answered reads ∧
      (pump.taken.resume result).source = pump.source ∧
      (pump.finished = true → (pump.taken.resume result).finished = true) ∧
      ∀ error, (pump.taken.resume result).stream.status = .errored error →
        pump.stream.status = .errored error ∨ result = .failed error := by
  cases result with
  | done =>
    rw [Repump.resume]
    split
    · next stream hclose =>
      refine ⟨?_, by simp [taken], fun _ => finished_finish _, fun error herror => .inl ?_⟩
      · rw [finish_stream]
        exact h.close hclose
      · rw [finish_stream] at herror
        rw [ReadableStream.close] at hclose
        split at hclose
        · cases hclose
          dsimp only at herror
          split_ifs at herror
          · cases herror
          · exact herror
        · cases hclose
    · refine ⟨?_, by simp [taken], fun _ => finished_finish _,
        fun error herror => .inl (by simpa [taken] using herror)⟩
      rw [finish_stream]
      exact h
  | failed error =>
    refine ⟨?_, by simp [Repump.resume, taken], fun _ => finished_finish _, fun other hother => ?_⟩
    · rw [Repump.resume, finish_stream]
      exact h.failed error
    · rw [Repump.resume, finish_stream] at hother
      replace hother : (pump.stream.error error).status = .errored other := hother
      rw [ReadableStream.error] at hother
      split at hother
      · cases hother
        exact .inr rfl
      · exact .inl hother
  | chunk value =>
    rw [Repump.resume]
    split
    · next answer henqueue =>
      refine ⟨?_, by simp [taken], fun hfinished => by simpa [taken] using hfinished,
        fun error herror => .inl ?_⟩
      · rw [withStream_stream]
        exact h.enqueue henqueue
      · rw [withStream_stream] at herror
        rw [ReadableStream.enqueue] at henqueue
        split_ifs at henqueue
        · cases henqueue
          simpa [taken] using herror
        · cases henqueue
          simpa [taken] using herror
    · refine ⟨?_, by simp [taken], fun _ => finished_finish _,
        fun error herror => .inl (by simpa [taken] using herror)⟩
      rw [finish_stream]
      exact h

/-! ### Runs -/

structure Reached (chunks : List Chunk) (ending : SourceEnding Err) (events : List RepumpEvent)
    (pump : Repump Chunk Err) : Prop where
  flowing : Flowing chunks ending pump
  served : pump.Served
  hooked : pump.Hooked
  answered : pump.stream.Answered (events.count .read)
  failing : ∀ error, pump.stream.status = .errored error → ending = .failed error
  byCancel : pump.source.cancelled = true → .cancel ∈ events
  onCancel : .cancel ∈ events → pump.finished = true

/-- A cancel leaves a pump that has finished. -/
theorem Hooked.finished_of_cancel (h : pump.Hooked) (hflow : Flowing chunks ending pump)
    (hstep : pump.step .cancel = some next) : next.finished = true := by
  rw [Repump.step] at hstep
  split_ifs at hstep with hcalled
  · cases hstep
    exact finished_finish _
  · cases hstep
    apply h.ended.mpr
    apply hflow.over_of_shut
    rw [ReadableStream.cancel] at hcalled
    split at hcalled
    · exact absurd rfl hcalled
    · next hstatus =>
      rw [ReadableStream.canCloseOrEnqueue, Bool.and_eq_false_iff]
      exact .inr (Bool.eq_false_iff.mpr fun hreadable =>
        hstatus (ReadableStream.isReadable_iff.mp hreadable))

/-- What a step makes of the answers, of the ways to end and of the once-guard. -/
theorem Reached.parts {events : List RepumpEvent} (h : Reached chunks ending events pump)
    {event : RepumpEvent} (hstep : pump.step event = some next) :
    next.stream.Answered (events.count .read + if event = .read then 1 else 0) ∧
      (∀ error, next.stream.status = .errored error → ending = .failed error) ∧
      (next.source.cancelled = true → pump.source.cancelled = true ∨ event = .cancel) ∧
      (pump.finished = true → next.finished = true) := by
  cases event with
  | read =>
    cases hstep
    rw [withStream_stream, withStream_source, withStream_finished]
    refine ⟨h.answered.read, fun error herror => h.failing error ?_, .inl, id⟩
    exact ((read_condition pump.stream).2 error).mp herror
  | cancel =>
    rw [Repump.step] at hstep
    split_ifs at hstep with hcalled
    · cases hstep
      refine ⟨?_, fun error herror => h.failing error ?_, fun _ => .inr rfl,
        fun _ => finished_finish _⟩
      · rw [finish_stream]
        exact h.answered.cancel
      · rw [finish_stream] at herror
        replace herror : pump.stream.cancel.1.status = .errored error := herror
        rw [ReadableStream.cancel] at herror
        split at herror
        · cases herror
        · exact herror
    · cases hstep
      exact ⟨h.answered, h.failing, .inl, id⟩
  | start =>
    rw [Repump.step] at hstep
    split_ifs at hstep
    cases hstep
    rw [withStream_stream, withStream_source, withStream_finished]
    refine ⟨?_, fun error herror => h.failing error ?_, .inl, id⟩
    · exact ReadableStream.Answered.callPull ⟨h.answered.tally, h.answered.done, h.answered.error⟩
    · simpa [ReadableStream.start] using herror
  | settle =>
    rw [Repump.step] at hstep
    split at hstep
    · rw [Repump.settle] at hstep
      split at hstep
      all_goals
        first
        | cases hstep
          exact ⟨h.answered, h.failing, .inl, id⟩
        | cases hstep
    · cases hstep
  | resume =>
    rw [Repump.step] at hstep
    split at hstep
    · next result hread =>
      cases hstep
      -- Only a failed read makes an error, which is the source's.
      rw [resume_taken]
      obtain ⟨hanswered, hsource, hfinished, herrored⟩ :=
        @resume_parts _ _ pump result _ h.answered
      refine ⟨hanswered, fun error herror => ?_, fun hcancelled => .inl ?_, hfinished⟩
      · rcases herrored error herror with hbefore | rfl
        · exact h.failing error hbefore
        · exact (h.flowing.failing error hread).2
      · rw [hsource] at hcancelled
        exact hcancelled
    · cases hstep
  | pullFulfilled =>
    rw [Repump.step] at hstep
    split_ifs at hstep
    cases hstep
    rw [withStream_stream, withStream_source, withStream_finished, ReadableStream.pullFulfilled]
    by_cases hagain : pump.stream.pullAgain = true
    · rw [if_pos hagain]
      refine ⟨?_, fun error herror => h.failing error ?_, .inl, id⟩
      · exact ReadableStream.Answered.callPull
          ⟨h.answered.tally, h.answered.done, h.answered.error⟩
      · simpa using herror
    · rw [if_neg hagain]
      exact ⟨⟨h.answered.tally, h.answered.done, h.answered.error⟩, h.failing, .inl, id⟩

theorem Reached.step {events : List RepumpEvent} (h : Reached chunks ending events pump)
    {event : RepumpEvent} (hstep : pump.step event = some next) :
    Reached chunks ending (events ++ [event]) next := by
  obtain ⟨hflowing, hserved⟩ := h.flowing.step h.served hstep
  obtain ⟨hanswered, hfailing, hcancelled, hfinished⟩ := h.parts hstep
  exact {
    flowing := hflowing
    served := hserved
    hooked := h.hooked.step h.flowing hstep
    answered := by
      have hcount : (events ++ [event]).count .read =
          events.count .read + if event = .read then 1 else 0 := by
        rw [List.count_append, List.count_singleton]
        simp only [beq_iff_eq]
      rw [hcount]
      exact hanswered
    failing := hfailing
    byCancel := fun hnow => by
      rcases hcancelled hnow with hbefore | rfl
      · exact List.mem_append_left _ (h.byCancel hbefore)
      · simp
    onCancel := fun hmem => by
      rcases List.mem_append.mp hmem with hbefore | hnow
      · exact hfinished (h.onCancel hbefore)
      · cases List.mem_singleton.mp hnow
        exact h.hooked.finished_of_cancel h.flowing hstep }

theorem Reached.run {before events : List RepumpEvent} (h : Reached chunks ending before pump)
    (hrun : events.foldlM Repump.step pump = some next) :
    Reached chunks ending (before ++ events) next := by
  induction events generalizing before pump with
  | nil =>
    cases hrun
    simpa using h
  | cons event events ih =>
    obtain ⟨middle, hstep, hrun⟩ := Option.bind_eq_some_iff.mp hrun
    have hrest := ih (h.step hstep) hrun
    rwa [List.append_assoc] at hrest

theorem reached_start (chunks : List Chunk) (ending : SourceEnding Err) :
    Reached chunks ending [] { source := { remaining := chunks, ending := ending } } where
  flowing := {
    source := rfl
    whole := fun _ => rfl
    part := List.nil_prefix
    closing := fun hclosing => by cases hclosing
    atEnd := fun _ hread => by cases hread
    failing := fun _ hread => by cases hread
    quiet := fun hquiet => by cases hquiet
    waiting := fun _ => rfl
    drained := fun hclosing => by cases hclosing
    closed := fun hclosed => by cases hclosed
    cancelled := fun hcancelled => by cases hcancelled
    busy := by simp
    once := fun hread => absurd rfl hread
    late := fun _ => rfl }
  served := served_quiet rfl
  hooked := {
    reported := ⟨rfl, fun _ hcall => absurd hcall List.not_mem_nil, List.not_mem_nil⟩
    ended := by simp [Over, Errored] }
  answered := ⟨rfl, fun hdone => absurd hdone List.not_mem_nil,
    fun _ herror => absurd herror List.not_mem_nil⟩
  failing := fun _ herror => by cases herror
  byCancel := fun hcancelled => by cases hcancelled
  onCancel := fun hcancel => absurd hcancel List.not_mem_nil

theorem reached_after {events : List RepumpEvent}
    (hrun : Repump.after chunks ending events = some pump) :
    Reached chunks ending events pump := by
  exact (reached_start chunks ending).run hrun

/-- A consumer that did not cancel and was told the end has all chunks. -/
theorem Reached.received_of_closed {events : List RepumpEvent}
    (h : Reached chunks ending events pump) (hcancel : .cancel ∉ events)
    (hclosed : pump.stream.status = .closed) :
    pump.stream.received = chunks ∧ ending = .ended := by
  have hlive : pump.source.cancelled ≠ true := fun hcancelled => hcancel (h.byCancel hcancelled)
  have hclosing := (h.flowing.closed hclosed).resolve_left hlive
  obtain ⟨hidle, hnone, hended⟩ := h.flowing.closing hclosing
  have hshut : pump.stream.isReadable = false := by
    rw [ReadableStream.isReadable, hclosed]
  have hwhole := h.flowing.whole ?_
  · rw [pipe, (h.flowing.quiet hshut).2, hidle, hnone] at hwhole
    exact ⟨by simpa [inTransit] using hwhole, hended⟩
  · rintro (hcancelled | ⟨error, herror⟩)
    · exact hlive hcancelled
    · cases hclosed.symm.trans herror

/-- A consumer that goes on reading until the callbacks have come to rest is told how the
source ended, and has all chunks of one that did not fail. -/
theorem Reached.told_at_rest {events : List RepumpEvent}
    (h : Reached chunks ending events pump) (hcancel : .cancel ∉ events)
    (hending : ending ≠ .stalled) (hrest : pump.AtRest)
    (hreads : chunks.length < events.count .read) :
    (ending = .ended → pump.stream.status = .closed ∧ pump.stream.received = chunks) ∧
      ∀ error, ending = .failed error → pump.stream.status = .errored error := by
  have hnone := h.flowing.served_at_rest h.served hrest hending
  have htally := h.answered.tally
  have hlast : ∃ answer ∈ pump.stream.answers, ∀ value, answer ≠ .chunk value := by
    by_contra hall
    push Not at hall
    have hlength : pump.stream.received.length = pump.stream.answers.length := by
      rw [ReadableStream.received, List.filterMap_length_eq_length]
      intro answer hanswer
      obtain ⟨value, rfl⟩ := hall answer hanswer
      rfl
    have hpart := h.flowing.part.length_le
    omega
  obtain ⟨answer, hanswer, hnotChunk⟩ := hlast
  cases answer with
  | chunk value => exact absurd rfl (hnotChunk value)
  | done =>
    have hclosed := h.answered.done hanswer
    obtain ⟨hall, hended⟩ := h.received_of_closed hcancel hclosed
    exact ⟨fun _ => ⟨hclosed, hall⟩, fun error hfailed => by cases hended.symm.trans hfailed⟩
  | error error =>
    have herrored := h.answered.error error hanswer
    have hfailed := h.failing error herrored
    refine ⟨fun hended => (by cases hended.symm.trans hfailed), fun other hother => ?_⟩
    cases hfailed.symm.trans hother
    exact herrored

/-- The callbacks come to rest: they cannot go on for longer than what is left to do. -/
theorem Reached.rests {events more : List RepumpEvent} (h : Reached chunks ending events pump)
    (hmore : ∀ event ∈ more, event.isInternal = true)
    (hrun : more.foldlM Repump.step pump = some next) : more.length ≤ pump.pending := by
  induction more generalizing events pump with
  | nil => exact Nat.zero_le _
  | cons event more ih =>
    obtain ⟨middle, hstep, hrun⟩ := Option.bind_eq_some_iff.mp hrun
    obtain ⟨hinternal, hmore⟩ := List.forall_mem_cons.mp hmore
    have hless := h.hooked.pending_step h.flowing hinternal hstep
    have hrest := ih (h.step hstep) hmore hrun
    rw [List.length_cons]
    omega

end Repump

/-! ### The slot that a body holds -/

def HookCall.releases : HookCall Err → Bool
  | .onReadError _ => false
  | _ => true

/-- The first of the calls that release does, and no later one. -/
theorem heldReleases_eq (calls : List (HookCall Err)) :
    heldReleases calls = if calls.any HookCall.releases then 1 else 0 := by
  have hkept : ∀ (calls : List (HookCall Err)) (n : ℕ),
      calls.foldl releaseHold (true, n) = (true, n) := by
    intro calls n
    induction calls with
    | nil => rfl
    | cons call calls ih => cases call <;> exact ih
  rw [heldReleases]
  induction calls with
  | nil => rfl
  | cons call calls ih =>
    cases call with
    | onReadError error => exact ih
    | onLocked =>
      rw [List.foldl_cons]
      exact congrArg Prod.snd (hkept calls 1)
    | onFinish =>
      rw [List.foldl_cons]
      exact congrArg Prod.snd (hkept calls 1)

theorem heldReleases_finishes {calls : List (HookCall Err)} (hlocked : .onLocked ∉ calls)
    (honce : finishes calls ≤ 1) : heldReleases calls = finishes calls := by
  have hsame : calls.any HookCall.releases = calls.any HookCall.isFinish := by
    rw [Bool.eq_iff_iff, List.any_eq_true, List.any_eq_true]
    constructor
    · rintro ⟨call, hcall, hreleases⟩
      cases call with
      | onFinish => exact ⟨_, hcall, rfl⟩
      | onLocked => exact absurd hcall hlocked
      | onReadError error => cases hreleases
    · rintro ⟨call, hcall, hfinish⟩
      cases call with
      | onFinish => exact ⟨_, hcall, rfl⟩
      | onLocked => cases hfinish
      | onReadError error => cases hfinish
  rw [heldReleases_eq, hsame]
  split_ifs with hany
  · obtain ⟨call, hcall, hfinish⟩ := List.any_eq_true.mp hany
    have hpos : 0 < finishes calls := List.countP_pos_iff.mpr ⟨call, hcall, hfinish⟩
    omega
  · symm
    rw [finishes, List.countP_eq_zero]
    intro call hcall hfinish
    exact hany (List.any_eq_true.mpr ⟨call, hcall, hfinish⟩)

end Keala.Http
