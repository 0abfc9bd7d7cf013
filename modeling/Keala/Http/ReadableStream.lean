import Mathlib.Data.List.Basic

/-!
A readable stream with a default controller and a high water mark of one, as the
Streams standard has it: a queue, the reads that wait for a chunk, and when the
underlying source is asked for more.
-/

namespace Keala.Http

inductive StreamStatus (Err : Type)
  | readable
  | closed
  | errored (error : Err)
  deriving DecidableEq

inductive ReadAnswer (Chunk Err : Type)
  | chunk (value : Chunk)
  | done
  | error (error : Err)
  deriving DecidableEq

structure ReadableStream (Chunk Err : Type) where
  status : StreamStatus Err := .readable
  queue : List Chunk := []
  closeRequested : Bool := false
  started : Bool := false
  pulling : Bool := false
  pullAgain : Bool := false
  /-- The reads that have no answer yet. -/
  requests : ℕ := 0
  answers : List (ReadAnswer Chunk Err) := []
  deriving DecidableEq

namespace ReadableStream

variable {Chunk Err : Type}

def received (stream : ReadableStream Chunk Err) : List Chunk :=
  stream.answers.filterMap fun
    | .chunk value => some value
    | _ => none

def isReadable (stream : ReadableStream Chunk Err) : Bool :=
  match stream.status with
  | .readable => true
  | _ => false

def canCloseOrEnqueue (stream : ReadableStream Chunk Err) : Bool :=
  !stream.closeRequested && stream.isReadable

def shouldCallPull (stream : ReadableStream Chunk Err) : Bool :=
  stream.canCloseOrEnqueue && stream.started &&
    (decide (0 < stream.requests) || decide (stream.queue.length < 1))

/-- The flag says whether the pull algorithm is called. -/
def callPullIfNeeded (stream : ReadableStream Chunk Err) : ReadableStream Chunk Err × Bool :=
  if stream.shouldCallPull then
    if stream.pulling then ({ stream with pullAgain := true }, false)
    else ({ stream with pulling := true }, true)
  else (stream, false)

def answerAll (stream : ReadableStream Chunk Err) (answer : ReadAnswer Chunk Err) :
    ReadableStream Chunk Err :=
  { stream with
    requests := 0
    answers := stream.answers ++ List.replicate stream.requests answer }

def closed (stream : ReadableStream Chunk Err) : ReadableStream Chunk Err :=
  { stream.answerAll .done with status := .closed }

def start (stream : ReadableStream Chunk Err) : ReadableStream Chunk Err × Bool :=
  callPullIfNeeded { stream with started := true }

def pullFulfilled (stream : ReadableStream Chunk Err) : ReadableStream Chunk Err × Bool :=
  if stream.pullAgain then callPullIfNeeded { stream with pulling := false, pullAgain := false }
  else ({ stream with pulling := false }, false)

def read (stream : ReadableStream Chunk Err) : ReadableStream Chunk Err × Bool :=
  match stream.status, stream.queue with
  | .closed, _ => ({ stream with answers := stream.answers ++ [.done] }, false)
  | .errored error, _ => ({ stream with answers := stream.answers ++ [.error error] }, false)
  | .readable, [] => callPullIfNeeded { stream with requests := stream.requests + 1 }
  | .readable, value :: queue =>
      let taken : ReadableStream Chunk Err :=
        { stream with queue := queue, answers := stream.answers ++ [.chunk value] }
      if stream.closeRequested ∧ queue = [] then (taken.closed, false) else taken.callPullIfNeeded

/-- None where it throws. -/
def enqueue (stream : ReadableStream Chunk Err) (value : Chunk) :
    Option (ReadableStream Chunk Err × Bool) :=
  if stream.canCloseOrEnqueue then
    if 0 < stream.requests then
      some (callPullIfNeeded { stream with
        requests := stream.requests - 1
        answers := stream.answers ++ [.chunk value] })
    else some (callPullIfNeeded { stream with queue := stream.queue ++ [value] })
  else none

def close (stream : ReadableStream Chunk Err) : Option (ReadableStream Chunk Err) :=
  if stream.canCloseOrEnqueue then
    let requested := { stream with closeRequested := true }
    some (if stream.queue = [] then requested.closed else requested)
  else none

def error (stream : ReadableStream Chunk Err) (error : Err) : ReadableStream Chunk Err :=
  match stream.status with
  | .readable => { stream.answerAll (.error error) with status := .errored error, queue := [] }
  | _ => stream

/-- The flag says whether the cancel algorithm is called. -/
def cancel (stream : ReadableStream Chunk Err) : ReadableStream Chunk Err × Bool :=
  match stream.status with
  | .readable => ({ stream.closed with queue := [] }, true)
  | _ => (stream, false)

/-! ### What the operations change -/

section Operations

variable (stream : ReadableStream Chunk Err)

@[simp] theorem callPullIfNeeded_status : stream.callPullIfNeeded.1.status = stream.status := by
  rw [callPullIfNeeded]
  split_ifs <;> rfl

@[simp] theorem callPullIfNeeded_queue : stream.callPullIfNeeded.1.queue = stream.queue := by
  rw [callPullIfNeeded]
  split_ifs <;> rfl

@[simp] theorem callPullIfNeeded_closeRequested :
    stream.callPullIfNeeded.1.closeRequested = stream.closeRequested := by
  rw [callPullIfNeeded]
  split_ifs <;> rfl

@[simp] theorem callPullIfNeeded_started : stream.callPullIfNeeded.1.started = stream.started := by
  rw [callPullIfNeeded]
  split_ifs <;> rfl

@[simp] theorem callPullIfNeeded_requests :
    stream.callPullIfNeeded.1.requests = stream.requests := by
  rw [callPullIfNeeded]
  split_ifs <;> rfl

@[simp] theorem callPullIfNeeded_answers : stream.callPullIfNeeded.1.answers = stream.answers := by
  rw [callPullIfNeeded]
  split_ifs <;> rfl

theorem callPullIfNeeded_flag :
    stream.callPullIfNeeded.2 = (stream.shouldCallPull && !stream.pulling) := by
  rw [callPullIfNeeded]
  split_ifs with hshould hpulling
  · simp [hpulling]
  · simp [hshould, hpulling]
  · simp [hshould]

theorem callPullIfNeeded_pulling :
    stream.callPullIfNeeded.1.pulling = (stream.pulling || stream.shouldCallPull) := by
  rw [callPullIfNeeded]
  split_ifs with hshould hpulling
  · simp [hpulling]
  · simp [hshould]
  · simp [hshould]

theorem callPullIfNeeded_pullAgain :
    stream.callPullIfNeeded.1.pullAgain =
      (stream.pullAgain || (stream.pulling && stream.shouldCallPull)) := by
  rw [callPullIfNeeded]
  split_ifs with hshould hpulling
  · simp [hpulling, hshould]
  · simp [hpulling]
  · simp [hshould]

end Operations

theorem isReadable_iff {stream : ReadableStream Chunk Err} :
    stream.isReadable = true ↔ stream.status = .readable := by
  rw [isReadable]
  cases stream.status <;> simp

/-! ### The chunks among the answers -/

theorem received_chunk {stream next : ReadableStream Chunk Err} {value : Chunk}
    (h : next.answers = stream.answers ++ [.chunk value]) :
    next.received = stream.received ++ [value] := by
  rw [received, h, List.filterMap_append]
  rfl

/-- Answers that bring no chunk. -/
theorem received_replicate {stream next : ReadableStream Chunk Err} {n : ℕ}
    {answer : ReadAnswer Chunk Err} (h : next.answers = stream.answers ++ List.replicate n answer)
    (hanswer : ∀ value, answer ≠ .chunk value) : next.received = stream.received := by
  rw [received, h, List.filterMap_append, List.filterMap_replicate_of_none, List.append_nil]
  · rfl
  · cases answer with
    | chunk value => exact absurd rfl (hanswer value)
    | done => rfl
    | error _ => rfl

theorem received_closed (stream : ReadableStream Chunk Err) :
    stream.closed.received = stream.received :=
  received_replicate rfl (by simp)

/-! ### A read by the status -/

section Read

variable {stream : ReadableStream Chunk Err}

theorem read_closed (h : stream.status = .closed) :
    stream.read = ({ stream with answers := stream.answers ++ [.done] }, false) := by
  unfold read
  split
  · rfl
  · next hother => cases h.symm.trans hother
  · next hother _ => cases h.symm.trans hother
  · next hother _ => cases h.symm.trans hother

theorem read_errored {error : Err} (h : stream.status = .errored error) :
    stream.read = ({ stream with answers := stream.answers ++ [.error error] }, false) := by
  unfold read
  split
  · next hother => cases h.symm.trans hother
  · next hother =>
    cases h.symm.trans hother
    rfl
  · next hother _ => cases h.symm.trans hother
  · next hother _ => cases h.symm.trans hother

theorem read_waiting (h : stream.status = .readable) (hqueue : stream.queue = []) :
    stream.read = callPullIfNeeded { stream with requests := stream.requests + 1 } := by
  unfold read
  split
  · next hother => cases h.symm.trans hother
  · next hother => cases h.symm.trans hother
  · rfl
  · next hother => cases hqueue.symm.trans hother

theorem read_chunk {value : Chunk} {queue : List Chunk} (h : stream.status = .readable)
    (hqueue : stream.queue = value :: queue) :
    stream.read =
      if stream.closeRequested ∧ queue = [] then
        (closed { stream with queue := queue, answers := stream.answers ++ [.chunk value] }, false)
      else callPullIfNeeded
        { stream with queue := queue, answers := stream.answers ++ [.chunk value] } := by
  unfold read
  split
  · next hother => cases h.symm.trans hother
  · next hother => cases h.symm.trans hother
  · next hother => cases hqueue.symm.trans hother
  · next hother =>
    cases hqueue.symm.trans hother
    rfl

end Read

/-! ### The answers -/

/-- After a number of reads: each has an answer or waits, and an answer that brings no chunk
says how the stream stands. -/
structure Answered (stream : ReadableStream Chunk Err) (reads : ℕ) : Prop where
  tally : stream.answers.length + stream.requests = reads
  done : .done ∈ stream.answers → stream.status = .closed
  error : ∀ error, .error error ∈ stream.answers → stream.status = .errored error

section Answered

variable {stream : ReadableStream Chunk Err} {reads : ℕ}

theorem Answered.callPull (h : stream.Answered reads) :
    stream.callPullIfNeeded.1.Answered reads :=
  ⟨by simpa using h.tally, by simpa using h.done, by simpa using h.error⟩

/-- An open stream has answered with chunks alone. -/
theorem Answered.chunks (h : stream.Answered reads) (hstatus : stream.status = .readable)
    {answer : ReadAnswer Chunk Err} (hanswer : answer ∈ stream.answers) :
    ∃ value, answer = .chunk value := by
  cases answer with
  | chunk value => exact ⟨value, rfl⟩
  | done => cases hstatus.symm.trans (h.done hanswer)
  | error error => cases hstatus.symm.trans (h.error error hanswer)

/-- All waiting reads get the answer that the new status gives. -/
theorem Answered.settleAll (h : stream.Answered reads) (hstatus : stream.status = .readable)
    {next : ReadableStream Chunk Err} {answer : ReadAnswer Chunk Err}
    (hanswers : next.answers = stream.answers ++ List.replicate stream.requests answer)
    (hrequests : next.requests = 0) (hdone : answer = .done → next.status = .closed)
    (herror : ∀ error, answer = .error error → next.status = .errored error) :
    next.Answered reads := by
  have hlast : ∀ other ∈ next.answers, other = answer ∨ ∃ value, other = .chunk value := by
    intro other hother
    rw [hanswers] at hother
    rcases List.mem_append.mp hother with hbefore | hnow
    · exact .inr (h.chunks hstatus hbefore)
    · exact .inl (List.eq_of_mem_replicate hnow)
  refine ⟨?_, fun hmem => ?_, fun error hmem => ?_⟩
  · rw [hanswers, hrequests, List.length_append, List.length_replicate]
    exact h.tally
  · rcases hlast _ hmem with hsame | ⟨value, hvalue⟩
    · exact hdone hsame.symm
    · cases hvalue
  · rcases hlast _ hmem with hsame | ⟨value, hvalue⟩
    · exact herror error hsame.symm
    · cases hvalue

theorem Answered.closed (h : stream.Answered reads) (hstatus : stream.status = .readable) :
    stream.closed.Answered reads :=
  h.settleAll hstatus rfl rfl (fun _ => rfl) (by simp)

/-- One more chunk among the answers of an open stream. -/
theorem Answered.chunk (h : stream.Answered reads) (queue : List Chunk) (requests : ℕ)
    (value : Chunk) {later : ℕ} (hlater : stream.answers.length + 1 + requests = later) :
    Answered { stream with
      queue := queue
      requests := requests
      answers := stream.answers ++ [.chunk value] } later := by
  refine ⟨?_, fun hdone => ?_, fun error herror => ?_⟩
  · simpa using hlater
  · exact h.done (by simpa using hdone)
  · exact h.error error (by simpa using herror)

theorem Answered.read (h : stream.Answered reads) : stream.read.1.Answered (reads + 1) := by
  have htally := h.tally
  cases hstatus : stream.status with
  | closed =>
    rw [read_closed hstatus]
    refine ⟨?_, fun _ => hstatus, fun error herror => h.error error (by simpa using herror)⟩
    simp only [List.length_append, List.length_singleton]
    omega
  | errored error =>
    rw [read_errored hstatus]
    refine ⟨?_, fun hdone => h.done (by simpa using hdone), fun other hother => ?_⟩
    · simp only [List.length_append, List.length_singleton]
      omega
    · rcases List.mem_append.mp hother with hbefore | hnow
      · exact h.error other hbefore
      · cases List.mem_singleton.mp hnow
        exact hstatus
  | readable =>
    cases hqueue : stream.queue with
    | nil =>
      rw [read_waiting hstatus hqueue]
      apply Answered.callPull
      exact ⟨by simp only; omega, h.done, h.error⟩
    | cons value queue =>
      rw [read_chunk hstatus hqueue]
      have hchunk := h.chunk queue stream.requests value (show _ = reads + 1 by omega)
      split_ifs
      · exact hchunk.closed hstatus
      · exact hchunk.callPull

theorem Answered.enqueue (h : stream.Answered reads) {value : Chunk}
    {answer : ReadableStream Chunk Err × Bool} (henqueue : stream.enqueue value = some answer) :
    answer.1.Answered reads := by
  have htally := h.tally
  rw [ReadableStream.enqueue] at henqueue
  split_ifs at henqueue with hopen hrequests
  · cases henqueue
    exact (h.chunk stream.queue (stream.requests - 1) value (by omega)).callPull
  · cases henqueue
    exact Answered.callPull ⟨h.tally, h.done, h.error⟩

theorem Answered.close (h : stream.Answered reads) {next : ReadableStream Chunk Err}
    (hclose : stream.close = some next) : next.Answered reads := by
  rw [ReadableStream.close] at hclose
  split at hclose
  · next hopen =>
    have hstatus : stream.status = .readable :=
      isReadable_iff.mp (Bool.and_eq_true_iff.mp hopen).2
    have hrequested : Answered { stream with closeRequested := true } reads :=
      ⟨h.tally, h.done, h.error⟩
    cases hclose
    split_ifs
    · exact hrequested.closed hstatus
    · exact hrequested
  · cases hclose

theorem Answered.failed (h : stream.Answered reads) (error : Err) :
    (stream.error error).Answered reads := by
  rw [ReadableStream.error]
  split
  · next hstatus => exact h.settleAll hstatus rfl rfl (by simp) (by simp)
  · exact h

theorem Answered.cancel (h : stream.Answered reads) : stream.cancel.1.Answered reads := by
  rw [ReadableStream.cancel]
  split
  · next hstatus => exact h.settleAll hstatus rfl rfl (fun _ => rfl) (by simp)
  · exact h

end Answered

end ReadableStream

end Keala.Http
