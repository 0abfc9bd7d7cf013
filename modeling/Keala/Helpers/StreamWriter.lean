import Keala.Http.ReadableStream
import Keala.Lib.Lts

/-!
The response stream of `src/helpers/streams.ts` (`makeStream`): what a callback
writes, a consumer reads in order, and the cleanups that it registers run once,
when the consumer cancels. The calls of the writer, the consumer and the stream
come in any order; a cleanup registers no other.
-/

namespace Keala.Http.ReadableStream

variable {Chunk Err : Type} {stream next : ReadableStream Chunk Err}

/-- The chunks that have gone in: those that a reader has got and those that wait. -/
def taken (stream : ReadableStream Chunk Err) : List Chunk := stream.received ++ stream.queue

@[simp] theorem received_callPullIfNeeded (stream : ReadableStream Chunk Err) :
    stream.callPullIfNeeded.1.received = stream.received := by
  rw [received, received, callPullIfNeeded_answers]

/-- A waiting read finds nothing in the queue, and a stream that is no longer
readable has neither. -/
structure Drained (stream : ReadableStream Chunk Err) : Prop where
  waiting : 0 < stream.requests → stream.queue = []
  shut : stream.isReadable = false → stream.queue = [] ∧ stream.requests = 0

theorem Drained.callPullIfNeeded (h : stream.Drained) : stream.callPullIfNeeded.1.Drained := by
  have hsame : stream.callPullIfNeeded.1.isReadable = stream.isReadable := by
    rw [isReadable, isReadable, callPullIfNeeded_status]
  exact ⟨by simpa using h.waiting, by simpa [hsame] using h.shut⟩

theorem Drained.read (h : stream.Drained) :
    stream.read.1.Drained ∧ stream.read.1.taken = stream.taken := by
  cases hstatus : stream.status with
  | closed =>
      rw [read_closed hstatus]
      refine ⟨⟨h.waiting, h.shut⟩, ?_⟩
      simp [taken, received]
  | errored error =>
      rw [read_errored hstatus]
      refine ⟨⟨h.waiting, h.shut⟩, ?_⟩
      simp [taken, received]
  | readable =>
      cases hqueue : stream.queue with
      | nil =>
          rw [read_waiting hstatus hqueue]
          refine ⟨Drained.callPullIfNeeded ⟨fun _ => hqueue, fun hshut => ?_⟩, ?_⟩
          · cases (isReadable_iff.mpr hstatus).symm.trans hshut
          · rw [taken, received_callPullIfNeeded, callPullIfNeeded_queue]
            rfl
      | cons value queue =>
          have hnone : stream.requests = 0 := by
            by_contra hne
            have hempty := h.waiting (Nat.pos_of_ne_zero hne)
            rw [hqueue] at hempty
            cases hempty
          have hopen : stream.isReadable = true := isReadable_iff.mpr hstatus
          have htaken : stream.taken = stream.received ++ value :: queue := by rw [taken, hqueue]
          rw [read_chunk hstatus hqueue, htaken]
          split
          · next hlast =>
              refine ⟨⟨fun _ => hlast.2, fun _ => ⟨hlast.2, rfl⟩⟩, ?_⟩
              rw [taken, received_closed, received_chunk rfl]
              simp [hlast.2, closed, answerAll]
          · refine ⟨Drained.callPullIfNeeded ⟨fun hpos => ?_, fun hshut => ?_⟩, ?_⟩
            · change 0 < stream.requests at hpos
              omega
            · cases hopen.symm.trans hshut
            · rw [taken, received_callPullIfNeeded, callPullIfNeeded_queue, received_chunk rfl]
              simp

theorem Drained.enqueue (h : stream.Drained) {value : Chunk}
    {answer : ReadableStream Chunk Err × Bool} (henqueue : stream.enqueue value = some answer) :
    answer.1.Drained ∧ answer.1.taken = stream.taken ++ [value] ∧
      answer.1.status = stream.status := by
  rw [ReadableStream.enqueue] at henqueue
  split at henqueue
  · next hopen =>
      rw [canCloseOrEnqueue, Bool.and_eq_true] at hopen
      split at henqueue
      · next hpos =>
          have hempty := h.waiting hpos
          cases henqueue
          refine ⟨Drained.callPullIfNeeded ⟨fun _ => hempty, fun hshut => ?_⟩, ?_, ?_⟩
          · cases hopen.2.symm.trans hshut
          · rw [taken, received_callPullIfNeeded, callPullIfNeeded_queue, received_chunk rfl]
            simp [taken, hempty]
          · simp
      · next hnone =>
          cases henqueue
          refine ⟨Drained.callPullIfNeeded
            ⟨fun hpos => absurd hpos hnone, fun hshut => ?_⟩, ?_, ?_⟩
          · cases hopen.2.symm.trans hshut
          · rw [taken, received_callPullIfNeeded, callPullIfNeeded_queue]
            simp [taken, received]
          · simp
  · cases henqueue

theorem Drained.close (h : stream.Drained) (hclose : stream.close = some next) :
    next.Drained ∧ next.taken = stream.taken := by
  rw [ReadableStream.close] at hclose
  split at hclose
  · next hopen =>
      rw [canCloseOrEnqueue, Bool.and_eq_true] at hopen
      cases hclose
      split
      · next hempty =>
          refine ⟨⟨fun _ => hempty, fun _ => ⟨hempty, rfl⟩⟩, ?_⟩
          rw [taken, received_closed]
          rfl
      · exact ⟨⟨h.waiting, h.shut⟩, rfl⟩
  · cases hclose

theorem Drained.error (h : stream.Drained) (error : Err) :
    (stream.error error).Drained ∧ (stream.error error).received = stream.received := by
  rw [ReadableStream.error]
  split
  · exact ⟨⟨fun _ => rfl, fun _ => ⟨rfl, rfl⟩⟩, received_replicate rfl (by simp)⟩
  · exact ⟨h, rfl⟩

theorem Drained.cancel (h : stream.Drained) :
    stream.cancel.1.Drained ∧ stream.cancel.1.received = stream.received := by
  rw [ReadableStream.cancel]
  split
  · exact ⟨⟨fun _ => rfl, fun _ => ⟨rfl, rfl⟩⟩, received_replicate rfl (by simp)⟩
  · exact ⟨h, rfl⟩

end Keala.Http.ReadableStream

namespace Keala.Helpers

open Keala.Http

variable {κ Chunk Err : Type}

/-! ### The stream of a callback -/

/-- How far the `start` of the stream is: the callback is running, it has
settled, or the stream has been told. -/
inductive Starting
  | running
  | settled
  | told
  deriving DecidableEq

/-- The variables of `makeStream`; the last three are what has happened. -/
structure StreamState (κ Chunk Err : Type) where
  stream : ReadableStream Chunk Err := {}
  /-- `controllerRef` is set. -/
  controllerRef : Bool := true
  cancelled : Bool := false
  aborts : List κ := []
  starting : Starting := .running
  written : List Chunk := []
  registered : List κ := []
  ran : List κ := []
  deriving DecidableEq

namespace StreamState

/-- The flag says whether `enqueue` throws. -/
def write (s : StreamState κ Chunk Err) (chunk : Chunk) : StreamState κ Chunk Err × Bool :=
  if s.controllerRef then
    match s.stream.enqueue chunk with
    | none => (s, true)
    | some (stream, _) => ({ s with stream, written := s.written ++ [chunk] }, false)
  else (s, false)

/-- What `close` throws is caught. -/
def close (s : StreamState κ Chunk Err) : StreamState κ Chunk Err :=
  if s.controllerRef then { s with stream := s.stream.close.getD s.stream } else s

def onAbort (s : StreamState κ Chunk Err) (fn : κ) : StreamState κ Chunk Err :=
  if s.cancelled then { s with registered := s.registered ++ [fn], ran := s.ran ++ [fn] }
  else { s with registered := s.registered ++ [fn], aborts := s.aborts ++ [fn] }

/-- The callback has settled; what it throws goes to the consumer. -/
def settle (s : StreamState κ Chunk Err) (result : Except Err Unit) : StreamState κ Chunk Err :=
  match result with
  | .ok () => { s.close with starting := .settled }
  | .error error => { s with stream := s.stream.error error, starting := .settled }

/-- The consumer cancels; the source is told where the stream is still open. -/
def cancel (s : StreamState κ Chunk Err) : StreamState κ Chunk Err :=
  let (stream, called) := s.stream.cancel
  if called then
    { s with
      stream
      controllerRef := false
      cancelled := true
      aborts := []
      ran := s.ran ++ s.aborts }
  else { s with stream }

end StreamState

inductive WriterEvent (κ Chunk Err : Type)
  | write (chunk : Chunk)
  | close
  | onAbort (fn : κ)
  | settle (result : Except Err Unit)
  /-- The stream learns that `start` is over. -/
  | told
  /-- The pull that the stream makes by itself is over. -/
  | pulled
  | read
  | cancel

def StreamState.step (s : StreamState κ Chunk Err) :
    WriterEvent κ Chunk Err → Option (StreamState κ Chunk Err)
  | .write chunk => some (s.write chunk).1
  | .close => some s.close
  | .onAbort fn => some (s.onAbort fn)
  | .settle result => if s.starting = .running then some (s.settle result) else none
  | .told =>
      if s.starting = .settled then some { s with stream := s.stream.start.1, starting := .told }
      else none
  | .pulled => if s.stream.pulling then some { s with stream := s.stream.pullFulfilled.1 } else none
  | .read => some { s with stream := s.stream.read.1 }
  | .cancel => some s.cancel

def makeStream (κ Chunk Err : Type) : Lts (StreamState κ Chunk Err) (WriterEvent κ Chunk Err) :=
  ⟨{}, StreamState.step⟩

/-! ### What the steps keep -/

def Failed (stream : ReadableStream Chunk Err) : Prop := ∃ error, stream.status = .errored error

structure StreamBooks (s : StreamState κ Chunk Err) : Prop where
  drained : s.stream.Drained
  ordered : s.stream.taken <+: s.written
  whole : s.cancelled = false → ¬Failed s.stream → s.stream.taken = s.written
  ref : s.controllerRef = !s.cancelled
  shut : s.cancelled = true → s.stream.status = .closed
  aborts : s.aborts = if s.cancelled then [] else s.registered
  ran : s.ran = if s.cancelled then s.registered else []

section

variable {s t : StreamState κ Chunk Err} {stream : ReadableStream Chunk Err}

theorem not_failed {status : StreamStatus Err} (h : stream.status = status)
    (hstatus : ∀ error, status ≠ .errored error) : ¬Failed stream :=
  fun ⟨error, herror⟩ => hstatus error (h.symm.trans herror)

/-- An operation of the stream that takes nothing in and drops nothing. -/
theorem StreamBooks.withStream (h : StreamBooks s) (hdrained : stream.Drained)
    (htaken : stream.taken = s.stream.taken) (hfailed : Failed s.stream → Failed stream)
    (hclosed : s.stream.status = .closed → stream.status = .closed) :
    StreamBooks { s with stream } where
  drained := hdrained
  ordered := htaken ▸ h.ordered
  whole hopen hfine := htaken.trans (h.whole hopen (mt hfailed hfine))
  ref := h.ref
  shut hcancelled := hclosed (h.shut hcancelled)
  aborts := h.aborts
  ran := h.ran

theorem StreamBooks.callPull (h : StreamBooks s) (hdrained : stream.Drained)
    (htaken : stream.taken = s.stream.taken) (hstatus : stream.status = s.stream.status) :
    StreamBooks { s with stream := stream.callPullIfNeeded.1 } := by
  refine h.withStream hdrained.callPullIfNeeded ?_ ?_ ?_
  · rw [ReadableStream.taken, ReadableStream.received_callPullIfNeeded,
      ReadableStream.callPullIfNeeded_queue]
    exact htaken
  · rintro ⟨error, herror⟩
    exact ⟨error, by rw [ReadableStream.callPullIfNeeded_status, hstatus, herror]⟩
  · intro hclosed
    rw [ReadableStream.callPullIfNeeded_status, hstatus, hclosed]

theorem StreamBooks.read (h : StreamBooks s) :
    StreamBooks { s with stream := s.stream.read.1 } := by
  obtain ⟨hdrained, htaken⟩ := h.drained.read
  refine h.withStream hdrained htaken ?_ ?_
  · rintro ⟨error, herror⟩
    exact ⟨error, by rw [ReadableStream.read_errored herror]; exact herror⟩
  · intro hclosed
    rw [ReadableStream.read_closed hclosed]
    exact hclosed

theorem StreamBooks.write (h : StreamBooks s) (chunk : Chunk) : StreamBooks (s.write chunk).1 := by
  rw [StreamState.write]
  split
  · next href =>
      cases henqueue : s.stream.enqueue chunk with
      | none => exact h
      | some answer =>
          obtain ⟨hdrained, htaken, hstatus⟩ := h.drained.enqueue henqueue
          have hopen : s.cancelled = false := by
            rw [h.ref, Bool.not_eq_true'] at href
            exact href
          have hfine : ¬Failed s.stream := by
            rintro ⟨error, herror⟩
            rw [ReadableStream.enqueue, ReadableStream.canCloseOrEnqueue,
              ReadableStream.isReadable, herror, Bool.and_false,
              if_neg Bool.false_ne_true] at henqueue
            cases henqueue
          have hwhole : answer.1.taken = s.written ++ [chunk] := by
            rw [htaken, h.whole hopen hfine]
          exact
            { drained := hdrained
              ordered := hwhole ▸ List.prefix_rfl
              whole := fun _ _ => hwhole
              ref := h.ref
              shut := fun hcancelled => by cases hopen.symm.trans hcancelled
              aborts := h.aborts
              ran := h.ran }
  · exact h

theorem StreamBooks.close (h : StreamBooks s) : StreamBooks s.close := by
  rw [StreamState.close]
  split
  · cases hclose : s.stream.close with
    | none => exact h
    | some next =>
        obtain ⟨hdrained, htaken⟩ := h.drained.close hclose
        have hopen : s.stream.status = .readable := by
          rw [ReadableStream.close] at hclose
          split at hclose
          · next hcan =>
              rw [ReadableStream.canCloseOrEnqueue, Bool.and_eq_true] at hcan
              exact ReadableStream.isReadable_iff.mp hcan.2
          · cases hclose
        refine h.withStream hdrained htaken (fun hfailed => ?_) fun hclosed => ?_
        · exact absurd hfailed (not_failed hopen (by simp))
        · cases hopen.symm.trans hclosed
  · exact h

theorem StreamBooks.error (h : StreamBooks s) (error : Err) :
    StreamBooks { s with stream := s.stream.error error } := by
  cases hstatus : s.stream.status with
  | readable =>
      obtain ⟨hdrained, hreceived⟩ := h.drained.error error
      have hfailed : Failed (s.stream.error error) := by
        rw [ReadableStream.error, hstatus]
        exact ⟨error, rfl⟩
      have hqueue : (s.stream.error error).queue = [] := by
        rw [ReadableStream.error, hstatus]
      refine
        { drained := hdrained
          ordered := ?_
          whole := fun _ hfine => absurd hfailed hfine
          ref := h.ref
          shut := fun hcancelled => by cases hstatus.symm.trans (h.shut hcancelled)
          aborts := h.aborts
          ran := h.ran }
      show (s.stream.error error).taken <+: s.written
      rw [ReadableStream.taken, hqueue, hreceived, List.append_nil]
      exact (List.prefix_append _ _).trans h.ordered
  | closed =>
      have hsame : s.stream.error error = s.stream := by rw [ReadableStream.error, hstatus]
      rw [hsame]
      exact h
  | errored other =>
      have hsame : s.stream.error error = s.stream := by rw [ReadableStream.error, hstatus]
      rw [hsame]
      exact h

theorem StreamBooks.onAbort (h : StreamBooks s) (fn : κ) : StreamBooks (s.onAbort fn) := by
  have haborts := h.aborts
  have hran := h.ran
  rw [StreamState.onAbort]
  split
  · next hcancelled =>
      rw [hcancelled, if_pos rfl] at haborts hran
      exact
        { h with
          aborts := by simpa [hcancelled] using haborts
          ran := by simp [hcancelled, hran] }
  · next hopen =>
      rw [if_neg hopen] at haborts hran
      exact { h with aborts := by simp [hopen, haborts], ran := by simpa [hopen] using hran }

theorem StreamBooks.cancel (h : StreamBooks s) : StreamBooks s.cancel := by
  have haborts := h.aborts
  have hran := h.ran
  cases hstatus : s.stream.status with
  | readable =>
      obtain ⟨hdrained, hreceived⟩ := h.drained.cancel
      have hcancel : s.stream.cancel = ({ s.stream.closed with queue := [] }, true) := by
        rw [ReadableStream.cancel, hstatus]
      have hopen : ¬s.cancelled = true := fun hcancelled => by
        cases hstatus.symm.trans (h.shut hcancelled)
      rw [if_neg hopen] at haborts hran
      rw [StreamState.cancel, hcancel]
      rw [hcancel] at hdrained hreceived
      refine
        { drained := hdrained
          ordered := ?_
          whole := fun hnot => by cases hnot
          ref := rfl
          shut := fun _ => rfl
          aborts := rfl
          ran := by rw [hran, haborts]; rfl }
      have hleft : s.stream.received <+: s.written := (List.prefix_append _ _).trans h.ordered
      rw [← hreceived] at hleft
      simpa [ReadableStream.taken] using hleft
  | closed =>
      have hcancel : s.stream.cancel = (s.stream, false) := by rw [ReadableStream.cancel, hstatus]
      rw [StreamState.cancel, hcancel]
      exact h
  | errored error =>
      have hcancel : s.stream.cancel = (s.stream, false) := by rw [ReadableStream.cancel, hstatus]
      rw [StreamState.cancel, hcancel]
      exact h

theorem StreamBooks.starting (h : StreamBooks s) (starting : Starting) :
    StreamBooks { s with starting } := { h with }

theorem StreamBooks.step (h : StreamBooks s) {event : WriterEvent κ Chunk Err}
    (hstep : s.step event = some t) : StreamBooks t := by
  cases event with
  | write chunk =>
      cases hstep
      exact h.write chunk
  | close =>
      cases hstep
      exact h.close
  | onAbort fn =>
      cases hstep
      exact h.onAbort fn
  | settle result =>
      simp only [StreamState.step, Option.ite_none_right_eq_some, Option.some_inj] at hstep
      obtain ⟨-, rfl⟩ := hstep
      cases result with
      | ok _ => exact h.close.starting .settled
      | error error => exact (h.error error).starting .settled
  | told =>
      simp only [StreamState.step, Option.ite_none_right_eq_some, Option.some_inj] at hstep
      obtain ⟨-, rfl⟩ := hstep
      refine (h.callPull ?_ ?_ ?_).starting .told
      · exact ⟨h.drained.waiting, h.drained.shut⟩
      · rfl
      · rfl
  | pulled =>
      simp only [StreamState.step, Option.ite_none_right_eq_some, Option.some_inj] at hstep
      obtain ⟨-, rfl⟩ := hstep
      rw [ReadableStream.pullFulfilled]
      split
      · exact h.callPull ⟨h.drained.waiting, h.drained.shut⟩ rfl rfl
      · exact h.withStream ⟨h.drained.waiting, h.drained.shut⟩ rfl id id
  | read =>
      cases hstep
      exact h.read
  | cancel =>
      cases hstep
      exact h.cancel

/-! ### What the operations leave -/

theorem cancelled_write (s : StreamState κ Chunk Err) (chunk : Chunk) :
    (s.write chunk).1.cancelled = s.cancelled := by
  rw [StreamState.write]
  split
  · split <;> rfl
  · rfl

@[simp] theorem cancelled_close (s : StreamState κ Chunk Err) :
    s.close.cancelled = s.cancelled := by
  rw [StreamState.close]
  split <;> rfl

@[simp] theorem written_close (s : StreamState κ Chunk Err) : s.close.written = s.written := by
  rw [StreamState.close]
  split <;> rfl

theorem cancelled_onAbort (s : StreamState κ Chunk Err) (fn : κ) :
    (s.onAbort fn).cancelled = s.cancelled := by
  rw [StreamState.onAbort]
  split <;> rfl

theorem written_onAbort (s : StreamState κ Chunk Err) (fn : κ) :
    (s.onAbort fn).written = s.written := by
  rw [StreamState.onAbort]
  split <;> rfl

theorem cancelled_settle (s : StreamState κ Chunk Err) (result : Except Err Unit) :
    (s.settle result).cancelled = s.cancelled := by
  cases result with
  | ok _ => exact cancelled_close s
  | error error => rfl

theorem written_settle (s : StreamState κ Chunk Err) (result : Except Err Unit) :
    (s.settle result).written = s.written := by
  cases result with
  | ok _ => exact written_close s
  | error error => rfl

theorem written_cancel (s : StreamState κ Chunk Err) : s.cancel.written = s.written := by
  rw [StreamState.cancel]
  dsimp only
  split <;> rfl

theorem cancelled_cancel (s : StreamState κ Chunk Err) :
    s.cancel.cancelled = true ↔ s.cancelled = true ∨ s.stream.status = .readable := by
  rw [StreamState.cancel, ReadableStream.cancel]
  cases s.stream.status <;> simp

/-- A write that goes through finds the stream open. -/
theorem write_cases (s : StreamState κ Chunk Err) (chunk : Chunk) :
    (s.write chunk).1 = s ∨ s.controllerRef = true ∧ s.stream.status = .readable ∧
      (s.write chunk).1.written = s.written ++ [chunk] := by
  rw [StreamState.write]
  split
  · next href =>
      cases henqueue : s.stream.enqueue chunk with
      | none => exact .inl rfl
      | some answer =>
          refine .inr ⟨href, ?_, rfl⟩
          rw [ReadableStream.enqueue] at henqueue
          split at henqueue
          · next hopen =>
              rw [ReadableStream.canCloseOrEnqueue, Bool.and_eq_true] at hopen
              exact ReadableStream.isReadable_iff.mp hopen.2
          · cases henqueue
  · exact .inl rfl

theorem written_step (h : StreamBooks s) {event : WriterEvent κ Chunk Err}
    (hstep : s.step event = some t) : t.written = s.written ∨
      s.cancelled = false ∧ s.stream.status = .readable ∧
        ∃ chunk, event = .write chunk ∧ t.written = s.written ++ [chunk] := by
  cases event with
  | write chunk =>
      cases hstep
      rcases write_cases s chunk with hsame | ⟨href, hopen, hwritten⟩
      · exact .inl (congrArg StreamState.written hsame)
      · rw [h.ref, Bool.not_eq_true'] at href
        exact .inr ⟨href, hopen, chunk, rfl, hwritten⟩
  | close =>
      cases hstep
      exact .inl (written_close s)
  | onAbort fn =>
      cases hstep
      exact .inl (written_onAbort s fn)
  | settle result =>
      simp only [StreamState.step, Option.ite_none_right_eq_some, Option.some_inj] at hstep
      obtain ⟨-, rfl⟩ := hstep
      exact .inl (written_settle s result)
  | told =>
      simp only [StreamState.step, Option.ite_none_right_eq_some, Option.some_inj] at hstep
      obtain ⟨-, rfl⟩ := hstep
      exact .inl rfl
  | pulled =>
      simp only [StreamState.step, Option.ite_none_right_eq_some, Option.some_inj] at hstep
      obtain ⟨-, rfl⟩ := hstep
      exact .inl rfl
  | read =>
      cases hstep
      exact .inl rfl
  | cancel =>
      cases hstep
      exact .inl (written_cancel s)

theorem cancelled_step {event : WriterEvent κ Chunk Err} (hstep : s.step event = some t) :
    t.cancelled = true ↔
      s.cancelled = true ∨ event = .cancel ∧ s.stream.status = .readable := by
  have hkept : event ≠ .cancel → t.cancelled = s.cancelled → (t.cancelled = true ↔
      s.cancelled = true ∨ event = .cancel ∧ s.stream.status = .readable) := by
    intro hother hsame
    simp [hother, hsame]
  cases event with
  | write chunk =>
      cases hstep
      exact hkept (by simp) (cancelled_write s chunk)
  | close =>
      cases hstep
      exact hkept (by simp) (cancelled_close s)
  | onAbort fn =>
      cases hstep
      exact hkept (by simp) (cancelled_onAbort s fn)
  | settle result =>
      simp only [StreamState.step, Option.ite_none_right_eq_some, Option.some_inj] at hstep
      obtain ⟨-, rfl⟩ := hstep
      exact hkept (by simp) (cancelled_settle s result)
  | told =>
      simp only [StreamState.step, Option.ite_none_right_eq_some, Option.some_inj] at hstep
      obtain ⟨-, rfl⟩ := hstep
      exact hkept (by simp) rfl
  | pulled =>
      simp only [StreamState.step, Option.ite_none_right_eq_some, Option.some_inj] at hstep
      obtain ⟨-, rfl⟩ := hstep
      exact hkept (by simp) rfl
  | read =>
      cases hstep
      exact hkept (by simp) rfl
  | cancel =>
      cases hstep
      simpa using cancelled_cancel s

theorem streamBooks_of_reachable (h : (makeStream κ Chunk Err).Reachable s) : StreamBooks s := by
  refine h.invariant ?_ fun _ _ _ hbooks hstep => hbooks.step hstep
  exact
    { drained := ⟨fun _ => rfl, fun _ => ⟨rfl, rfl⟩⟩
      ordered := List.prefix_rfl
      whole := fun _ _ => rfl
      ref := rfl
      shut := fun hcancelled => by cases hcancelled
      aborts := rfl
      ran := rfl }

theorem StreamBooks.received_prefix (h : StreamBooks s) : s.stream.received <+: s.written :=
  (List.prefix_append _ _).trans h.ordered

/-- Nothing waits in a stream that has closed by itself or that a read waits on. -/
theorem StreamBooks.received_whole (h : StreamBooks s)
    (hidle : s.stream.status = .closed ∧ s.cancelled = false ∨ 0 < s.stream.requests) :
    s.stream.received = s.written := by
  have hwhole : s.cancelled = false → ¬Failed s.stream → s.stream.queue = [] →
      s.stream.received = s.written := by
    intro hopen hfine hqueue
    have htaken := h.whole hopen hfine
    rw [ReadableStream.taken, hqueue, List.append_nil] at htaken
    exact htaken
  rcases hidle with ⟨hclosed, hopen⟩ | hwaiting
  · have hshut : s.stream.isReadable = false := by rw [ReadableStream.isReadable, hclosed]
    exact hwhole hopen (not_failed hclosed (by simp)) (h.drained.shut hshut).1
  · have hreadable : s.stream.isReadable = true := by
      by_contra hshut
      have hnone := (h.drained.shut ((Bool.not_eq_true _).mp hshut)).2
      omega
    rw [ReadableStream.isReadable_iff] at hreadable
    refine hwhole ?_ (not_failed hreadable (by simp)) (h.drained.waiting hwaiting)
    rw [← Bool.not_eq_true]
    intro hcancelled
    cases hreadable.symm.trans (h.shut hcancelled)

/-- A reader gets what is written, in order: nothing is missing when the stream
closes by itself or a read has to wait, and nothing is written once the
consumer has cancelled or the stream has closed or failed. -/
theorem stream_delivery (h : (makeStream κ Chunk Err).Reachable s) :
    s.stream.received <+: s.written ∧
      (s.stream.status = .closed ∧ s.cancelled = false ∨ 0 < s.stream.requests →
        s.stream.received = s.written) ∧
      ∀ event t, s.step event = some t → t.written = s.written ∨
        s.cancelled = false ∧ s.stream.status = .readable ∧
          ∃ chunk, event = .write chunk ∧ t.written = s.written ++ [chunk] := by
  have hbooks := streamBooks_of_reachable h
  exact ⟨hbooks.received_prefix, hbooks.received_whole, fun event t hstep =>
    written_step hbooks hstep⟩

/-- The cleanups wait, in the order of their registration, until the consumer
cancels an open stream; then each has run once, also one that is registered
later. -/
theorem stream_cleanup (h : (makeStream κ Chunk Err).Reachable s) :
    s.aborts = (if s.cancelled then [] else s.registered) ∧
      s.ran = (if s.cancelled then s.registered else []) ∧
      ∀ event t, s.step event = some t → (t.cancelled = true ↔
        s.cancelled = true ∨ event = .cancel ∧ s.stream.status = .readable) := by
  have hbooks := streamBooks_of_reachable h
  exact ⟨hbooks.aborts, hbooks.ran, fun event t hstep => cancelled_step hstep⟩

end

/-- A chunk is read, the callback ends, and the stream is closed. -/
theorem stream_delivery_closed : ∃ s : StreamState ℕ ℕ Unit,
    (makeStream ℕ ℕ Unit).runFrom (makeStream ℕ ℕ Unit).start
        [.write 5, .read, .settle (.ok ()), .told] = some s ∧
      s.stream.received = [5] ∧ s.stream.received = s.written :=
  ⟨_, rfl, rfl, (stream_delivery (Lts.reachable_of_run (L := makeStream ℕ ℕ Unit)
    [.write 5, .read, .settle (.ok ()), .told] rfl)).2.1 (.inl ⟨rfl, rfl⟩)⟩

/-- One cleanup is registered before the consumer cancels and one after. -/
theorem stream_cleanup_cancelled : ∃ s : StreamState ℕ ℕ Unit,
    (makeStream ℕ ℕ Unit).runFrom (makeStream ℕ ℕ Unit).start
        [.onAbort 7, .write 5, .cancel, .onAbort 8] = some s ∧ s.ran = [7, 8] :=
  ⟨_, rfl, (stream_cleanup (Lts.reachable_of_run (L := makeStream ℕ ℕ Unit)
    [.onAbort 7, .write 5, .cancel, .onAbort 8] rfl)).2.1⟩

end Keala.Helpers
