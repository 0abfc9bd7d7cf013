import Keala.Helpers.Sse
import Keala.Helpers.StreamWriter
import Keala.Js.WellFormed

/-!
The live stream of `streamSSE`: its heartbeat, and the events that a consumer
gets, whatever the order in which messages are sent, the timer fires and the
consumer reads or goes.
-/

namespace Keala.Helpers

open Js Http

variable {Err : Type}

/-- What the encoder of the writer makes of a frame: a lone surrogate becomes U+FFFD. -/
def SseCall.chunk (call : SseCall) : List UInt8 := utf8Bytes call.frame

/-- The cleanup `none` is the one that clears the timer; `sent` are the calls
whose frames have been taken. -/
structure SseStream (Err : Type) where
  writer : StreamState (Option ℕ) (List UInt8) Err
  timer : Bool
  sent : List SseCall
  deriving DecidableEq

namespace SseStream

/-- The flag says whether the write throws. -/
def write (s : SseStream Err) (call : SseCall) : SseStream Err × Bool :=
  let (writer, threw) := s.writer.write call.chunk
  ({ s with
      writer
      sent := if s.writer.controllerRef && !threw then s.sent ++ [call] else s.sent }, threw)

def ping : SseCall := .comment (js "ping")

def tick (s : SseStream Err) : SseStream Err :=
  let (next, threw) := s.write ping
  if threw then { next with timer := false } else next

end SseStream

inductive SseEvent (Err : Type)
  | call (call : SseCall)
  | onAbort (fn : ℕ)
  | tick
  | settle (result : Except Err Unit)
  | told
  | pulled
  | read
  | cancel

def SseStream.step (s : SseStream Err) : SseEvent Err → Option (SseStream Err)
  | .call call => some (s.write call).1
  | .onAbort fn => some { s with writer := s.writer.onAbort (some fn) }
  | .tick => if s.timer then some s.tick else none
  -- Either way the timer is cleared.
  | .settle result => (s.writer.step (.settle result)).map ({ s with writer := ·, timer := false })
  | .told => (s.writer.step .told).map ({ s with writer := · })
  | .pulled => (s.writer.step .pulled).map ({ s with writer := · })
  | .read => (s.writer.step .read).map ({ s with writer := · })
  | .cancel =>
      let writer := s.writer.cancel
      some { s with writer, timer := s.timer && !decide (none ∈ writer.ran) }

/-- From where the callback is called: the timer is set and its cleanup
registered. -/
def streamSSE (Err : Type) (heartbeat : ℚ) : Lts (SseStream Err) (SseEvent Err) where
  start := ⟨({} : StreamState (Option ℕ) (List UInt8) Err).onAbort none, decide (0 < heartbeat), []⟩
  step := SseStream.step

/-! ### What the steps keep -/

structure SseBooks (heartbeat : ℚ) (s : SseStream Err) : Prop where
  books : StreamBooks s.writer
  frames : s.writer.written = s.sent.map SseCall.chunk
  registered : none ∈ s.writer.registered
  writable : s.writer.starting = .running → s.writer.cancelled = false →
    s.writer.stream.canCloseOrEnqueue = true
  timer : s.timer = true ↔
    0 < heartbeat ∧ s.writer.starting = .running ∧ s.writer.cancelled = false

section

variable {Chunk : Type} {stream : ReadableStream Chunk Err}

theorem canEnqueue_callPull (stream : ReadableStream Chunk Err) :
    stream.callPullIfNeeded.1.canCloseOrEnqueue = stream.canCloseOrEnqueue := by
  simp [ReadableStream.canCloseOrEnqueue, ReadableStream.isReadable]

theorem canEnqueue_read (h : stream.canCloseOrEnqueue = true) :
    stream.read.1.canCloseOrEnqueue = true := by
  have hboth := h
  rw [ReadableStream.canCloseOrEnqueue, Bool.and_eq_true, Bool.not_eq_true',
    ReadableStream.isReadable_iff] at hboth
  obtain ⟨hrequested, hstatus⟩ := hboth
  cases hqueue : stream.queue with
  | nil =>
      rw [ReadableStream.read_waiting hstatus hqueue, canEnqueue_callPull]
      exact h
  | cons value queue =>
      rw [ReadableStream.read_chunk hstatus hqueue, if_neg (by simp [hrequested]),
        canEnqueue_callPull]
      exact h

theorem canEnqueue_enqueue {value : Chunk} {answer : ReadableStream Chunk Err × Bool}
    (henqueue : stream.enqueue value = some answer) :
    answer.1.canCloseOrEnqueue = stream.canCloseOrEnqueue := by
  rw [ReadableStream.enqueue] at henqueue
  split at henqueue
  · split at henqueue
    · cases henqueue
      exact canEnqueue_callPull _
    · cases henqueue
      exact canEnqueue_callPull _
  · cases henqueue

theorem enqueue_of_canEnqueue (h : stream.canCloseOrEnqueue = true) (value : Chunk) :
    (stream.enqueue value).isSome = true := by
  rw [ReadableStream.enqueue, if_pos h]
  split <;> rfl

end

variable {heartbeat : ℚ} {s t : SseStream Err}

/-- A call of the writer, by what becomes of its frame. -/
theorem SseStream.write_cases (s : SseStream Err) (call : SseCall) :
    s.write call = (s, true) ∧ s.writer.stream.canCloseOrEnqueue = false ∨
      s.write call = (s, false) ∧ s.writer.controllerRef = false ∨
      ∃ answer, s.writer.stream.enqueue call.chunk = some answer ∧
        s.write call = ({ s with
          writer := { s.writer with
            stream := answer.1
            written := s.writer.written ++ [call.chunk] }
          sent := s.sent ++ [call] }, false) := by
  rw [SseStream.write, StreamState.write]
  by_cases href : s.writer.controllerRef = true
  · cases henqueue : s.writer.stream.enqueue call.chunk with
    | none =>
        refine .inl ⟨?_, ?_⟩
        · simp [href]
        · rw [← Bool.not_eq_true]
          intro hcan
          have hsome := enqueue_of_canEnqueue hcan call.chunk
          rw [henqueue] at hsome
          cases hsome
    | some answer =>
        refine .inr (.inr ⟨answer, rfl, ?_⟩)
        simp [href]
  · rw [Bool.not_eq_true] at href
    refine .inr (.inl ⟨?_, href⟩)
    simp [href]

theorem SseBooks.write (h : SseBooks heartbeat s) (call : SseCall) :
    SseBooks heartbeat (s.write call).1 := by
  rcases s.write_cases call with ⟨heq, -⟩ | ⟨heq, -⟩ | ⟨answer, henqueue, heq⟩
  · rw [heq]
    exact h
  · rw [heq]
    exact h
  · have hwriter : (s.write call).1.writer = (s.writer.write call.chunk).1 := rfl
    have hbooks := h.books.write call.chunk
    rw [← hwriter, heq] at hbooks
    rw [heq]
    refine
      { books := hbooks
        frames := ?_
        registered := h.registered
        writable := fun hrunning hopen => ?_
        timer := h.timer }
    · show s.writer.written ++ [call.chunk] = (s.sent ++ [call]).map SseCall.chunk
      rw [h.frames, List.map_append]
      rfl
    · exact (canEnqueue_enqueue henqueue).trans (h.writable hrunning hopen)

/-- While the timer is set, a ping never throws. -/
theorem SseBooks.tick (h : SseBooks heartbeat s) (htimer : s.timer = true) :
    s.tick = (s.write SseStream.ping).1 ∧ SseBooks heartbeat s.tick := by
  obtain ⟨-, hrunning, hopen⟩ := h.timer.mp htimer
  have hcan := h.writable hrunning hopen
  have hsame : s.tick = (s.write SseStream.ping).1 := by
    rw [SseStream.tick]
    rcases s.write_cases SseStream.ping with ⟨-, hnot⟩ | ⟨heq, -⟩ | ⟨answer, -, heq⟩
    · cases hcan.symm.trans hnot
    · rw [heq]
      rfl
    · rw [heq]
      rfl
  exact ⟨hsame, hsame ▸ h.write SseStream.ping⟩

theorem registered_close (s : StreamState (Option ℕ) (List UInt8) Err) :
    s.close.registered = s.registered := by
  rw [StreamState.close]
  split <;> rfl

theorem SseBooks.settle (h : SseBooks heartbeat s) (result : Except Err Unit) :
    SseBooks heartbeat { s with writer := s.writer.settle result, timer := false } := by
  have hsettled : (s.writer.settle result).starting = .settled := by cases result <;> rfl
  have hregistered : (s.writer.settle result).registered = s.writer.registered := by
    cases result with
    | ok _ => exact registered_close s.writer
    | error error => rfl
  refine
    { books := ?_
      frames := (written_settle s.writer result).trans h.frames
      registered := hregistered ▸ h.registered
      writable := fun hrunning => by cases hsettled.symm.trans hrunning
      timer := ⟨fun hset => (by cases hset), fun hset => (by cases hsettled.symm.trans hset.2.1)⟩ }
  cases result with
  | ok _ => exact h.books.close.starting .settled
  | error error => exact (h.books.error error).starting .settled

theorem SseBooks.cancel (h : SseBooks heartbeat s) :
    SseBooks heartbeat
      { s with
        writer := s.writer.cancel
        timer := s.timer && !decide (none ∈ s.writer.cancel.ran) } := by
  have hbooks := h.books.cancel
  have hkept : s.writer.cancel.registered = s.writer.registered ∧
      s.writer.cancel.starting = s.writer.starting := by
    rw [StreamState.cancel]
    dsimp only
    split <;> exact ⟨rfl, rfl⟩
  have hran : none ∈ s.writer.cancel.ran ↔ s.writer.cancel.cancelled = true := by
    rw [hbooks.ran, hkept.1]
    split
    · next hcancelled => exact iff_of_true h.registered hcancelled
    · next hopen => exact iff_of_false List.not_mem_nil hopen
  have hcancelled : s.writer.cancel.cancelled = false → s.writer.cancelled = false ∧
      s.writer.stream.status ≠ .readable := by
    intro hopen
    have hnot := mt (cancelled_cancel s.writer).mpr (Bool.eq_false_iff.mp hopen)
    rw [not_or, Bool.not_eq_true] at hnot
    exact hnot
  refine
    { books := hbooks
      frames := (written_cancel s.writer).trans h.frames
      registered := hkept.1 ▸ h.registered
      writable := fun hrunning hopen => ?_
      timer := ?_ }
  · obtain ⟨hbefore, hshut⟩ := hcancelled hopen
    have hcan := h.writable (hkept.2 ▸ hrunning) hbefore
    rw [ReadableStream.canCloseOrEnqueue, Bool.and_eq_true, ReadableStream.isReadable_iff] at hcan
    exact absurd hcan.2 hshut
  · show (s.timer && !decide (none ∈ s.writer.cancel.ran)) = true ↔ 0 < heartbeat ∧
      s.writer.cancel.starting = .running ∧ s.writer.cancel.cancelled = false
    rw [Bool.and_eq_true, h.timer, Bool.not_eq_true', decide_eq_false_iff_not, hran, hkept.2,
      Bool.not_eq_true]
    constructor
    · rintro ⟨⟨hset, hrunning, -⟩, hopen⟩
      exact ⟨hset, hrunning, hopen⟩
    · rintro ⟨hset, hrunning, hopen⟩
      exact ⟨⟨hset, hrunning, (hcancelled hopen).1⟩, hopen⟩

/-- An operation of the stream while nothing else changes. -/
theorem SseBooks.withStream (h : SseBooks heartbeat s)
    {writer : StreamState (Option ℕ) (List UInt8) Err}
    (hbooks : StreamBooks writer) (hwritten : writer.written = s.writer.written)
    (hregistered : none ∈ writer.registered) (hcancelled : writer.cancelled = s.writer.cancelled)
    (hstarting : writer.starting = .running ↔ s.writer.starting = .running)
    (hcan : s.writer.stream.canCloseOrEnqueue = true → writer.starting = .running →
      writer.stream.canCloseOrEnqueue = true) :
    SseBooks heartbeat { s with writer } where
  books := hbooks
  frames := hwritten.trans h.frames
  registered := hregistered
  writable hrunning hopen :=
    hcan (h.writable (hstarting.mp hrunning) (hcancelled ▸ hopen)) hrunning
  timer := by
    show s.timer = true ↔ _ ∧ writer.starting = .running ∧ writer.cancelled = false
    rw [h.timer, hstarting, hcancelled]

theorem SseBooks.step (h : SseBooks heartbeat s) {event : SseEvent Err}
    (hstep : s.step event = some t) : SseBooks heartbeat t := by
  cases event with
  | call call =>
      cases hstep
      exact h.write call
  | onAbort fn =>
      cases hstep
      have hkept : (s.writer.onAbort (some fn)).starting = s.writer.starting ∧
          (s.writer.onAbort (some fn)).stream = s.writer.stream ∧
          (s.writer.onAbort (some fn)).registered = s.writer.registered ++ [some fn] := by
        rw [StreamState.onAbort]
        split <;> exact ⟨rfl, rfl, rfl⟩
      refine h.withStream (h.books.onAbort _) (written_onAbort ..) ?_ (cancelled_onAbort ..)
        (by rw [hkept.1]) fun hcan _ => hkept.2.1 ▸ hcan
      rw [hkept.2.2]
      exact List.mem_append_left _ h.registered
  | tick =>
      simp only [SseStream.step, Option.ite_none_right_eq_some, Option.some_inj] at hstep
      obtain ⟨htimer, rfl⟩ := hstep
      exact (h.tick htimer).2
  | settle result =>
      simp only [SseStream.step, StreamState.step, Option.map_eq_some_iff,
        Option.ite_none_right_eq_some, Option.some_inj] at hstep
      obtain ⟨writer, ⟨-, rfl⟩, rfl⟩ := hstep
      exact h.settle result
  | told =>
      obtain ⟨writer, hwriter, rfl⟩ := Option.map_eq_some_iff.mp hstep
      have hbooks := h.books.step hwriter
      simp only [StreamState.step, Option.ite_none_right_eq_some, Option.some_inj] at hwriter
      obtain ⟨hsettled, rfl⟩ := hwriter
      refine h.withStream hbooks rfl h.registered rfl ?_ fun _ hrunning => by cases hrunning
      rw [hsettled]
      simp
  | pulled =>
      obtain ⟨writer, hwriter, rfl⟩ := Option.map_eq_some_iff.mp hstep
      have hbooks := h.books.step hwriter
      simp only [StreamState.step, Option.ite_none_right_eq_some, Option.some_inj] at hwriter
      obtain ⟨-, rfl⟩ := hwriter
      refine h.withStream hbooks rfl h.registered rfl .rfl fun hcan _ => ?_
      rw [← hcan, ReadableStream.pullFulfilled]
      split
      · exact canEnqueue_callPull _
      · rfl
  | read =>
      cases hstep
      exact h.withStream h.books.read rfl h.registered rfl .rfl fun hcan _ => canEnqueue_read hcan
  | cancel =>
      cases hstep
      exact h.cancel

theorem sseBooks_of_reachable (h : (streamSSE Err heartbeat).Reachable s) :
    SseBooks heartbeat s := by
  refine h.invariant ?_ fun _ _ _ hbooks hstep => hbooks.step hstep
  refine
    { books := ?_
      frames := rfl
      registered := List.mem_singleton_self _
      writable := fun _ _ => rfl
      timer := ?_ }
  · exact (streamBooks_of_reachable (κ := Option ℕ) .start).onAbort none
  · show decide (0 < heartbeat) = true ↔ 0 < heartbeat ∧ _
    rw [decide_eq_true_eq]
    exact ⟨fun hset => ⟨hset, rfl, rfl⟩, fun hset => hset.1⟩

/-! ### The heartbeat and the events -/

/-- The heartbeat is on exactly while the callback runs and the consumer is
there; a ping that it sends is taken. -/
theorem sse_heartbeat (h : (streamSSE Err heartbeat).Reachable s) :
    (s.timer = true ↔
      0 < heartbeat ∧ s.writer.starting = .running ∧ s.writer.cancelled = false) ∧
      ∀ t, s.step .tick = some t → t.sent = s.sent ++ [SseStream.ping] ∧ t.timer = true := by
  have hbooks := sseBooks_of_reachable h
  refine ⟨hbooks.timer, fun t hstep => ?_⟩
  simp only [SseStream.step, Option.ite_none_right_eq_some, Option.some_inj] at hstep
  obtain ⟨htimer, rfl⟩ := hstep
  obtain ⟨-, hrunning, hopen⟩ := hbooks.timer.mp htimer
  have hcan := hbooks.writable hrunning hopen
  have href : s.writer.controllerRef = true := by rw [hbooks.books.ref, hopen]; rfl
  rw [(hbooks.tick htimer).1]
  rcases s.write_cases SseStream.ping with ⟨-, hnot⟩ | ⟨-, hnot⟩ | ⟨answer, -, heq⟩
  · cases hcan.symm.trans hnot
  · cases href.symm.trans hnot
  · rw [heq]
    exact ⟨rfl, htimer⟩

/-- Chunks of frames without a lone surrogate are the bytes of their text. -/
theorem chunks_flatten {calls : List SseCall}
    (h : ∀ call ∈ calls, isWellFormed call.frame = true) :
    isWellFormed (calls.flatMap SseCall.frame) = true ∧
      utf8Bytes (calls.flatMap SseCall.frame) = (calls.map SseCall.chunk).flatten := by
  induction calls with
  | nil => exact ⟨rfl, rfl⟩
  | cons call calls ih =>
      obtain ⟨hcall, hcalls⟩ := List.forall_mem_cons.mp h
      obtain ⟨hrest, hbytes⟩ := ih hcalls
      rw [List.flatMap_cons]
      refine ⟨isWellFormed_append hcall hrest, ?_⟩
      rw [List.map_cons, List.flatten_cons, ← hbytes, SseCall.chunk, utf8Bytes,
        codePoints_append hcall, List.flatMap_append]
      rfl

/-- What a consumer has read, at any time, is the bytes of one text, which parses
to the events of the first calls that were made, in order, and to those of all
of them once the stream has closed by itself or a read has to wait. -/
theorem sse_delivery (h : (streamSSE Err heartbeat).Reachable s)
    (hids : ∀ call ∈ s.sent, call.IdWithoutNul)
    (hframes : ∀ call ∈ s.sent, isWellFormed call.frame = true) :
    ∃ text calls, isWellFormed text = true ∧ utf8Bytes text = s.writer.stream.received.flatten ∧
      calls <+: s.sent ∧ parseEventStream text = calls.foldl SseCall.receivedBy {} ∧
      (s.writer.stream.status = .closed ∧ s.writer.cancelled = false ∨
        0 < s.writer.stream.requests → calls = s.sent) := by
  have hbooks := sseBooks_of_reachable h
  have hparse : ∀ calls : List SseCall, (∀ call ∈ calls, call.IdWithoutNul) →
      parseEventStream (calls.flatMap SseCall.frame) = calls.foldl SseCall.receivedBy {} := by
    intro calls hcalls
    have hhead : (calls.flatMap SseCall.frame).head? ≠ some 0xFEFF := by
      cases calls with
      | nil => simp
      | cons call calls => exact head_frame call _
    rw [parseEventStream, if_neg hhead]
    exact feed_calls {} ⟨rfl, rfl⟩ hcalls
  have hprefix := hbooks.books.received_prefix
  rw [hbooks.frames, List.prefix_map_iff] at hprefix
  obtain ⟨calls, hcalls, hreceived⟩ := hprefix
  obtain ⟨hwell, hbytes⟩ := chunks_flatten fun call hcall => hframes call (hcalls.subset hcall)
  refine ⟨calls.flatMap SseCall.frame, calls, hwell, ?_, hcalls, ?_, fun hidle => ?_⟩
  · rw [hbytes, hreceived]
  · exact hparse calls fun call hcall => hids call (hcalls.subset hcall)
  · -- As many frames have been read as calls were made.
    have hall := hbooks.books.received_whole hidle
    rw [hreceived, hbooks.frames] at hall
    have hlength := congrArg List.length hall
    rw [List.length_map, List.length_map] at hlength
    exact hcalls.eq_of_length hlength

def greetingEvents : List (SseEvent Unit) :=
  [.read, .read, .call (.send { data := .text (js "hi") }), .tick, .settle (.ok ()), .told]

theorem sse_heartbeat_greeting : ∃ s : SseStream Unit,
    (streamSSE Unit 5000).runFrom (streamSSE Unit 5000).start (greetingEvents.take 3) = some s ∧
      ∀ t, s.step .tick = some t → t.sent = s.sent ++ [SseStream.ping] ∧ t.timer = true := by
  have hrun : ∃ s, (streamSSE Unit 5000).runFrom (streamSSE Unit 5000).start
      (greetingEvents.take 3) = some s := Option.isSome_iff_exists.mp (by decide +kernel)
  obtain ⟨s, hrun⟩ := hrun
  exact ⟨s, hrun, (sse_heartbeat (Lts.reachable_of_run _ hrun)).2⟩

theorem sse_delivery_greeting : ∃ s : SseStream Unit, ∃ text calls,
    (streamSSE Unit 5000).runFrom (streamSSE Unit 5000).start greetingEvents = some s ∧
      utf8Bytes text = s.writer.stream.received.flatten ∧ calls <+: s.sent ∧
      parseEventStream text = calls.foldl SseCall.receivedBy {} := by
  have hsent : ((streamSSE Unit 5000).runFrom (streamSSE Unit 5000).start greetingEvents).any
      (fun s => s.sent = [.send { data := .text (js "hi") }, SseStream.ping]) = true := by
    decide +kernel
  obtain ⟨s, hrun, hcalls⟩ := (Option.any_eq_true _ _).mp hsent
  rw [decide_eq_true_eq] at hcalls
  have hids : ∀ call ∈ s.sent, call.IdWithoutNul := by
    rw [hcalls]
    simp [SseCall.IdWithoutNul, SseStream.ping]
  have hframes : ∀ call ∈ s.sent, isWellFormed call.frame = true := by
    rw [hcalls]
    decide
  obtain ⟨text, calls, -, hbytes, hprefix, hparse, -⟩ :=
    sse_delivery (Lts.reachable_of_run _ hrun) hids hframes
  exact ⟨s, text, calls, hrun, hbytes, hprefix, hparse⟩

end Keala.Helpers
