import Keala.Js.Digits
import Keala.Js.Search

/-!
The parser of `text/event-stream` in the HTML standard: a stream is read line
by line, each field changes a buffer, and a blank line dispatches an event.
-/

namespace Keala.Http

open Js

structure StreamEvent where
  type : JsString
  data : JsString
  lastEventId : JsString
  deriving DecidableEq

structure EventStream where
  data : JsString := []
  eventType : JsString := []
  lastEventId : JsString := []
  reconnectionTime : Option ℕ := none
  events : List StreamEvent := []
  deriving DecidableEq

/-- The lines that a CRLF, an LF or a CR ends; what none of them ends is not read. -/
def completeLines : JsString → JsString → List JsString
  | _, [] => []
  | current, 13 :: 10 :: rest => current :: completeLines [] rest
  | current, 13 :: rest => current :: completeLines [] rest
  | current, 10 :: rest => current :: completeLines [] rest
  | current, c :: rest => completeLines (current ++ [c]) rest

def Unbroken (line : JsString) : Prop := ∀ c ∈ line, c ≠ 13 ∧ c ≠ 10

/-- The reconnection time a value sets: only digits do. -/
def retryTime (value : JsString) : Option ℕ :=
  if value ≠ [] ∧ value.all isDigit then some (decimalValue value) else none

namespace EventStream

def processField (stream : EventStream) (field value : JsString) : EventStream :=
  if field = js "event" then { stream with eventType := value }
  else if field = js "data" then { stream with data := stream.data ++ value ++ [10] }
  else if field = js "id" then
    if 0 ∈ value then stream else { stream with lastEventId := value }
  else if field = js "retry" then
    { stream with reconnectionTime := (retryTime value).or stream.reconnectionTime }
  else stream

def dispatch (stream : EventStream) : EventStream :=
  if stream.data = [] then { stream with eventType := [] }
  else
    { stream with
      data := []
      eventType := []
      events := stream.events ++
        [{ type := if stream.eventType = [] then js "message" else stream.eventType
           data := if stream.data.getLast? = some 10 then stream.data.dropLast else stream.data
           lastEventId := stream.lastEventId }] }

def processLine (stream : EventStream) (line : JsString) : EventStream :=
  if line = [] then stream.dispatch
  else
    match indexOf line 58 with
    | none => stream.processField line []
    | some 0 => stream
    | some colon =>
        let value := line.drop (colon + 1)
        stream.processField (line.take colon)
          (if value.head? = some 32 then value.tail else value)

def feed (stream : EventStream) (text : JsString) : EventStream :=
  (completeLines [] text).foldl processLine stream

end EventStream

/-- A whole stream; one byte order mark in front is ignored. -/
def parseEventStream (text : JsString) : EventStream :=
  EventStream.feed {} (if text.head? = some 0xFEFF then text.tail else text)

/-! ### Line by line -/

theorem completeLines_line {line : JsString} (h : Unbroken line) (current rest : JsString) :
    completeLines current (line ++ 10 :: rest) = (current ++ line) :: completeLines [] rest := by
  induction line generalizing current with
  | nil =>
    rw [List.nil_append, List.append_nil]
    rfl
  | cons c line ih =>
    obtain ⟨hcr, hlf⟩ := h c List.mem_cons_self
    rw [List.cons_append, completeLines]
    · rw [ih fun d hd => h d (List.mem_cons_of_mem _ hd), List.append_assoc]
      rfl
    · rintro _ rfl
      exact absurd rfl hcr
    · rintro rfl
      exact hcr rfl
    · rintro rfl
      exact hlf rfl

namespace EventStream

variable {line field value : JsString}

theorem feed_line (stream : EventStream) (h : Unbroken line) (rest : JsString) :
    stream.feed (line ++ 10 :: rest) = (stream.processLine line).feed rest := by
  rw [feed, completeLines_line h, List.nil_append, List.foldl_cons]
  rfl

/-- A blank line dispatches. -/
theorem feed_blank (stream : EventStream) (rest : JsString) :
    stream.feed (10 :: rest) = stream.dispatch.feed rest :=
  feed_line stream (fun _ hc => absurd hc List.not_mem_nil) rest

theorem processLine_field (stream : EventStream) (hne : field ≠ [])
    (hfield : (58 : CodeUnit) ∉ field) (value : JsString) :
    stream.processLine (field ++ js ": " ++ value) = stream.processField field value := by
  have hshape : field ++ js ": " ++ value = field ++ 58 :: 32 :: value := by
    rw [List.append_assoc]
    rfl
  have hlength : ∃ n, field.length = n + 1 := Nat.exists_eq_succ_of_ne_zero (by simpa using hne)
  obtain ⟨n, hn⟩ := hlength
  rw [processLine, hshape, if_neg (by simp), indexOf_append_cons hfield, hn]
  have hdrop : (field ++ 58 :: 32 :: value).drop (n + 1 + 1) = 32 :: value := by
    rw [← hn, ← List.drop_drop, List.drop_left]
    rfl
  simp only [hdrop]
  rw [← hn, List.take_left]
  rfl

/-- A field on a line of its own. -/
theorem feed_field (stream : EventStream) (hne : field ≠ []) (hcolon : (58 : CodeUnit) ∉ field)
    (hfield : Unbroken field) (hvalue : Unbroken value) (rest : JsString) :
    stream.feed (field ++ js ": " ++ value ++ 10 :: rest) =
      (stream.processField field value).feed rest := by
  rw [feed_line, processLine_field stream hne hcolon]
  intro c hc
  rcases List.mem_append.mp hc with hc | hc
  · rcases List.mem_append.mp hc with hc | hc
    · exact hfield c hc
    · have hcolonSpace : c = 58 ∨ c = 32 := by simpa [js] using hc
      rcases hcolonSpace with rfl | rfl <;> decide
  · exact hvalue c hc

/-- A comment on a line of its own. -/
theorem feed_comment (stream : EventStream) (h : Unbroken line) (rest : JsString) :
    stream.feed (58 :: line ++ 10 :: rest) = stream.feed rest := by
  have hline : Unbroken (58 :: line) := List.forall_mem_cons.mpr ⟨by decide, h⟩
  rw [feed_line stream hline]
  rfl

end EventStream

end Keala.Http
