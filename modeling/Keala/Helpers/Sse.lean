import Keala.Http.EventStream
import Keala.Js.NumberText
import Keala.Js.Split

/-!
The frames of `streamSSE` (`src/helpers/streams.ts`): a message and a comment as
they are written, and the events that a reader of the stream gets from them.
-/

namespace Keala.Helpers

open Js Http

/-! ### The source -/

/-- The `data` of a message: a text, or another value as `JSON.stringify` gives it. -/
inductive SseData
  | text (value : JsString)
  | other (json : Option JsString)
  deriving DecidableEq

def SseData.written : SseData → JsString
  | text value => value
  | other json => json.getD (js "null")

structure SseMessage where
  event : Option JsString := none
  data : SseData
  id : Option JsString := none
  retry : Option Number := none
  deriving DecidableEq

def sseSanitize (value : JsString) : JsString :=
  value.map fun c => if c = 13 ∨ c = 10 then 32 else c

/-- `split(/\r\n|\n/)`, from the part `current` on. -/
def splitBreaks : JsString → JsString → List JsString
  | current, [] => [current]
  | current, 13 :: 10 :: rest => current :: splitBreaks [] rest
  | current, 10 :: rest => current :: splitBreaks [] rest
  | current, c :: rest => splitBreaks (current ++ [c]) rest

/-- The lines of the data; a lone CR is turned into a space. -/
def dataLines (data : JsString) : List JsString :=
  (splitBreaks [] data).map fun part => part.map fun c => if c = 13 then 32 else c

def isFinite : Number → Bool
  | .finite _ => true
  | _ => false

def optionalField (name : JsString) (value : Option JsString) : JsString :=
  value.elim [] fun value => name ++ js ": " ++ value ++ [10]

def sseFrame (message : SseMessage) : JsString :=
  optionalField (js "event") (message.event.map sseSanitize) ++
    optionalField (js "id") (message.id.map sseSanitize) ++
    optionalField (js "retry") ((message.retry.filter isFinite).map (numberText ·.trunc)) ++
    (dataLines message.data.written).flatMap (fun line => js "data: " ++ line ++ [10]) ++ [10]

def commentFrame (text : JsString) : JsString := js ": " ++ sseSanitize text ++ [10, 10]

/-- A call of the writer; the heartbeat is the comment `ping`. -/
inductive SseCall
  | send (message : SseMessage)
  | comment (text : JsString)
  deriving DecidableEq

def SseCall.frame : SseCall → JsString
  | send message => sseFrame message
  | comment text => commentFrame text

/-! ### What a reader gets -/

/-- A CRLF as an LF, a lone CR as a space. -/
def normalizedData : JsString → JsString
  | [] => []
  | 13 :: 10 :: rest => 10 :: normalizedData rest
  | 13 :: rest => 32 :: normalizedData rest
  | c :: rest => c :: normalizedData rest

/-- The event of a message, after one whose id was `lastEventId`. -/
def SseMessage.received (message : SseMessage) (lastEventId : JsString) : StreamEvent where
  type :=
    match message.event with
    | none => js "message"
    | some event => if event = [] then js "message" else sseSanitize event
  data := normalizedData message.data.written
  lastEventId := (message.id.map sseSanitize).getD lastEventId

def SseCall.receivedBy (stream : EventStream) : SseCall → EventStream
  | comment _ => stream
  | send message =>
      { stream with
        lastEventId := (message.id.map sseSanitize).getD stream.lastEventId
        reconnectionTime :=
          (((message.retry.filter isFinite).map (numberText ·.trunc)).bind retryTime).or
            stream.reconnectionTime
        events := stream.events ++ [message.received stream.lastEventId] }

/-! ### Units without breaks -/

theorem unbroken_sanitize (value : JsString) : Unbroken (sseSanitize value) := by
  intro c hc
  obtain ⟨d, -, rfl⟩ := List.mem_map.mp hc
  split_ifs with h
  · decide
  · exact not_or.mp h

theorem unbroken_digits {text : JsString} (h : ∀ c ∈ text, isDigit c = true) : Unbroken text := by
  intro c hc
  have hdigit := h c hc
  constructor
  · rintro rfl
    cases hdigit
  · rintro rfl
    cases hdigit

theorem unbroken_append {a b : JsString} (ha : Unbroken a) (hb : Unbroken b) :
    Unbroken (a ++ b) :=
  List.forall_mem_append.mpr ⟨ha, hb⟩

theorem unbroken_zeros (n : ℕ) : Unbroken (List.replicate n 48) := by
  intro c hc
  rw [List.eq_of_mem_replicate hc]
  decide

theorem unbroken_ascii {text : JsString} (h : text.all fun c => c ≠ 13 ∧ c ≠ 10) :
    Unbroken text := fun c hc => by simpa using List.all_eq_true.mp h c hc

theorem unbroken_placePoint {digits : JsString} (h : Unbroken digits) (n : ℤ) :
    Unbroken (placePoint digits n) := by
  have htake : ∀ k, Unbroken (digits.take k) := fun k c hc => h c (List.mem_of_mem_take hc)
  have hdrop : ∀ k, Unbroken (digits.drop k) := fun k c hc => h c (List.mem_of_mem_drop hc)
  have hexponent : Unbroken (decimalText (n - 1).natAbs) :=
    unbroken_digits fun _ => isDigit_of_mem_decimalText
  have hpoint : Unbroken (js ".") := unbroken_ascii (by decide)
  rw [placePoint]
  split_ifs
  · exact unbroken_append h (unbroken_zeros _)
  · exact unbroken_append (unbroken_append (htake _) hpoint) (hdrop _)
  · exact unbroken_append (unbroken_append (unbroken_ascii (by decide)) (unbroken_zeros _)) h
  all_goals
    repeat' apply unbroken_append
  all_goals
    first
    | exact htake _
    | exact hdrop _
    | exact hexponent
    | exact unbroken_ascii (by decide)

theorem unbroken_positiveText (x : ℚ) : Unbroken (positiveText x) := by
  rw [positiveText]
  split
  · exact unbroken_ascii (by decide)
  · apply unbroken_placePoint
    intro c hc
    exact unbroken_digits (fun _ => isDigit_of_mem_decimalText) c
      ((List.rdropWhile_prefix _ _).subset hc)

/-- The text of a number stays on its line. -/
theorem unbroken_numberText : ∀ x : Number, Unbroken (numberText x)
  | .nan | .infinity | .negInfinity => unbroken_ascii (by decide)
  | .finite x => by
    rw [numberText]
    split_ifs
    · exact unbroken_ascii (by decide)
    · exact unbroken_append (unbroken_ascii (by decide)) (unbroken_positiveText _)
    · exact unbroken_positiveText _

/-! ### The lines of the data -/

theorem lf_not_mem_splitBreaks {current data part : JsString} (hcurrent : (10 : CodeUnit) ∉ current)
    (h : part ∈ splitBreaks current data) : (10 : CodeUnit) ∉ part := by
  induction current, data using splitBreaks.induct with
  | case1 current =>
    rw [List.mem_singleton.mp h]
    exact hcurrent
  | case2 current rest ih =>
    rcases List.mem_cons.mp h with rfl | h
    · exact hcurrent
    · exact ih List.not_mem_nil h
  | case3 current rest ih =>
    rcases List.mem_cons.mp h with rfl | h
    · exact hcurrent
    · exact ih List.not_mem_nil h
  | case4 current c rest hcrlf hlf ih =>
    rw [splitBreaks] at h
    · apply ih _ h
      intro hmem
      rcases List.mem_append.mp hmem with hmem | hmem
      · exact hcurrent hmem
      · exact hlf (List.mem_singleton.mp hmem).symm
    · exact hcrlf
    · exact hlf

theorem unbroken_of_mem_dataLines {data line : JsString} (h : line ∈ dataLines data) :
    Unbroken line := by
  obtain ⟨part, hpart, rfl⟩ := List.mem_map.mp h
  intro c hc
  obtain ⟨d, hd, rfl⟩ := List.mem_map.mp hc
  split_ifs with hcr
  · decide
  · refine ⟨hcr, ?_⟩
    rintro rfl
    exact lf_not_mem_splitBreaks List.not_mem_nil hpart hd

theorem splitBreaks_joined (current data : JsString) :
    (splitBreaks current data).flatMap
        (fun part => (part.map fun c => if c = 13 then (32 : CodeUnit) else c) ++ [10]) =
      (current.map fun c => if c = 13 then 32 else c) ++ normalizedData data ++ [10] := by
  induction current, data using splitBreaks.induct with
  | case1 current => simp [splitBreaks, normalizedData]
  | case2 current rest ih => simp [splitBreaks, normalizedData, ih]
  | case3 current rest ih => simp [splitBreaks, normalizedData, ih]
  | case4 current c rest hcrlf hlf ih =>
    have hnormal : normalizedData (c :: rest) =
        (if c = 13 then 32 else c) :: normalizedData rest := by
      split_ifs with hcr
      · subst hcr
        rw [normalizedData]
        exact fun tail => hcrlf tail rfl
      · rw [normalizedData]
        · exact fun _ hc => absurd hc hcr
        · exact hcr
    rw [splitBreaks, ih, hnormal]
    · simp
    · exact hcrlf
    · exact hlf

/-- The lines, each ended by an LF, are the data with its breaks normalised. -/
theorem dataLines_joined (data : JsString) :
    (dataLines data).flatMap (fun line => line ++ [10]) = normalizedData data ++ [10] := by
  rw [dataLines, List.flatMap_map]
  exact splitBreaks_joined [] data

/-! ### What the frames read as -/

variable {name : JsString}

theorem feed_optionalField (stream : EventStream) (hne : name ≠ [])
    (hcolon : (58 : CodeUnit) ∉ name) (hname : Unbroken name) {value : Option JsString}
    (hvalue : ∀ text ∈ value, Unbroken text) (rest : JsString) :
    stream.feed (optionalField name value ++ rest) =
      (value.elim stream (stream.processField name)).feed rest := by
  cases value with
  | none => rfl
  | some text =>
    rw [optionalField, Option.elim_some, Option.elim_some, List.append_assoc]
    exact stream.feed_field hne hcolon hname (hvalue text rfl) rest

/-- The data lines add up in the buffer. -/
theorem feed_dataLines (stream : EventStream) {lines : List JsString}
    (h : ∀ line ∈ lines, Unbroken line) (rest : JsString) :
    stream.feed (lines.flatMap (fun line => js "data: " ++ line ++ [10]) ++ rest) =
      { stream with data := stream.data ++ lines.flatMap (fun line => line ++ [10]) }.feed
        rest := by
  induction lines generalizing stream with
  | nil => rw [List.flatMap_nil, List.flatMap_nil, List.append_nil, List.nil_append]
  | cons line lines ih =>
    have hname : js "data" ≠ [] := by decide
    have hline := stream.feed_field hname (by decide)
      (unbroken_ascii (by decide)) (h line List.mem_cons_self)
      (lines.flatMap (fun line => js "data: " ++ line ++ [10]) ++ rest)
    have hstep : stream.processField (js "data") line =
        { stream with data := stream.data ++ line ++ [10] } := by
      rw [EventStream.processField, if_neg (by decide), if_pos rfl]
    have hshape : (line :: lines).flatMap (fun line => js "data: " ++ line ++ [10]) ++ rest =
        js "data" ++ js ": " ++ line ++
          10 :: (lines.flatMap (fun line => js "data: " ++ line ++ [10]) ++ rest) := by
      have hmark : js "data: " = js "data" ++ js ": " := by decide
      simp [hmark]
    rw [hshape, hline, hstep, ih _ fun other hother => h other (List.mem_cons_of_mem _ hother)]
    simp

def Between (stream : EventStream) : Prop := stream.data = [] ∧ stream.eventType = []

theorem between_receivedBy {stream : EventStream} (h : Between stream) (call : SseCall) :
    Between (SseCall.receivedBy stream call) := by
  cases call with
  | send message => exact h
  | comment text => exact h

def SseCall.IdWithoutNul : SseCall → Prop
  | send message => ∀ id ∈ message.id, 0 ∉ id
  | comment _ => True

theorem nul_not_mem_sanitize {value : JsString} (h : 0 ∉ value) : 0 ∉ sseSanitize value := by
  intro hmem
  obtain ⟨c, hc, hzero⟩ := List.mem_map.mp hmem
  split_ifs at hzero with hbreak
  · exact absurd hzero (by decide)
  · exact h (hzero ▸ hc)

theorem feed_comment_frame (stream : EventStream) (hbetween : Between stream)
    (text rest : JsString) : stream.feed (commentFrame text ++ rest) = stream.feed rest := by
  have hshape : commentFrame text ++ rest = 58 :: (32 :: sseSanitize text) ++ 10 :: 10 :: rest := by
    simp [commentFrame, js]
  have hline : Unbroken (32 :: sseSanitize text) :=
    List.forall_mem_cons.mpr ⟨by decide, unbroken_sanitize text⟩
  rw [hshape, stream.feed_comment hline, stream.feed_blank, EventStream.dispatch,
    if_pos hbetween.1, ← hbetween.2]

theorem processed_event (stream : EventStream) (value : Option JsString) :
    value.elim stream (stream.processField (js "event")) =
      { stream with eventType := value.getD stream.eventType } := by
  cases value with
  | none => rfl
  | some text =>
    rw [Option.elim_some, EventStream.processField, if_pos rfl]
    rfl

theorem processed_id (stream : EventStream) {value : Option JsString}
    (h : ∀ id ∈ value, 0 ∉ id) :
    value.elim stream (stream.processField (js "id")) =
      { stream with lastEventId := value.getD stream.lastEventId } := by
  cases value with
  | none => rfl
  | some id =>
    rw [Option.elim_some, EventStream.processField, if_neg (by decide), if_neg (by decide),
      if_pos rfl, if_neg (h id rfl)]
    rfl

theorem processed_retry (stream : EventStream) (value : Option JsString) :
    value.elim stream (stream.processField (js "retry")) =
      { stream with
        reconnectionTime := (value.bind retryTime).or stream.reconnectionTime } := by
  cases value with
  | none => rfl
  | some text =>
    rw [Option.elim_some, EventStream.processField, if_neg (by decide), if_neg (by decide),
      if_neg (by decide), if_pos rfl]
    rfl

theorem unbroken_of_sanitized {value : Option JsString} :
    ∀ text ∈ value.map sseSanitize, Unbroken text := by
  intro text htext
  obtain ⟨_, -, rfl⟩ := Option.map_eq_some_iff.mp htext
  exact unbroken_sanitize _

/-- The dispatch after the data lines. -/
theorem dispatch_data (stream : EventStream) (data : JsString) :
    EventStream.dispatch { stream with data := data ++ [10] } =
      { stream with
        data := []
        eventType := []
        events := stream.events ++
          [{ type := if stream.eventType = [] then js "message" else stream.eventType
             data := data
             lastEventId := stream.lastEventId }] } := by
  rw [EventStream.dispatch, if_neg (by simp)]
  simp

theorem sseSanitize_eq_nil {value : JsString} : sseSanitize value = [] ↔ value = [] :=
  List.map_eq_nil_iff

/-- A message is one event. -/
theorem feed_message (stream : EventStream) (hbetween : Between stream) {message : SseMessage}
    (hid : ∀ id ∈ message.id, 0 ∉ id) (rest : JsString) :
    stream.feed (sseFrame message ++ rest) =
      (SseCall.receivedBy stream (.send message)).feed rest := by
  have hsanitizedId : ∀ id ∈ message.id.map sseSanitize, 0 ∉ id := by
    intro text htext
    obtain ⟨id, hmem, rfl⟩ := Option.map_eq_some_iff.mp htext
    exact nul_not_mem_sanitize (hid id hmem)
  have hretry : ∀ text ∈ (message.retry.filter isFinite).map (numberText ·.trunc),
      Unbroken text := by
    intro text htext
    obtain ⟨_, -, rfl⟩ := Option.map_eq_some_iff.mp htext
    exact unbroken_numberText _
  have htype : (if (message.event.map sseSanitize).getD [] = [] then js "message"
      else (message.event.map sseSanitize).getD []) =
        (message.received stream.lastEventId).type := by
    rw [SseMessage.received]
    cases message.event with
    | none => rfl
    | some event => simp [sseSanitize_eq_nil]
  obtain ⟨hdata, heventType⟩ := hbetween
  rw [sseFrame, List.append_assoc, List.append_assoc, List.append_assoc, List.append_assoc,
    feed_optionalField stream (by decide) (by decide) (unbroken_ascii (by decide))
      unbroken_of_sanitized, processed_event,
    feed_optionalField _ (by decide) (by decide) (unbroken_ascii (by decide))
      unbroken_of_sanitized, processed_id _ hsanitizedId,
    feed_optionalField _ (by decide) (by decide) (unbroken_ascii (by decide)) hretry,
    processed_retry, feed_dataLines _ (fun _ => unbroken_of_mem_dataLines), List.singleton_append,
    EventStream.feed_blank, dataLines_joined, hdata, List.nil_append, dispatch_data]
  simp only [SseCall.receivedBy, hdata, heventType, htype]
  rfl

/-- The frame of a call starts no byte order mark. -/
theorem head_frame (call : SseCall) (rest : JsString) :
    (call.frame ++ rest).head? ≠ some 0xFEFF := by
  cases call with
  | comment text => simp [SseCall.frame, commentFrame, js]
  | send message =>
    have hdata : ∃ line lines, dataLines message.data.written = line :: lines := by
      apply List.exists_cons_of_ne_nil
      intro hnil
      have hjoined := dataLines_joined message.data.written
      simp [hnil] at hjoined
    obtain ⟨line, lines, hlines⟩ := hdata
    rw [SseCall.frame, sseFrame, hlines]
    cases message.event.map sseSanitize <;> cases message.id.map sseSanitize <;>
      cases (message.retry.filter isFinite).map (numberText ·.trunc) <;>
      simp [optionalField, js]

theorem feed_calls (stream : EventStream) (hbetween : Between stream) {calls : List SseCall}
    (h : ∀ call ∈ calls, call.IdWithoutNul) :
    stream.feed (calls.flatMap SseCall.frame) = calls.foldl SseCall.receivedBy stream := by
  induction calls generalizing stream with
  | nil => rfl
  | cons call calls ih =>
    have hrest := ih (SseCall.receivedBy stream call) (between_receivedBy hbetween call)
      fun other hother => h other (List.mem_cons_of_mem _ hother)
    rw [List.flatMap_cons, List.foldl_cons, ← hrest]
    cases call with
    | comment text => exact feed_comment_frame stream hbetween text _
    | send message => exact feed_message stream hbetween (h _ List.mem_cons_self) _

/-- A reader of the stream gets the messages that were sent, and nothing else:
no text of a message or a comment makes another field or another event. -/
theorem parseEventStream_frames (calls : List SseCall) (h : ∀ call ∈ calls, call.IdWithoutNul) :
    parseEventStream (calls.flatMap SseCall.frame) = calls.foldl SseCall.receivedBy {} := by
  have hhead : (calls.flatMap SseCall.frame).head? ≠ some 0xFEFF := by
    cases calls with
    | nil => simp
    | cons call calls => exact head_frame call _
  rw [parseEventStream, if_neg hhead]
  exact feed_calls {} ⟨rfl, rfl⟩ h

def forgingCalls : List SseCall :=
  [.send { event := some (js "a\ndata: forged"), data := .text (js "x\r\n\ry\n"),
           id := some (js "7\r8"), retry := some (.finite (3001 / 2)) },
   .comment (js "note\n\ndata: forged"),
   .send { data := .other none }]

theorem parseEventStream_frames_forging :
    parseEventStream (forgingCalls.flatMap SseCall.frame) =
      { lastEventId := js "7 8"
        reconnectionTime := some 1500
        events :=
          [{ type := js "a data: forged", data := js "x\n y\n", lastEventId := js "7 8" },
           { type := js "message", data := js "null", lastEventId := js "7 8" }] } := by
  have hids : ∀ call ∈ forgingCalls, call.IdWithoutNul := by
    simp [forgingCalls, SseCall.IdWithoutNul, js]
  rw [parseEventStream_frames forgingCalls hids]
  decide +kernel

/-- An event with an empty name is one without a name to a reader. -/
theorem empty_event_name_lost : ¬∀ event data : JsString, ∃ received : StreamEvent,
    (parseEventStream (sseFrame { event := some event, data := .text data })).events =
      [received] ∧ received.type = sseSanitize event := by
  intro h
  obtain ⟨received, hevents, htype⟩ := h [] (js "x")
  have hread : (parseEventStream (sseFrame { event := some [], data := .text (js "x") })).events =
      [{ type := js "message", data := js "x", lastEventId := [] }] := by decide +kernel
  rw [hread] at hevents
  obtain rfl := List.singleton_inj.mp hevents
  exact absurd htype (by decide)

end Keala.Helpers
