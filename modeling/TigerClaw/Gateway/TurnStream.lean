import TigerClaw.Tui.SseClient

/-!
# The event stream of a turn

The frame writers of `src/gateway/routes.zig`, and what the terminal's parser makes of their
frames.

* `writeChunkFrame` and its siblings: the code, with `std.json`'s string encoding.
* `writeEvent_eq`: every frame is a `data:` line with an object of strings, and a blank line.
* `received_of_fits`: of payloads that fit the parser's buffer those arrive that are UTF-8.
* `received_eq`: of the events that are written, those arrive whose payload fits the parser's
  buffer.  The others are dropped.
* `stream_agrees_iff`: both ends agree exactly if every payload fits.
-/

namespace TigerClaw
namespace Gateway

open Json (Token Tree)
open Tui (Event StreamSide)

/-- `std.json.Stringify.encodeJsonString`. -/
def encodeJsonString (s : Bytes) : Bytes := (Token.string s).write

def writeFrame (jsonLine : Bytes) : Bytes := ascii "data: " ++ jsonLine ++ ascii "\n\n"

def writeChunkFrame (text : Bytes) : Bytes :=
  ascii "data: \x7b\"type\":\"chunk\",\"text\":" ++ encodeJsonString text ++ ascii "\x7d\n\n"

/-- An empty summary is left out. -/
def writeToolStartFrame (id name argsSummary : Bytes) : Bytes :=
  ascii "data: \x7b\"type\":\"tool_start\",\"id\":" ++ encodeJsonString id ++ ascii ",\"name\":" ++
    encodeJsonString name ++
    (if argsSummary.length > 0 then ascii ",\"args_summary\":" ++ encodeJsonString argsSummary
      else []) ++
    ascii "\x7d\n\n"

def writeToolProgressFrame (id stream chunk : Bytes) : Bytes :=
  ascii "data: \x7b\"type\":\"tool_progress\",\"id\":" ++ encodeJsonString id ++
    ascii ",\"stream\":" ++ encodeJsonString stream ++ ascii ",\"chunk\":" ++
    encodeJsonString chunk ++ ascii "\x7d\n\n"

def writeToolDoneFrame (id name output : Bytes) : Bytes :=
  ascii "data: \x7b\"type\":\"tool_done\",\"id\":" ++ encodeJsonString id ++ ascii ",\"name\":" ++
    encodeJsonString name ++ ascii ",\"output\":" ++ encodeJsonString output ++ ascii "\x7d\n\n"

def writeErrorFrame (message : Bytes) : Bytes :=
  ascii "data: \x7b\"type\":\"error\",\"message\":" ++ encodeJsonString message ++ ascii "\x7d\n\n"

def streamName : StreamSide → Bytes
  | .stdout => ascii "stdout"
  | .stderr => ascii "stderr"

/-- The frame of an event, by `chunkSink`, `toolEventSink` and the end of the turn. -/
def writeEvent : Event → Bytes
  | .chunk text => writeChunkFrame text
  | .toolStart id name argsSummary => writeToolStartFrame id name argsSummary
  | .toolProgress id stream chunk => writeToolProgressFrame id (streamName stream) chunk
  | .toolDone id name output => writeToolDoneFrame id name output
  | .done => writeFrame (ascii "\x7b\"type\":\"done\"\x7d")
  | .err message => writeErrorFrame message

/-! ## The payload of a frame -/

/-- The fields of the object in the frame. -/
def payloadFields : Event → List (Bytes × Bytes)
  | .chunk text => [(ascii "type", ascii "chunk"), (ascii "text", text)]
  | .toolStart id name argsSummary =>
    [(ascii "type", ascii "tool_start"), (ascii "id", id), (ascii "name", name)] ++
      if argsSummary.length > 0 then [(ascii "args_summary", argsSummary)] else []
  | .toolProgress id stream chunk =>
    [(ascii "type", ascii "tool_progress"), (ascii "id", id), (ascii "stream", streamName stream),
      (ascii "chunk", chunk)]
  | .toolDone id name output =>
    [(ascii "type", ascii "tool_done"), (ascii "id", id), (ascii "name", name),
      (ascii "output", output)]
  | .done => [(ascii "type", ascii "done")]
  | .err message => [(ascii "type", ascii "error"), (ascii "message", message)]

/-- The JSON text in the frame. -/
def payload (event : Event) : Bytes := Json.write (Json.stringObject (payloadFields event))

/-- The strings of an event are UTF-8. -/
def Utf8 : Event → Prop
  | .chunk text => Json.utf8Valid text = true
  | .toolStart id name argsSummary =>
    Json.utf8Valid id = true ∧ Json.utf8Valid name = true ∧ Json.utf8Valid argsSummary = true
  | .toolProgress id _ chunk => Json.utf8Valid id = true ∧ Json.utf8Valid chunk = true
  | .toolDone id name output =>
    Json.utf8Valid id = true ∧ Json.utf8Valid name = true ∧ Json.utf8Valid output = true
  | .done => True
  | .err message => Json.utf8Valid message = true

instance decidableUtf8 : DecidablePred Utf8
  | .chunk _ | .err _ => inferInstanceAs (Decidable (_ = true))
  | .toolStart _ _ _ | .toolDone _ _ _ =>
    inferInstanceAs (Decidable (_ = true ∧ _ = true ∧ _ = true))
  | .toolProgress _ _ _ => inferInstanceAs (Decidable (_ = true ∧ _ = true))
  | .done => isTrue trivial

/-- **A frame is a `data:` line and a blank line.** -/
theorem writeEvent_eq (event : Event) :
    writeEvent event = ascii "data: " ++ payload event ++ [0x0A, 0x0A] := by
  -- both sides are put in the same association; what is left are literals to compare
  cases event
  case toolStart id name argsSummary =>
    by_cases hargs : argsSummary.length > 0
    all_goals
      simp [writeEvent, payload, payloadFields, writeToolStartFrame, hargs, encodeJsonString,
        Json.stringObject, Json.objectTokens, Json.commaSeparated, Json.fieldTokens,
        Json.Value.tokens, Json.write, Token.write]
      rfl
  all_goals
    simp [writeEvent, payload, payloadFields, writeChunkFrame, writeToolProgressFrame,
      writeToolDoneFrame, writeErrorFrame, writeFrame, encodeJsonString, Json.stringObject,
      Json.objectTokens, Json.commaSeparated, Json.fieldTokens, Json.Value.tokens, Json.write,
      Token.write]
    rfl

/-- The text of an object ends in its brace. -/
theorem payload_eq (event : Event) : ∃ body, payload event = 0x7B :: (body ++ [0x7D]) := by
  refine ⟨Json.write (Json.commaSeparated ((payloadFields event).map fun field =>
    Json.fieldTokens (field.1, .scalar (.string field.2) (Token.isScalar_string field.2)))), ?_⟩
  simp [payload, Json.stringObject, Json.objectTokens, Json.write, Token.write, Function.comp_def]

/-- Newlines are escaped. -/
theorem newline_notMem_payload (event : Event) : (0x0A : UInt8) ∉ payload event :=
  Json.control_notMem_write (by decide) fun s hs =>
    absurd hs (Json.number_notMem_stringObject s _)

theorem nodup_payloadFields (event : Event) : ((payloadFields event).map Prod.fst).Nodup := by
  cases event with
  | chunk text =>
    show [ascii "type", ascii "text"].Nodup
    decide
  | toolStart id name argsSummary =>
    by_cases hargs : argsSummary.length > 0
    · simp only [payloadFields, if_pos hargs]
      show [ascii "type", ascii "id", ascii "name", ascii "args_summary"].Nodup
      decide
    · simp only [payloadFields, if_neg hargs]
      show [ascii "type", ascii "id", ascii "name"].Nodup
      decide
  | toolProgress id stream chunk =>
    show [ascii "type", ascii "id", ascii "stream", ascii "chunk"].Nodup
    decide
  | toolDone id name output =>
    show [ascii "type", ascii "id", ascii "name", ascii "output"].Nodup
    decide
  | done => decide
  | err message =>
    show [ascii "type", ascii "message"].Nodup
    decide

/-- The names of the fields are ASCII, so it is up to the strings. -/
theorem utf8_payloadFields {event : Event} (h : Utf8 event) :
    ∀ field ∈ payloadFields event,
      Json.utf8Valid field.1 = true ∧ Json.utf8Valid field.2 = true := by
  have hnil : ∀ field ∈ ([] : List (Bytes × Bytes)),
      Json.utf8Valid field.1 = true ∧ Json.utf8Valid field.2 = true := by simp
  cases event with
  | chunk text =>
    simp only [payloadFields, List.forall_mem_cons]
    exact ⟨by decide, ⟨by decide, h⟩, hnil⟩
  | toolStart id name argsSummary =>
    obtain ⟨hid, hname, hsummary⟩ := h
    by_cases hargs : argsSummary.length > 0
    · simp only [payloadFields, if_pos hargs, List.cons_append, List.nil_append,
        List.forall_mem_cons]
      exact ⟨by decide, ⟨by decide, hid⟩, ⟨by decide, hname⟩, ⟨by decide, hsummary⟩, hnil⟩
    · simp only [payloadFields, if_neg hargs, List.append_nil, List.forall_mem_cons]
      exact ⟨by decide, ⟨by decide, hid⟩, ⟨by decide, hname⟩, hnil⟩
  | toolProgress id stream chunk =>
    have hstream : Json.utf8Valid (streamName stream) = true := by cases stream <;> decide
    simp only [payloadFields, List.forall_mem_cons]
    exact ⟨by decide, ⟨by decide, h.1⟩, ⟨by decide, hstream⟩, ⟨by decide, h.2⟩, hnil⟩
  | toolDone id name output =>
    simp only [payloadFields, List.forall_mem_cons]
    exact ⟨by decide, ⟨by decide, h.1⟩, ⟨by decide, h.2.1⟩, ⟨by decide, h.2.2⟩, hnil⟩
  | done =>
    simp only [payloadFields, List.forall_mem_cons]
    exact ⟨by decide, hnil⟩
  | err message =>
    simp only [payloadFields, List.forall_mem_cons]
    exact ⟨by decide, ⟨by decide, h⟩, hnil⟩

theorem exists_field_of_not_utf8 {event : Event} (h : ¬ Utf8 event) :
    ∃ field ∈ payloadFields event, Json.utf8Valid field.2 = false := by
  by_contra hall
  have hvalid : ∀ field ∈ payloadFields event, Json.utf8Valid field.2 = true := by
    intro field hfield
    by_contra hbad
    exact hall ⟨field, hfield, Bool.eq_false_iff.mpr hbad⟩
  refine h ?_
  cases event with
  | chunk text => exact hvalid (ascii "text", text) (by simp [payloadFields])
  | toolStart id name argsSummary =>
    refine ⟨hvalid (ascii "id", id) (by simp [payloadFields]),
      hvalid (ascii "name", name) (by simp [payloadFields]), ?_⟩
    by_cases hargs : argsSummary.length > 0
    · exact hvalid (ascii "args_summary", argsSummary) (by simp [payloadFields, hargs])
    · obtain rfl : argsSummary = [] := by simpa using hargs
      rfl
  | toolProgress id stream chunk =>
    exact ⟨hvalid (ascii "id", id) (by simp [payloadFields]),
      hvalid (ascii "chunk", chunk) (by simp [payloadFields])⟩
  | toolDone id name output =>
    exact ⟨hvalid (ascii "id", id) (by simp [payloadFields]),
      hvalid (ascii "name", name) (by simp [payloadFields]),
      hvalid (ascii "output", output) (by simp [payloadFields])⟩
  | done => trivial
  | err message => exact hvalid (ascii "message", message) (by simp [payloadFields])

/-- A payload that is not UTF-8 gives nothing. -/
theorem parseAndDispatch_eq_none {event : Event} (h : ¬ Utf8 event) :
    Tui.parseAndDispatch (payload event) = none := by
  obtain ⟨field, hfield, hutf8⟩ := exists_field_of_not_utf8 h
  rw [Tui.parseAndDispatch, payload, Json.Tree.parse_write_eq_none hfield hutf8]

/-- **A payload that is read whole gives its event.** -/
theorem parseAndDispatch_payload {event : Event} (h : Utf8 event) :
    Tui.parseAndDispatch (payload event) = some event := by
  rw [Tui.parseAndDispatch, payload,
    Json.Tree.parse_write (nodup_payloadFields event) (utf8_payloadFields h)]
  cases event
  case toolStart id name argsSummary =>
    by_cases hargs : argsSummary.length > 0
    · simp only [payloadFields, if_pos hargs]
      rfl
    · simp only [payloadFields, if_neg hargs]
      obtain rfl : argsSummary = [] := by simpa using hargs
      rfl
  case toolProgress id stream chunk => cases stream <;> rfl
  all_goals rfl

/-- **A payload cut short gives nothing.** -/
theorem parseAndDispatch_torn {event : Event} (h : Utf8 event) {n : ℕ}
    (hn : n < (payload event).length) : Tui.parseAndDispatch ((payload event).take n) = none := by
  obtain ⟨body, hbody⟩ := payload_eq event
  have hsplit : (payload event).take n ++ (payload event).drop n = payload event :=
    List.take_append_drop n _
  have hlast : ∃ b ∈ (payload event).drop n, Json.isBlank b = false := by
    refine ⟨0x7D, ?_, rfl⟩
    rw [hbody] at hn ⊢
    rw [← List.cons_append, List.length_append, List.length_singleton] at hn
    rw [← List.cons_append, List.drop_append_of_le_length (by omega)]
    simp
  have hscan := Json.Tree.scan_stringObject (utf8_payloadFields h)
  rw [← payload, ← hsplit] at hscan
  rw [Tui.parseAndDispatch, Json.Tree.parse_torn hscan
    (Json.Tree.read_stringObject (nodup_payloadFields event)) (hsplit.trans hbody) hlast]

/-! ## Both ends -/

/-- **What arrives of one event**: the event if its payload fits the parser's buffer, nothing if
not. -/
theorem dispatchFrame_payload {event : Event} (h : Utf8 event) :
    Tui.dispatchFrame (ascii "data: " ++ payload event) =
      if (payload event).length ≤ Tui.dataBufLen then some event else none := by
  obtain ⟨body, hbody⟩ := payload_eq event
  have hnl := newline_notMem_payload event
  rw [hbody, ← List.cons_append] at hnl
  have hdata := Tui.dispatchFrame_data hnl (by decide)
  rw [List.cons_append, ← hbody] at hdata
  rw [hdata]
  split
  · rename_i hle
    rw [List.take_of_length_le hle, parseAndDispatch_payload h]
  · rename_i hgt
    exact parseAndDispatch_torn h (Nat.not_le.mp hgt)

/-- A payload that fits is read whole. -/
theorem dispatchFrame_fits {event : Event} (hfit : (payload event).length ≤ Tui.dataBufLen) :
    Tui.dispatchFrame (ascii "data: " ++ payload event) = Tui.parseAndDispatch (payload event) := by
  obtain ⟨body, hbody⟩ := payload_eq event
  have hnl := newline_notMem_payload event
  rw [hbody, ← List.cons_append] at hnl
  have hdata := Tui.dispatchFrame_data hnl (by decide)
  rw [List.cons_append, ← hbody, List.take_of_length_le hfit] at hdata
  exact hdata

theorem drain_writeEvents (events : List Event) :
    (Tui.frames.drain (events.flatMap writeEvent)).1 =
      events.map fun event => ascii "data: " ++ payload event := by
  induction events with
  | nil => rfl
  | cons event events ih =>
    have hnl : (0x0A : UInt8) ∉ ascii "data: " ++ payload event := by
      rw [List.mem_append, not_or]
      exact ⟨by decide, newline_notMem_payload event⟩
    have hframe := Tui.drain_frame hnl (events.flatMap writeEvent)
    rw [List.flatMap_cons, writeEvent_eq, List.append_assoc, List.map_cons, ← ih]
    exact hframe

/-- What arrives of a stream if every payload fits: what is UTF-8. -/
theorem received_of_fits {events : List Event}
    (hfit : ∀ event ∈ events, (payload event).length ≤ Tui.dataBufLen) {chunks : List Bytes}
    (hcut : chunks.flatten = events.flatMap writeEvent) :
    (Tui.Parser.feedAll {} chunks).2 = events.filter fun event => Utf8 event := by
  rw [Tui.feedAll_eq {} chunks rfl, hcut]
  show ((Tui.frames.drain (events.flatMap writeEvent)).1).filterMap Tui.dispatchFrame = _
  rw [drain_writeEvents, List.filterMap_map, ← List.filterMap_eq_filter]
  refine List.filterMap_congr fun event hevent => ?_
  rw [Function.comp_apply, dispatchFrame_fits (hfit event hevent), Option.guard_apply]
  by_cases hutf8 : Utf8 event
  · rw [parseAndDispatch_payload hutf8, if_pos (decide_eq_true hutf8)]
  · rw [parseAndDispatch_eq_none hutf8, if_neg (by simpa using hutf8)]

/-- **What arrives of a stream, however it is cut**: the events whose payload fits the parser's
buffer. -/
theorem received_eq {events : List Event} (h : ∀ event ∈ events, Utf8 event) {chunks : List Bytes}
    (hcut : chunks.flatten = events.flatMap writeEvent) :
    (Tui.Parser.feedAll {} chunks).2 =
      events.filter fun event => (payload event).length ≤ Tui.dataBufLen := by
  rw [Tui.feedAll_eq {} chunks rfl, hcut]
  show ((Tui.frames.drain (events.flatMap writeEvent)).1).filterMap Tui.dispatchFrame = _
  rw [drain_writeEvents, List.filterMap_map, ← List.filterMap_eq_filter]
  refine List.filterMap_congr fun event hevent => ?_
  rw [Function.comp_apply, dispatchFrame_payload (h event hevent), Option.guard_apply]
  simp

/-- **Gateway and terminal agree on a stream exactly if no payload is longer than the parser's
buffer.** -/
theorem stream_agrees_iff {events : List Event} (h : ∀ event ∈ events, Utf8 event)
    {chunks : List Bytes} (hcut : chunks.flatten = events.flatMap writeEvent) :
    (Tui.Parser.feedAll {} chunks).2 = events ↔
      ∀ event ∈ events, (payload event).length ≤ 8192 := by
  rw [received_eq h hcut, List.filter_eq_self]
  refine forall₂_congr fun event _ => ?_
  rw [decide_eq_true_eq]
  rfl

/-- A short turn, cut inside its first frame and inside the blank line that ends it. -/
theorem stream_agrees_hi :
    (Tui.Parser.feedAll {} [ascii "data: \x7b\"type\":\"ch", ascii "unk\",\"text\":\"hi\"\x7d\n",
      ascii "\ndata: \x7b\"type\":\"done\"\x7d\n\n"]).2 = [.chunk (ascii "hi"), .done] := by
  have hutf8 : ∀ event ∈ [Event.chunk (ascii "hi"), .done], Utf8 event := by
    simp only [List.forall_mem_cons]
    exact ⟨show Json.utf8Valid (ascii "hi") = true by decide, trivial, by simp⟩
  refine (stream_agrees_iff hutf8 (by decide)).mpr ?_
  simp only [List.forall_mem_cons]
  exact ⟨by decide, by decide, by simp⟩

theorem utf8Valid_replicate (n : ℕ) : Json.utf8Valid (List.replicate n 0x61) = true := by
  have hrun : StepMachine.run Json.Utf8.step .start (List.replicate n 0x61) = some .start := by
    induction n with
    | zero => rfl
    | succ n ih => exact ih
  rw [Json.utf8Valid, hrun]
  rfl

/-- Nothing in a string is written shorter than it is. -/
theorem length_lt_payload_chunk (text : Bytes) : text.length < (payload (.chunk text)).length := by
  have hescape : text.length ≤ (text.flatMap Json.escape).length := by
    induction text with
    | nil => simp
    | cons b bs ih =>
      have hb : Json.escape b ≠ [] := by
        unfold Json.escape
        split_ifs <;> simp
      have := List.length_pos_iff.mpr hb
      rw [List.flatMap_cons, List.length_append, List.length_cons]
      omega
  refine hescape.trans_lt ?_
  simp [payload, payloadFields, Json.stringObject, Json.objectTokens, Json.commaSeparated,
    Json.fieldTokens, Json.Value.tokens, Json.write, Token.write]
  omega

/-- A chunk of 8192 letters is dropped. -/
theorem not_stream_agrees :
    (Tui.Parser.feedAll {} [writeEvent (.chunk (List.replicate 8192 0x61))]).2 ≠
      [.chunk (List.replicate 8192 0x61)] := by
  have hutf8 : ∀ event ∈ [Event.chunk (List.replicate 8192 0x61)], Utf8 event := by
    simp only [List.mem_singleton, forall_eq]
    exact utf8Valid_replicate 8192
  have hcut (event : Event) : [writeEvent event].flatten = [event].flatMap writeEvent := by simp
  rw [received_eq hutf8 (hcut _)]
  intro heq
  have hfit := List.filter_eq_self.mp heq _ List.mem_cons_self
  have hlong := length_lt_payload_chunk (List.replicate 8192 0x61)
  rw [List.length_replicate] at hlong
  rw [decide_eq_true_eq, Tui.dataBufLen] at hfit
  omega

end Gateway
end TigerClaw
