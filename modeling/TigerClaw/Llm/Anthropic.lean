import TigerClaw.Agent.Loop
import TigerClaw.Library.Json.Access
import TigerClaw.Library.Pump
import TigerClaw.Llm.Sse

/-!
# The event stream of a reply

`extensions/provider-anthropic/root.zig`: the events of a streamed reply are absorbed into the
locals of the function that reads the stream, one after the other, and made into a response at the
end.  There are two such functions.  `parseStreamInnerFull` reads a literal or a reader;
`pumpStream` reads a pipe, with the event table of the other one copied into its loop.  Allocation
does not fail here.

* `absorbContentBlockStart`, `absorbDelta`, …: one event.  Some of them ask what a JSON value is
  before they read its fields, and some do not.
* `Drain.run`, `readLoop`, `pumpLoop`: the loops.
* `parseStreamInnerFull`, `pumpStream`: from a stream to a response, and to what the sinks are
  called with.
* `parseStreamInnerFull_eq`, `pumpStream_eq`: both absorb the events that are `received`.
-/

namespace TigerClaw
namespace Llm
namespace Anthropic

open Agent (ToolCall TokenUsage StopReason ChatResponse)
open Json (Tree)

/-- `std.json.parseFromSlice(std.json.Value, …)`. -/
def parseValue (data : Bytes) : Option Tree := Tree.parse true data

/-! ## One event -/

/-- What is collected of a `tool_use` block. -/
structure ToolBuilder where
  index : UInt32
  id : Bytes
  name : Bytes
  input : Bytes := []

/-- The `tool_use` block that a `content_block_start` announces: its index, its id and its name. -/
def announced (data : Bytes) : Option (ℤ × Bytes × Bytes) := do
  let root ← parseValue data
  let block ← root.field? (ascii "content_block")
  let kind ← (← block.field? (ascii "type")).string?
  guard (kind = ascii "tool_use")
  let index ← (← root.field? (ascii "index")).integer?
  let id ← (← block.field? (ascii "id")).string?
  let name ← (← block.field? (ascii "name")).string?
  return (index, id, name)

/-- `absorbContentBlockStart`: what the sink is called with, and the builders. -/
def absorbContentBlockStart (builders : List ToolBuilder) (data : Bytes) :
    List (Bytes × Bytes) × Outcome Empty (List ToolBuilder) :=
  match announced data with
  | none => ([], .ok builders)
  | some (index, id, name) =>
    ([(id, name)], do
      let index ← UInt32.castInt index
      return builders ++ [{ index, id, name }])

/-- The fragment of the arguments of a block that a `content_block_delta` carries. -/
def partialJson (data : Bytes) : Option (ℤ × Bytes) := do
  let root ← parseValue data
  let index ← (← root.field? (ascii "index")).integer?
  let delta ← root.field? (ascii "delta")
  let kind ← (← delta.field? (ascii "type")).string?
  guard (kind = ascii "input_json_delta")
  let fragment ← (← delta.field? (ascii "partial_json")).string?
  return (index, fragment)

/-- The first builder of the index takes the fragment. -/
def appendInput (index : UInt32) (fragment : Bytes) : List ToolBuilder → List ToolBuilder
  | [] => []
  | b :: bs =>
    if b.index = index then { b with input := b.input ++ fragment } :: bs
    else b :: appendInput index fragment bs

def absorbInputJsonDelta (builders : List ToolBuilder) (data : Bytes) :
    Outcome Empty (List ToolBuilder) :=
  match partialJson data with
  | none => .ok builders
  | some (index, fragment) => do
    let index ← UInt32.castInt index
    return appendInput index fragment builders

/-- `absorbDelta`: what is appended to the text. -/
def absorbDelta (data : Bytes) : Outcome Empty Bytes :=
  match parseValue data with
  | none => .ok []
  | some root => do
    match ← root.field (ascii "delta") with
    | none => return []
    | some delta =>
      match ← delta.field (ascii "type") with
      | none => return []
      | some kind =>
        if kind.string? = some (ascii "text_delta") then
          return ((← delta.field (ascii "text")).bind Tree.string?).getD []
        else return []

/-- `usage.… = @intCast(@max(v.integer, 0))`, if the field is an integer. -/
def absorbCount (u : Tree) (name : Bytes) (count : UInt32) : Outcome Empty UInt32 :=
  match (u.field? name).bind Tree.integer? with
  | none => .ok count
  | some n => UInt32.castInt (max n 0)

def absorbUsage (usage : TokenUsage) (u : Tree) : Outcome Empty TokenUsage := do
  let input ← absorbCount u (ascii "input_tokens") usage.input
  let output ← absorbCount u (ascii "output_tokens") usage.output
  let cacheRead ← absorbCount u (ascii "cache_read_input_tokens") usage.cacheRead
  let cacheWrite ← absorbCount u (ascii "cache_creation_input_tokens") usage.cacheWrite
  return { input, output, cacheRead, cacheWrite }

/-- The `usage` of a value that is taken for an object. -/
def absorbUsageOf (usage : TokenUsage) (v : Tree) : Outcome Empty TokenUsage := do
  match ← v.field (ascii "usage") with
  | none => return usage
  | some u => absorbUsage usage u

/-- The stop reasons that are known; another one changes nothing. -/
def readStopReason (stop : StopReason) (reason : Bytes) : StopReason :=
  if reason = ascii "end_turn" then .endTurn
  else if reason = ascii "max_tokens" then .maxTokens
  else if reason = ascii "tool_use" then .toolUse
  else if reason = ascii "stop_sequence" then .stopSequence
  else stop

/-- The `stop_reason` of a delta that is taken for an object. -/
def absorbStopReason (stop : StopReason) : Option Tree → Outcome Empty StopReason
  | none => .ok stop
  | some delta => do
    return match (← delta.field (ascii "stop_reason")).bind Tree.string? with
      | none => stop
      | some reason => readStopReason stop reason

def absorbMessageDelta (usage : TokenUsage) (stop : StopReason) (data : Bytes) :
    Outcome Empty (TokenUsage × StopReason) :=
  match parseValue data with
  | none => .ok (usage, stop)
  | some root => do
    let stop ← absorbStopReason stop (← root.field (ascii "delta"))
    let usage ← absorbUsageOf usage root
    return (usage, stop)

def absorbMessageStart (usage : TokenUsage) (data : Bytes) : Outcome Empty TokenUsage :=
  match parseValue data with
  | none => .ok usage
  | some root => do
    match ← root.field (ascii "message") with
    | none => return usage
    | some message => absorbUsageOf usage message

/-- `absorbError`: the message, if there is one. -/
def absorbError (data : Bytes) : Outcome Empty (Option Bytes) :=
  match parseValue data with
  | none => .ok none
  | some root => do
    match ← root.field (ascii "error") with
    | none => return none
    | some err => return (← err.field (ascii "message")).bind Tree.string?

/-! ## The loops -/

/-- Which sinks there are. -/
structure Sinks where
  token : Bool
  toolStart : Bool

/-- The locals of the function that reads the stream, and what the sinks have been called with. -/
structure Locals where
  text : Bytes := []
  toolBuilders : List ToolBuilder := []
  usage : TokenUsage := {}
  stop : StopReason := .endTurn
  errText : Option Bytes := none
  tokens : List Bytes := []
  toolStarts : List (Bytes × Bytes) := []

namespace Locals

/-- Assign a result, unless a check tripped. -/
def assign {α : Type} (self : Locals) (result : Outcome Empty α) (put : α → Locals) :
    Locals × Option Trap :=
  match result with
  | .ok a => (put a, none)
  | .trap t => (self, some t)

/-- `tool_start_sink`. -/
def announce (self : Locals) (sinks : Sinks) (starts : List (Bytes × Bytes)) : Locals :=
  if sinks.toolStart then { self with toolStarts := self.toolStarts ++ starts } else self

/-- A fragment of the text; the sink is not called with an empty one. -/
def say (self : Locals) (sinks : Sinks) (fragment : Bytes) : Locals :=
  { self with
    text := self.text ++ fragment
    tokens :=
      if sinks.token && 0 < fragment.length then self.tokens ++ [fragment] else self.tokens }

end Locals

variable (sinks : Sinks) (cancel : ℕ → Bool)

/-- The event table of `Drain.run`. -/
def Drain.absorb (l : Locals) (ev : Event) : Locals × Option Trap :=
  if ev.name = ascii "content_block_start" then
    let r := absorbContentBlockStart l.toolBuilders ev.data
    let l := l.announce sinks r.1
    l.assign r.2 fun builders => { l with toolBuilders := builders }
  else if ev.name = ascii "content_block_delta" then
    match absorbDelta ev.data with
    | .trap t => (l, some t)
    | .ok fragment =>
      let l := l.say sinks fragment
      l.assign (absorbInputJsonDelta l.toolBuilders ev.data) fun builders =>
        { l with toolBuilders := builders }
  else if ev.name = ascii "message_delta" then
    l.assign (absorbMessageDelta l.usage l.stop ev.data) fun r =>
      { l with usage := r.1, stop := r.2 }
  else if ev.name = ascii "message_start" then
    l.assign (absorbMessageStart l.usage ev.data) fun usage => { l with usage }
  else if ev.name = ascii "error" then
    l.assign (absorbError ev.data) fun e => { l with stop := .refusal, errText := e }
  else (l, none)

/-- `Drain.run`: every event that the parser has buffered; the flag is polled after each of them. -/
def Drain.run (p : Parser) (b : Locals × ℕ) :
    Halt Parser SseError (Leave Trap) × (Locals × ℕ) :=
  Parser.pull.whileNext (polled cancel (Drain.absorb sinks)) p b

/-- The `.reader` arm of `parseStreamInnerFull`; `broken` is whether the read after the last chunk
fails.  A read of nothing ends the loop. -/
def readLoop (broken : Bool) :
    List Bytes → Parser → Locals × ℕ → Except Trap (Cause SseError) × Locals
  | [], _, b => (.ok (if cancel b.2 then .cancelled else if broken then .broken else .eof), b.1)
  | chunk :: chunks, p, b =>
    if cancel b.2 then (.ok .cancelled, b.1)
    else if chunk.isEmpty then (.ok .eof, b.1)
    else
      match Drain.run sinks cancel (p.feed chunk) (b.1, b.2 + 1) with
      | (.dry p, b) => readLoop broken chunks p b
      | (.failed e, b) => (.ok (.failed e), b.1)
      | (.left .cancelled, b) => (.ok .cancelled, b.1)
      | (.left (.stopped t), b) => (.error t, b.1)

/-- The event table in the loop of `pumpStream`. -/
def pumpAbsorb (l : Locals) (ev : Event) : Locals × Option Trap :=
  if ev.name = ascii "content_block_start" then
    let r := absorbContentBlockStart l.toolBuilders ev.data
    let l := l.announce sinks r.1
    l.assign r.2 fun builders => { l with toolBuilders := builders }
  else if ev.name = ascii "content_block_delta" then
    match absorbDelta ev.data with
    | .trap t => (l, some t)
    | .ok fragment =>
      let l := l.say sinks fragment
      l.assign (absorbInputJsonDelta l.toolBuilders ev.data) fun builders =>
        { l with toolBuilders := builders }
  else if ev.name = ascii "message_delta" then
    l.assign (absorbMessageDelta l.usage l.stop ev.data) fun r =>
      { l with usage := r.1, stop := r.2 }
  else if ev.name = ascii "message_start" then
    l.assign (absorbMessageStart l.usage ev.data) fun usage => { l with usage }
  else if ev.name = ascii "error" then
    l.assign (absorbError ev.data) fun e => { l with stop := .refusal, errText := e }
  else (l, none)

/-- `while (!cancelled)` of `pumpStream`. -/
def pumpLoop (broken : Bool) :
    Bool → List Bytes → Parser → Locals × ℕ → Except Trap (Cause SseError) × Locals
  | cancelled, [], _, b =>
    if cancelled || cancel b.2 then (.ok .cancelled, b.1)
    else if broken then (.ok .broken, b.1)
    else (.ok .eof, b.1)
  | cancelled, chunk :: chunks, p, b =>
    if cancelled || cancel b.2 then (.ok .cancelled, b.1)
    else if chunk.isEmpty then (.ok .eof, b.1)
    else
      match Parser.pull.whileNext (polled cancel (pumpAbsorb sinks)) (p.feed chunk)
          (b.1, b.2 + 1) with
      | (.dry p, b) => pumpLoop broken false chunks p b
      | (.left .cancelled, b) => pumpLoop broken true chunks p b
      | (.failed e, b) => (.ok (.failed e), b.1)
      | (.left (.stopped t), b) => (.error t, b.1)

/-! ## The response -/

/-- The tool calls of the builders.  After `max_tokens` the last one is dropped if what it has is no
JSON. -/
def finalise (stop : StopReason) : List ToolBuilder → List ToolCall
  | [] => []
  | b :: bs =>
    if b.id = [] ∨ b.name = [] then finalise stop bs
    else if stop = .maxTokens ∧ bs = [] ∧ b.input ≠ [] ∧ parseValue b.input = none then
      finalise stop bs
    else
      { id := b.id
        name := b.name
        argumentsJson := if b.input = [] then ascii "{}" else b.input } :: finalise stop bs

/-- What is returned at the end of the stream. -/
def Locals.response (self : Locals) (cancelled : Bool) : ChatResponse :=
  let stop := if cancelled then .cancelled else self.stop
  match self.errText with
  | some e => { text := some e, usage := self.usage, stopReason := .refusal }
  | none =>
    { text := some self.text
      toolCalls := finalise stop self.toolBuilders
      usage := self.usage
      stopReason := stop }

inductive StreamError where
  | sse (e : SseError)
  | readFailed
  deriving DecidableEq

/-- What a stream comes to: the result, and what the sinks have been called with. -/
structure Finished where
  result : Outcome StreamError ChatResponse
  tokens : List Bytes
  toolStarts : List (Bytes × Bytes)

/-- The tail of both functions. -/
def finish (run : Except Trap (Cause SseError) × Locals) : Finished where
  result :=
    match run.1 with
    | .error t => .trap t
    | .ok (.failed e) => .error (.sse e)
    | .ok .broken => .error .readFailed
    | .ok .eof => .ok (run.2.response false)
    | .ok .cancelled => .ok (run.2.response true)
  tokens := run.2.tokens
  toolStarts := run.2.toolStarts

/-- A whole body, or a reader: what its reads return. -/
inductive StreamInput where
  | literal (bytes : Bytes)
  | reader (chunks : List Bytes) (broken : Bool)

/-- The `.literal` arm of `parseStreamInnerFull`. -/
def readLiteral (bytes : Bytes) (b : Locals × ℕ) : Except Trap (Cause SseError) × Locals :=
  match Drain.run sinks cancel (({} : Parser).feed bytes) b with
  | (.dry _, b) => (.ok .eof, b.1)
  | (.failed e, b) => (.ok (.failed e), b.1)
  | (.left .cancelled, b) => (.ok .cancelled, b.1)
  | (.left (.stopped t), b) => (.error t, b.1)

/-- `parseStreamInnerFull`. -/
def parseStreamInnerFull (input : StreamInput) : Finished :=
  finish
    (if cancel 0 then (.ok .cancelled, {})
    else
      match input with
      | .literal bytes => readLiteral sinks cancel bytes ({}, 1)
      | .reader chunks broken => readLoop sinks cancel broken chunks {} ({}, 1))

/-- `pumpStream`. -/
def pumpStream (chunks : List Bytes) (broken : Bool) : Finished :=
  finish (pumpLoop sinks cancel broken (cancel 0) chunks {} ({}, 1))

/-! ## The loops are one loop -/

theorem pumpAbsorb_eq : pumpAbsorb sinks = Drain.absorb sinks := rfl

variable {cancel}

/-- **The reader's loop.** -/
theorem readLoop_eq (broken : Bool) (chunks : List Bytes) (p : Parser) (b : Locals × ℕ) :
    readLoop sinks cancel broken chunks p b =
      Parser.pull.pump cancel broken (Drain.absorb sinks) chunks p b := by
  induction chunks generalizing p b with
  | nil => rfl
  | cons chunk chunks ih =>
    rw [readLoop, PullParser.pump, Drain.run]
    split
    · rfl
    split
    · rfl
    rw [show Parser.pull.feed p chunk = p.feed chunk from rfl]
    obtain ⟨halt, b'⟩ := Parser.pull.whileNext (polled cancel (Drain.absorb sinks)) (p.feed chunk)
      (b.1, b.2 + 1)
    cases halt with
    | dry p' => exact ih p' b'
    | failed e => rfl
    | left k => cases k <;> rfl

/-- With the flag set the loop is left at once. -/
theorem pumpLoop_cancelled (broken : Bool) (chunks : List Bytes) (p : Parser) (b : Locals × ℕ) :
    pumpLoop sinks cancel broken true chunks p b = (.ok .cancelled, b.1) := by
  cases chunks <;> rfl

/-- **The pipe's loop.** -/
theorem pumpLoop_eq (broken : Bool) (chunks : List Bytes) (p : Parser) (b : Locals × ℕ) :
    pumpLoop sinks cancel broken false chunks p b =
      Parser.pull.pump cancel broken (Drain.absorb sinks) chunks p b := by
  induction chunks generalizing p b with
  | nil =>
    rw [pumpLoop, PullParser.pump, Bool.false_or]
    cases cancel b.2 <;> cases broken <;> rfl
  | cons chunk chunks ih =>
    rw [pumpLoop, PullParser.pump, Bool.false_or, pumpAbsorb_eq]
    split
    · rfl
    split
    · rfl
    rw [show Parser.pull.feed p chunk = p.feed chunk from rfl]
    obtain ⟨halt, b'⟩ := Parser.pull.whileNext (polled cancel (Drain.absorb sinks)) (p.feed chunk)
      (b.1, b.2 + 1)
    cases halt with
    | dry p' => exact ih p' b'
    | failed e => rfl
    | left k =>
      cases k with
      | cancelled => exact pumpLoop_cancelled sinks broken chunks p b'
      | stopped t => rfl

/-! ## The events that come in -/

variable (cancel)

/-- The events that come in from a stream, and why they were all. -/
def received (input : StreamInput) : List Event × Cause SseError :=
  if cancel 0 then ([], .cancelled)
  else
    match input with
    | .literal bytes =>
      let t := Parser.pull.drain (({} : Parser).feed bytes)
      let c := cut cancel 1 t.1
      (c.1, if c.2 then .cancelled else t.2.elim .eof .failed)
    | .reader chunks broken => Parser.pull.receive cancel broken chunks {} 1

/-- What becomes of the locals when the events come in. -/
def absorbAll (events : List Event) : Locals × Option Trap :=
  handleAll (Drain.absorb sinks) {} events

/-- What events come to, if the stream ends as it does. -/
def conclude (r : List Event × Cause SseError) : Finished :=
  finish (r.2.unless (absorbAll sinks r.1).2, (absorbAll sinks r.1).1)

variable {cancel}

theorem readLiteral_eq (bytes : Bytes) (l : Locals) (n : ℕ) :
    readLiteral sinks cancel bytes (l, n) =
      (Cause.unless
          (if (cut cancel n (Parser.pull.drain (({} : Parser).feed bytes)).1).2 then .cancelled
            else (Parser.pull.drain (({} : Parser).feed bytes)).2.elim .eof .failed)
          (handleAll (Drain.absorb sinks) l
            (cut cancel n (Parser.pull.drain (({} : Parser).feed bytes)).1).1).2,
        (handleAll (Drain.absorb sinks) l
          (cut cancel n (Parser.pull.drain (({} : Parser).feed bytes)).1).1).1) := by
  obtain ⟨hacc, hhalt, -⟩ := 
    Parser.pull.whileNext_polled cancel (Drain.absorb sinks) (({} : Parser).feed bytes) l n
  rw [readLiteral, Drain.run]
  generalize Parser.pull.whileNext _ _ _ = halt at hacc hhalt ⊢
  obtain ⟨h, b⟩ := halt
  dsimp only at hacc hhalt
  rw [← hacc, hhalt]
  match (handleAll (Drain.absorb sinks) l
      (cut cancel n (Parser.pull.drain (({} : Parser).feed bytes)).1).1).2 with
  | some t => rfl
  | none =>
    dsimp only
    by_cases hset : (cut cancel n (Parser.pull.drain (({} : Parser).feed bytes)).1).2 = true
    · rw [if_pos hset, if_pos hset]
      rfl
    · rw [if_neg hset, if_neg hset]
      cases (Parser.pull.drain (({} : Parser).feed bytes)).2 <;> rfl

/-- **`parseStreamInnerFull` absorbs what is received.** -/
theorem parseStreamInnerFull_eq (input : StreamInput) :
    parseStreamInnerFull sinks cancel input = conclude sinks (received cancel input) := by
  unfold parseStreamInnerFull received conclude absorbAll
  by_cases hset : cancel 0 = true
  · rw [if_pos hset, if_pos hset]
    rfl
  · rw [if_neg hset, if_neg hset]
    cases input with
    | literal bytes => exact congrArg finish (readLiteral_eq sinks bytes {} 1)
    | reader chunks broken =>
      dsimp only
      rw [readLoop_eq, PullParser.pump_eq]

/-- **`pumpStream` does, too.** -/
theorem pumpStream_eq (chunks : List Bytes) (broken : Bool) :
    pumpStream sinks cancel chunks broken =
      conclude sinks (received cancel (.reader chunks broken)) := by
  rw [pumpStream, received, conclude, absorbAll]
  by_cases hset : cancel 0 = true
  · rw [if_pos hset, hset, pumpLoop_cancelled]
    rfl
  · rw [if_neg hset, Bool.eq_false_iff.mpr hset, pumpLoop_eq, PullParser.pump_eq]

end Anthropic
end Llm
end TigerClaw
