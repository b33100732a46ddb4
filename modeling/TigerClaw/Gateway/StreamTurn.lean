import TigerClaw.Gateway.TurnStream
import TigerClaw.Harness.AgentRunner

/-!
# A streamed turn at the gateway

`streamTurn` runs a turn with two sinks that write frames, and closes the stream by what the runner
has returned.

* `extractMessage`, `chunkSink`, `toolEventSink`, `streamTurn`: the code.
* `sent`, `streamTurn_eq`: the response as a list of events.
-/

namespace TigerClaw
namespace Gateway

open Harness (Fired Sinks ToolEvent TurnError TurnRequest TurnResult TurnRun)
open Tui (Event)

/-- `extractMessage`: the text, or `error.BadRequest`. -/
def extractMessage (body : Bytes) : Option Bytes :=
  if body.length = 0 then some []
  else
    match Json.Tree.parse true body with
    | some (.object fields) =>
      match (Json.Tree.get fields (ascii "message")).or
        ((Json.Tree.get fields (ascii "input")).or (Json.Tree.get fields (ascii "prompt"))) with
      | none => some []
      | some (.string message) => some message
      | some _ => none
    | _ => none

/-- `body` is what has been written so far. -/
structure StreamCtx where
  body : Bytes := []
  chunkCount : ℕ := 0

def StreamCtx.write (self : StreamCtx) (frame : Bytes) : StreamCtx :=
  { self with body := self.body ++ frame }

def chunkSink (self : StreamCtx) (fragment : Bytes) : StreamCtx :=
  { self with chunkCount := self.chunkCount + 1 }.write (writeChunkFrame fragment)

def toolEventSink (self : StreamCtx) : ToolEvent → StreamCtx
  | .started id name argsSummary => self.write (writeToolStartFrame id name argsSummary)
  | .progress id stream chunk => self.write (writeToolProgressFrame id (streamName stream) chunk)
  | .finished id name kind _ => self.write (writeToolDoneFrame id name kind.flatText)

def frameSinks : Sinks StreamCtx where
  streamSink := chunkSink
  toolEventSink := toolEventSink

def errorMessage : TurnError → Bytes
  | .sessionMissing => ascii "session missing"
  | .budgetExceeded => ascii "budget exceeded"
  | .cancelled | .interrupted => ascii "turn cancelled"
  | .gatewayDown | .internalError | .outOfMemory => ascii "internal error"

/-- The request as the runner gets it. -/
def handedOn (sessionId message : Bytes) : TurnRequest where
  sessionId := sessionId
  input := message
  hasStreamSink := true

/-- `streamTurn`: the body of the response. -/
def streamTurn (runner : Harness.AgentRunner) (sessionId message : Bytes) : Bytes :=
  let (result, frameCtx) := runner.run (handedOn sessionId message) frameSinks {}
  let done := writeFrame (ascii "\x7b\"type\":\"done\"\x7d")
  match result with
  | .ok result =>
    let frameCtx :=
      if frameCtx.chunkCount = 0 ∧ result.output.length > 0 then
        frameCtx.write (writeChunkFrame result.output)
      else frameCtx
    (frameCtx.write done).body
  | .error err => ((frameCtx.write (writeErrorFrame (errorMessage err))).write done).body

/-! ## As events -/

/-- The event of the frame that a sink writes. -/
def eventOf : Fired → Event
  | .fragment text => .chunk text
  | .tool (.started id name argsSummary) => .toolStart id name argsSummary
  | .tool (.progress id stream chunk) => .toolProgress id stream chunk
  | .tool (.finished id name kind _) => .toolDone id name kind.flatText

def isFragment : Fired → Bool
  | .fragment _ => true
  | .tool _ => false

/-- What comes after the events that were fired. -/
def closing (turn : TurnRun) : List Event :=
  match turn.result with
  | .ok result =>
    if turn.fired.countP isFragment = 0 ∧ result.output.length > 0 then
      [.chunk result.output, .done]
    else [.done]
  | .error err => [.err (errorMessage err), .done]

/-- The events of the response. -/
def sent (turn : TurnRun) : List Event := turn.fired.map eventOf ++ closing turn

theorem frameSinks_fire (self : StreamCtx) (fired : Fired) :
    frameSinks.fire self fired =
      { body := self.body ++ writeEvent (eventOf fired)
        chunkCount := self.chunkCount + if isFragment fired then 1 else 0 } := by
  cases fired with
  | fragment text => rfl
  | tool event => cases event <;> rfl

theorem foldl_frameSinks (self : StreamCtx) (fired : List Fired) :
    fired.foldl frameSinks.fire self =
      { body := self.body ++ (fired.map eventOf).flatMap writeEvent
        chunkCount := self.chunkCount + fired.countP isFragment } := by
  induction fired generalizing self with
  | nil => simp
  | cons f fired ih =>
    rw [List.foldl_cons, frameSinks_fire, ih, List.map_cons, List.flatMap_cons, List.countP_cons,
      List.append_assoc, Nat.add_assoc, Nat.add_comm (if isFragment f then 1 else 0)]

/-- **The response is the events that were fired, and the closing ones.** -/
theorem streamTurn_eq (runner : Harness.AgentRunner) (sessionId message : Bytes) :
    streamTurn runner sessionId message =
      (sent (runner (handedOn sessionId message))).flatMap writeEvent := by
  generalize hturn : runner (handedOn sessionId message) = turn
  rw [streamTurn, Harness.AgentRunner.run, hturn, foldl_frameSinks, sent, closing,
    List.flatMap_append]
  simp only [List.nil_append, Nat.zero_add]
  cases turn.result with
  | error err => simp [StreamCtx.write, writeEvent]
  | ok result =>
    by_cases hnone : turn.fired.countP isFragment = 0 ∧ result.output.length > 0
    · simp only [if_pos hnone]
      simp [StreamCtx.write, writeEvent]
    · simp only [if_neg hnone]
      simp [StreamCtx.write, writeEvent]

end Gateway
end TigerClaw
