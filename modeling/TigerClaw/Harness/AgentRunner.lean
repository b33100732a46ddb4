import TigerClaw.Harness.RealRunner
import TigerClaw.Tui.SseClient

/-!
# The contract of an agent runner

A runner serves a turn: it calls the two sinks of the request while it runs, and returns a result or
an error.  The sinks are the caller's; here they pass the caller's state on.

* `AgentRunner`, `AgentRunner.run`: any runner, and a turn of it with the sinks of a caller.
* `recording`, `Observation`: what a caller can tell of a turn.
* `RealRunner.turnRun`: a turn of an agent's runner as the contract has it.
-/

namespace TigerClaw
namespace Harness

open Tui (StreamSide)

/-- The shape of a tool's result, with its flat text only. -/
inductive ToolFinishedKind where
  | text (text : Bytes)
  | cancelled (text : Bytes)
  | bash (text : Bytes)
  | read (text : Bytes)
  | glob (text : Bytes)
  | grep (text : Bytes)
  | webSearch (text : Bytes)
  | todoWrite (text : Bytes)
  deriving DecidableEq

def ToolFinishedKind.flatText : ToolFinishedKind → Bytes
  | .text t | .cancelled t | .bash t | .read t | .glob t | .grep t | .webSearch t
  | .todoWrite t => t

inductive ToolEvent where
  | started (id name argsSummary : Bytes)
  | progress (id : Bytes) (stream : StreamSide) (chunk : Bytes)
  | finished (id name : Bytes) (kind : ToolFinishedKind) (isError : Bool)
  deriving DecidableEq

/-- A call of `stream_sink` or of `tool_event_sink`. -/
inductive Fired where
  | fragment (text : Bytes)
  | tool (event : ToolEvent)
  deriving DecidableEq

/-- What a runner does in a turn: the calls of the sinks in order, and what it returns. -/
structure TurnRun where
  fired : List Fired
  result : Except TurnError TurnResult

abbrev AgentRunner : Type := TurnRequest → TurnRun

/-- The sinks of a request.  `σ` is what stands behind their contexts. -/
structure Sinks (σ : Type) where
  streamSink : σ → Bytes → σ
  toolEventSink : σ → ToolEvent → σ

section

variable {σ : Type}

def Sinks.fire (sinks : Sinks σ) (s : σ) : Fired → σ
  | .fragment text => sinks.streamSink s text
  | .tool event => sinks.toolEventSink s event

/-- `AgentRunner.run`. -/
def AgentRunner.run (self : AgentRunner) (req : TurnRequest) (sinks : Sinks σ) (s : σ) :
    Except TurnError TurnResult × σ :=
  ((self req).result, (self req).fired.foldl sinks.fire s)

end

/-! ## What a caller can tell -/

/-- A tool event with its output flat. -/
inductive Seen where
  | fragment (text : Bytes)
  | started (id name argsSummary : Bytes)
  | progress (id : Bytes) (stream : StreamSide) (chunk : Bytes)
  | finished (id name output : Bytes) (failed : Bool)
  deriving DecidableEq

def ToolEvent.seen : ToolEvent → Seen
  | .started id name argsSummary => .started id name argsSummary
  | .progress id stream chunk => .progress id stream chunk
  | .finished id name kind isError => .finished id name kind.flatText isError

def Fired.seen : Fired → Seen
  | .fragment text => .fragment text
  | .tool event => event.seen

/-- Sinks that note down what they are called with. -/
def recording : Sinks (List Seen) where
  streamSink seen text := seen ++ [.fragment text]
  toolEventSink seen event := seen ++ [event.seen]

/-- What the sinks saw, and the completed flag and the output of the result.  Which error it is
does not matter. -/
structure Observation where
  seen : List Seen
  outcome : Option (Bool × Bytes)
  deriving DecidableEq

def observe (r : Except TurnError TurnResult × List Seen) : Observation where
  seen := r.2
  outcome := r.1.toOption.map fun result => (result.completed, result.output)

/-- The text of the fragments. -/
def Fired.text : Fired → Bytes
  | .fragment text => text
  | .tool _ => []

theorem recording_fire (seen : List Seen) (fired : Fired) :
    recording.fire seen fired = seen ++ [fired.seen] := by
  cases fired <;> rfl

theorem foldl_recording (seen : List Seen) (fired : List Fired) :
    fired.foldl recording.fire seen = seen ++ fired.map Fired.seen := by
  induction fired generalizing seen with
  | nil => simp
  | cons f fired ih =>
    rw [List.foldl_cons, recording_fire, ih, List.map_cons, List.append_assoc,
      List.singleton_append]

/-- **In process, everything that is fired is seen.** -/
theorem run_recording (self : AgentRunner) (req : TurnRequest) :
    self.run req recording [] = ((self req).result, (self req).fired.map Fired.seen) := by
  rw [AgentRunner.run, foldl_recording, List.nil_append]

/-! ## The runner of an agent -/

namespace RealRunner

/-- A turn, as a caller with both sinks has it.  No tool is dispatched. -/
def turnRun (self : RealRunner) (call : Call) : TurnRun where
  fired := ((self.run call).1.streamed.map Fired.fragment).toList
  result := (self.run call).1.result

/-- **A result is streamed at the end of the turn**, unless it is empty. -/
theorem streamed_of_ok {self : RealRunner} {call : Call} {result : TurnResult}
    (hsink : call.req.hasStreamSink = true) (h : (self.run call).1.result = .ok result) :
    (self.run call).1.streamed = if 0 < result.output.length then some result.output else none := by
  rw [run] at h ⊢
  split at h
  · cases h
  · rename_i hid
    rw [if_neg hid]
    split at h
    · cases h
    · split at h
      · cases h
      · rename_i hcancelled
        rw [serve] at h
        split at h
        · cases h
        · rename_i out hout
          obtain rfl := Except.ok.inj h
          simp [serve, hcancelled, hout, hsink]

/-- So the output is the text of the fragments. -/
theorem flatMap_text_turnRun {self : RealRunner} {call : Call} {result : TurnResult}
    (hsink : call.req.hasStreamSink = true) (h : (self.run call).1.result = .ok result) :
    (self.turnRun call).fired.flatMap Fired.text = result.output := by
  rw [turnRun, streamed_of_ok hsink h]
  by_cases hpos : 0 < result.output.length
  · rw [if_pos hpos]
    exact List.append_nil _
  · rw [if_neg hpos]
    exact (List.length_eq_zero_iff.mp (Nat.eq_zero_of_not_pos hpos)).symm

end RealRunner

end Harness
end TigerClaw
