import TigerClaw.Gateway.StreamTurn
import TigerClaw.Library.Json.Typed

/-!
# Turns over the gateway

`GatewayRunner.run` sends a request to the gateway and turns the event stream of the response into
calls of the caller's sinks and into a result.

* `requestBody`, `sinkEvent`, `feedSse`, `run`: the code.
* `extractMessage_requestBody`: what the gateway takes out of the request.
* `observe_run`: what a caller sees of a turn over the gateway.
* `Portable`: the turns of which nothing gets lost.
* `refines_iff`: exactly those a caller cannot tell from turns in process.
* `portable_turnRun`: the completed turns of an agent's runner are portable.
-/

namespace TigerClaw
namespace Runtime

open Harness (AgentRunner Fired Observation Seen Sinks ToolEvent TurnError TurnRequest TurnResult
  TurnRun observe recording)
open Tui (Event)

/-- `http_client.Error`. -/
inductive HttpError where
  | gatewayDown
  | unauthorized
  | badRequest
  | internalError
  | invalidResponse
  | outOfMemory

def mapHttpError : HttpError → TurnError
  | .outOfMemory => .outOfMemory
  | .gatewayDown => .gatewayDown
  | .unauthorized | .badRequest | .internalError | .invalidResponse => .internalError

/-- What `sendStreaming` brings: the pieces that the body comes in, and the error that ends it. -/
structure Response where
  pieces : List Bytes
  failure : Option HttpError := none

structure GatewayRunner where
  baseUrl : Bytes

namespace GatewayRunner

variable {σ : Type}

/-- `caller` is what stands behind the contexts of the sinks of `req`. -/
structure SinkCtx (σ : Type) where
  parser : Tui.Parser := {}
  output : Bytes := []
  completed : Bool := false
  failed : Bool := false
  caller : σ

def sinkEvent (sinks : Sinks σ) (self : SinkCtx σ) : Event → SinkCtx σ
  | .chunk text =>
    { self with output := self.output ++ text, caller := sinks.streamSink self.caller text }
  | .toolStart id name argsSummary =>
    { self with caller := sinks.toolEventSink self.caller (.started id name argsSummary) }
  | .toolProgress id stream chunk =>
    { self with caller := sinks.toolEventSink self.caller (.progress id stream chunk) }
  | .toolDone id name output =>
    -- `is_error` keeps its default
    { self with caller := sinks.toolEventSink self.caller (.finished id name (.text output) false) }
  | .done => { self with completed := true }
  | .err msg => { self with failed := true, caller := sinks.streamSink self.caller msg }

def feedSse (sinks : Sinks σ) (self : SinkCtx σ) (bytes : Bytes) : SinkCtx σ :=
  let (parser, events) := self.parser.feed bytes
  events.foldl (sinkEvent sinks) { self with parser }

/-- The body of the request. -/
def requestBody (req : TurnRequest) : Bytes :=
  Json.write (Json.Tree.object [(ascii "agent", .ofBytes req.sessionId),
    (ascii "message", .ofBytes req.input)]).tokens

/-- The room in `url_buf`. -/
def urlBufLen : ℕ := 512

def url (self : GatewayRunner) (req : TurnRequest) : Bytes :=
  self.baseUrl ++ ascii "/sessions/" ++ req.sessionId ++ ascii "/turns"

/-- `run`, given what comes back. -/
def run (self : GatewayRunner) (req : TurnRequest) (response : Response) (sinks : Sinks σ)
    (s : σ) : Except TurnError TurnResult × σ :=
  if req.sessionId.length = 0 then (.error .sessionMissing, s)
  else if (self.url req).length > urlBufLen then (.error .internalError, s)
  else
    let sinkCtx := response.pieces.foldl (feedSse sinks) { caller := s }
    match response.failure with
    | some err => (.error (mapHttpError err), sinkCtx.caller)
    | none =>
      (.ok
        { output := sinkCtx.output
          completed := sinkCtx.completed && !sinkCtx.failed
          turnEpoch := req.turnEpoch
          dispatchKind := req.dispatchKind
          invoker := req.invoker
          targetAgent := if req.targetAgent.length ≠ 0 then req.targetAgent else req.sessionId
          mentionOrderIdx := req.mentionOrderIdx },
        sinkCtx.caller)

/-! ## What the caller sees -/

/-- **The gateway takes the input out of the request.** -/
theorem extractMessage_requestBody {req : TurnRequest}
    (hsession : Json.utf8Valid req.sessionId = true) (hinput : Json.utf8Valid req.input = true) :
    Gateway.extractMessage (requestBody req) = some req.input := by
  have hbody : requestBody req = Json.write (Json.stringObject
      [(ascii "agent", req.sessionId), (ascii "message", req.input)]) := by
    rw [requestBody, Json.Tree.ofBytes, if_pos hsession, Json.Tree.ofBytes, if_pos hinput]
    rfl
  have hpos : (requestBody req).length ≠ 0 := by
    rw [hbody]
    simp [Json.stringObject, Json.objectTokens, Json.write, Json.Token.write]
  have hnodup : ([(ascii "agent", req.sessionId), (ascii "message", req.input)].map
      Prod.fst).Nodup := by
    show [ascii "agent", ascii "message"].Nodup
    decide
  rw [Gateway.extractMessage, if_neg hpos, hbody, Json.Tree.parse_write hnodup]
  · rfl
  · simp only [List.forall_mem_cons]
    exact ⟨⟨by decide, hsession⟩, ⟨by decide, hinput⟩, by simp⟩

def chunkText : Event → Bytes
  | .chunk text => text
  | _ => []

def isErr : Event → Bool
  | .err _ => true
  | _ => false

/-- What the recording sinks are called with. -/
def eventSeen : Event → Option Seen
  | .chunk text | .err text => some (.fragment text)
  | .toolStart id name argsSummary => some (.started id name argsSummary)
  | .toolProgress id stream chunk => some (.progress id stream chunk)
  | .toolDone id name output => some (.finished id name output false)
  | .done => none

/-- What comes of the events, as a caller sees it. -/
def observed (events : List Event) : Observation where
  seen := events.filterMap eventSeen
  outcome := some (events.contains .done && !events.any isErr, events.flatMap chunkText)

theorem sinkEvent_withParser (sinks : Sinks σ) (self : SinkCtx σ) (parser : Tui.Parser)
    (event : Event) :
    sinkEvent sinks { self with parser } event = { sinkEvent sinks self event with parser } := by
  cases event <;> rfl

theorem foldl_sinkEvent_withParser (sinks : Sinks σ) (self : SinkCtx σ) (parser : Tui.Parser)
    (events : List Event) :
    events.foldl (sinkEvent sinks) { self with parser } =
      { events.foldl (sinkEvent sinks) self with parser } := by
  induction events generalizing self with
  | nil => rfl
  | cons event events ih => rw [List.foldl_cons, List.foldl_cons, sinkEvent_withParser, ih]

/-- However the stream is cut, its events are handled one after the other. -/
theorem foldl_feedSse (sinks : Sinks σ) (self : SinkCtx σ) (pieces : List Bytes) :
    pieces.foldl (feedSse sinks) self =
      { (self.parser.feedAll pieces).2.foldl (sinkEvent sinks) self with
        parser := (self.parser.feedAll pieces).1 } := by
  induction pieces generalizing self with
  | nil => rfl
  | cons bytes pieces ih =>
    rw [List.foldl_cons, feedSse]
    dsimp only
    rw [foldl_sinkEvent_withParser, ih, foldl_sinkEvent_withParser, Tui.Parser.feedAll,
      List.foldl_append]

theorem foldl_sinkEvent (self : SinkCtx (List Seen)) (events : List Event) :
    events.foldl (sinkEvent recording) self =
      { self with
        output := self.output ++ events.flatMap chunkText
        completed := self.completed || events.contains .done
        failed := self.failed || events.any isErr
        caller := self.caller ++ events.filterMap eventSeen } := by
  induction events generalizing self with
  | nil => simp
  | cons event events ih =>
    rw [List.foldl_cons, ih]
    cases event <;>
      simp [sinkEvent, recording, Harness.ToolEvent.seen, Harness.ToolFinishedKind.flatText,
        chunkText, isErr, eventSeen, List.filterMap_cons]

/-- **What a caller sees is what the events that arrive say.** -/
theorem observe_run {self : GatewayRunner} {req : TurnRequest} {response : Response}
    (hsession : req.sessionId ≠ []) (hurl : (self.url req).length ≤ urlBufLen)
    (hfailure : response.failure = none) :
    observe (self.run req response recording []) =
      observed (Tui.Parser.feedAll {} response.pieces).2 := by
  have hempty : req.sessionId.length ≠ 0 := fun h => hsession (List.length_eq_zero_iff.mp h)
  rw [run, if_neg hempty, if_neg (Nat.not_lt.mpr hurl), hfailure, foldl_feedSse, foldl_sinkEvent]
  rfl

/-! ## Both ways -/

/-- The request reaches the gateway, where the runner does what it does in process, and the response
arrives whole, with no payload longer than the parser's buffer. -/
structure Reliable (client : GatewayRunner) (runner : AgentRunner) (req : TurnRequest)
    (message : Bytes) (response : Response) : Prop where
  session : req.sessionId ≠ []
  url : (client.url req).length ≤ urlBufLen
  extracted : Gateway.extractMessage (requestBody req) = some message
  same : runner (Gateway.handedOn req.sessionId message) = runner req
  failure : response.failure = none
  arrives : response.pieces.flatten = Gateway.streamTurn runner req.sessionId message
  fits : ∀ event ∈ Gateway.sent (runner req),
    (Gateway.payload event).length ≤ Tui.dataBufLen

/-- `is_error` forgotten. -/
def unmarked : Fired → Fired
  | .tool (.finished id name kind _) => .tool (.finished id name kind false)
  | fired => fired

/-- Strings in UTF-8, no tool that failed, and at the end a completed result with the text of the
fragments for its output. -/
structure Portable (turn : TurnRun) : Prop where
  utf8 : ∀ fired ∈ turn.fired, Gateway.Utf8 (Gateway.eventOf fired)
  succeeds : ∀ fired ∈ turn.fired, unmarked fired = fired
  result : ∃ result, turn.result = .ok result ∧ result.completed = true ∧
    result.output = turn.fired.flatMap Fired.text

theorem Reliable.observe_run {client : GatewayRunner} {runner : AgentRunner} {req : TurnRequest}
    {message : Bytes} {response : Response} (h : Reliable client runner req message response) :
    observe (client.run req response recording []) =
      observed ((Gateway.sent (runner req)).filter fun event => Gateway.Utf8 event) := by
  have hcut : response.pieces.flatten =
      (Gateway.sent (runner req)).flatMap Gateway.writeEvent := by
    rw [h.arrives, Gateway.streamTurn_eq, h.same]
  rw [GatewayRunner.observe_run h.session h.url h.failure, Gateway.received_of_fits h.fits hcut]

theorem eventSeen_eventOf (fired : Fired) :
    eventSeen (Gateway.eventOf fired) = some (unmarked fired).seen := by
  cases fired with
  | fragment text => rfl
  | tool event => cases event <;> rfl

theorem seen_unmarked {fired : Fired} (h : (unmarked fired).seen = fired.seen) :
    unmarked fired = fired := by
  cases fired with
  | fragment text => rfl
  | tool event =>
    cases event with
    | finished id name kind isError =>
      obtain rfl : false = isError := (Seen.finished.inj h).2.2.2
      rfl
    | _ => rfl

theorem chunkText_eventOf (fired : Fired) :
    chunkText (Gateway.eventOf fired) = fired.text := by
  cases fired with
  | fragment text => rfl
  | tool event => cases event <;> rfl

theorem filterMap_eventSeen (fired : List Fired) :
    (fired.map Gateway.eventOf).filterMap eventSeen = fired.map fun f => (unmarked f).seen := by
  rw [List.filterMap_map, ← List.filterMap_eq_map]
  exact List.filterMap_congr fun f _ => eventSeen_eventOf f

theorem flatMap_chunkText (fired : List Fired) :
    (fired.map Gateway.eventOf).flatMap chunkText = fired.flatMap Fired.text := by
  rw [List.flatMap_map]
  exact List.flatMap_congr fun f _ => chunkText_eventOf f

theorem flatMap_text_eq_nil {fired : List Fired} (h : fired.countP Gateway.isFragment = 0) :
    fired.flatMap Fired.text = [] := by
  rw [List.flatMap_eq_nil_iff]
  intro f hf
  cases f with
  | fragment text => exact absurd rfl (List.countP_eq_zero.mp h _ hf)
  | tool event => rfl

/-- The events that were fired, and the end of the turn. -/
theorem observed_events (fired : List Fired) :
    observed (fired.map Gateway.eventOf ++ [.done]) =
      { seen := fired.map fun f => (unmarked f).seen
        outcome := some (true, fired.flatMap Fired.text) } := by
  have herr : (fired.map Gateway.eventOf).any isErr = false := by
    rw [List.any_eq_false]
    intro event hevent
    obtain ⟨f, -, rfl⟩ := List.mem_map.mp hevent
    cases f with
    | fragment text => exact Bool.false_ne_true
    | tool event => cases event <;> exact Bool.false_ne_true
  rw [observed, List.filterMap_append, filterMap_eventSeen, List.flatMap_append,
    flatMap_chunkText, List.any_append, herr]
  simp [eventSeen, isErr, chunkText]

/-- **Of a portable turn everything arrives.** -/
theorem observed_of_portable {turn : TurnRun} (h : Portable turn) :
    observed ((Gateway.sent turn).filter fun event => Gateway.Utf8 event) =
      observe (turn.result, turn.fired.map Fired.seen) := by
  obtain ⟨result, hresult, hcompleted, houtput⟩ := h.result
  have hclosing : Gateway.closing turn = [.done] := by
    rw [Gateway.closing, hresult]
    refine if_neg fun hnone => ?_
    rw [houtput, flatMap_text_eq_nil hnone.1] at hnone
    exact absurd hnone.2 (Nat.lt_irrefl 0)
  have hsent : (Gateway.sent turn).filter (fun event => Gateway.Utf8 event) =
      turn.fired.map Gateway.eventOf ++ [.done] := by
    rw [Gateway.sent, hclosing, List.filter_eq_self]
    intro event hevent
    rw [decide_eq_true_eq]
    rcases List.mem_append.mp hevent with hevent | hevent
    · obtain ⟨f, hf, rfl⟩ := List.mem_map.mp hevent
      exact h.utf8 f hf
    · obtain rfl := List.mem_singleton.mp hevent
      trivial
  have hseen : (turn.fired.map fun f => (unmarked f).seen) = turn.fired.map Fired.seen :=
    List.map_congr_left fun f hf => by rw [h.succeeds f hf]
  rw [hsent, observed_events, hseen, ← houtput, ← hcompleted, hresult]
  rfl

/-- The fired events that arrive. -/
theorem filter_eventOf (fired : List Fired) :
    (fired.map Gateway.eventOf).filter (fun event => Gateway.Utf8 event) =
      (fired.filter fun f => Gateway.Utf8 (Gateway.eventOf f)).map Gateway.eventOf :=
  List.filter_map

/-- An output that was not streamed comes as a fragment that nobody fired, or not at all. -/
theorem not_observed_of_unstreamed {turn : TurnRun} {result : TurnResult}
    (hnone : turn.fired.countP Gateway.isFragment = 0 ∧ result.output.length > 0) :
    observed ((turn.fired.map Gateway.eventOf ++ [Event.chunk result.output, .done]).filter
        fun event => Gateway.Utf8 event) ≠
      observe (.ok result, turn.fired.map Fired.seen) := by
  intro heq
  rw [List.filter_append, filter_eventOf] at heq
  by_cases hutf8 : Gateway.Utf8 (.chunk result.output)
  · have hmem : Seen.fragment result.output ∈ turn.fired.map Fired.seen := by
      rw [← show _ = turn.fired.map Fired.seen from congrArg Observation.seen heq]
      refine List.mem_filterMap.mpr ⟨.chunk result.output, ?_, rfl⟩
      rw [List.mem_append, List.mem_filter, decide_eq_true_eq]
      exact .inr ⟨List.mem_cons_self, hutf8⟩
    obtain ⟨f, hf, hseen⟩ := List.mem_map.mp hmem
    cases f with
    | fragment text => exact List.countP_eq_zero.mp hnone.1 _ hf rfl
    | tool event => cases event <;> cases hseen
  · have htail : [Event.chunk result.output, .done].filter (fun event => Gateway.Utf8 event) =
        [.done] := List.filter_cons_of_neg (by simpa using hutf8)
    have hnil : (turn.fired.filter fun f => Gateway.Utf8 (Gateway.eventOf f)).flatMap
        Fired.text = [] := by
      refine flatMap_text_eq_nil (List.countP_eq_zero.mpr fun f hf => ?_)
      exact List.countP_eq_zero.mp hnone.1 f (List.mem_of_mem_filter hf)
    rw [htail, observed_events, hnil] at heq
    have hempty : [] = result.output :=
      congrArg Prod.snd (Option.some.inj (congrArg Observation.outcome heq))
    rw [← hempty] at hnone
    exact Nat.lt_irrefl 0 hnone.2

/-- **A turn that is not portable is told apart.** -/
theorem portable_of_observed {turn : TurnRun}
    (heq : observed ((Gateway.sent turn).filter fun event => Gateway.Utf8 event) =
      observe (turn.result, turn.fired.map Fired.seen)) : Portable turn := by
  cases hresult : turn.result with
  | error err =>
    rw [hresult] at heq
    cases congrArg Observation.outcome heq
  | ok result =>
    rw [hresult, Gateway.sent, Gateway.closing, hresult] at heq
    dsimp only at heq
    split at heq
    · rename_i hnone
      exact absurd heq (not_observed_of_unstreamed hnone)
    · have hdone : [Event.done].filter (fun event => Gateway.Utf8 event) = [.done] := rfl
      rw [List.filter_append, filter_eventOf, hdone, observed_events] at heq
      -- as many arrive as were fired, so all of them do
      have hseen : ((turn.fired.filter fun f => Gateway.Utf8 (Gateway.eventOf f)).map
          fun f => (unmarked f).seen) = turn.fired.map Fired.seen :=
        congrArg Observation.seen heq
      have hutf8 : ∀ f ∈ turn.fired, decide (Gateway.Utf8 (Gateway.eventOf f)) = true := by
        have hlen := congrArg List.length hseen
        rw [List.length_map, List.length_map] at hlen
        exact List.length_filter_eq_length_iff.mp hlen
      have houtcome : (true, (turn.fired.filter fun f =>
          Gateway.Utf8 (Gateway.eventOf f)).flatMap Fired.text) =
          (result.completed, result.output) :=
        Option.some.inj (congrArg Observation.outcome heq)
      rw [List.filter_eq_self.mpr hutf8] at hseen houtcome
      obtain ⟨hcompleted, houtput⟩ := Prod.mk.inj houtcome
      exact ⟨fun f hf => of_decide_eq_true (hutf8 f hf),
        fun f hf => seen_unmarked (List.map_inj_left.mp hseen f hf),
        result, hresult, hcompleted.symm, houtput.symm⟩

/-- **Over the gateway a turn looks as it does in process exactly if it is portable.** -/
theorem refines_iff {client : GatewayRunner} {runner : AgentRunner} {req : TurnRequest}
    {message : Bytes} {response : Response} (h : Reliable client runner req message response) :
    observe (client.run req response recording []) = observe (runner.run req recording []) ↔
      Portable (runner req) := by
  rw [h.observe_run, Harness.run_recording]
  exact ⟨portable_of_observed, observed_of_portable⟩

/-- The turns that an agent's runner completes are portable, if the output is UTF-8. -/
theorem portable_turnRun {runner : Harness.RealRunner} {call : Harness.Call} {result : TurnResult}
    (hsink : call.req.hasStreamSink = true) (hresult : (runner.run call).1.result = .ok result)
    (hcompleted : result.completed = true) (hutf8 : Json.utf8Valid result.output = true) :
    Portable (runner.turnRun call) where
  utf8 := by
    intro f hf
    rw [Harness.RealRunner.turnRun, Harness.RealRunner.streamed_of_ok hsink hresult] at hf
    split at hf
    · obtain rfl := List.mem_singleton.mp hf
      exact hutf8
    · exact absurd hf List.not_mem_nil
  succeeds := by
    intro f hf
    obtain ⟨text, -, rfl⟩ := Option.map_eq_some_iff.mp (Option.mem_toList.mp hf)
    rfl
  result := ⟨result, hresult, hcompleted,
    (Harness.RealRunner.flatMap_text_turnRun hsink hresult).symm⟩

/-! ## Two turns -/

def localClient : GatewayRunner where
  baseUrl := ascii "http://127.0.0.1:8765"

def hello : TurnRequest where
  sessionId := ascii "tiger"
  input := ascii "hello"

/-- The response to `hello`, in two pieces. -/
def inTwo (turn : TurnRun) : Response where
  pieces :=
    let body := Gateway.streamTurn (fun _ => turn) hello.sessionId hello.input
    [body.take 40, body.drop 40]

theorem reliable_inTwo {turn : TurnRun}
    (hfits : ∀ event ∈ Gateway.sent turn, (Gateway.payload event).length ≤ Tui.dataBufLen) :
    Reliable localClient (fun _ => turn) hello hello.input (inTwo turn) where
  session := by decide
  url := by decide
  extracted := extractMessage_requestBody (by decide) (by decide)
  same := rfl
  failure := rfl
  arrives := by
    show [List.take 40 _, List.drop 40 _].flatten = _
    rw [List.flatten_cons, List.flatten_singleton, List.take_append_drop]
  fits := hfits

/-- A tool that works, and two fragments. -/
def greeting : TurnRun where
  fired := [.tool (.started (ascii "t1") (ascii "bash") (ascii "whoami")),
    .tool (.progress (ascii "t1") .stdout (ascii "me")),
    .tool (.finished (ascii "t1") (ascii "bash") (.bash (ascii "me")) false),
    .fragment (ascii "hi "), .fragment (ascii "me")]
  result := .ok { output := ascii "hi me", completed := true }

theorem refines_greeting :
    observe (localClient.run hello (inTwo greeting) recording []) =
      observe (AgentRunner.run (fun _ => greeting) hello recording []) :=
  (refines_iff (reliable_inTwo (by decide))).mpr
    { utf8 := by decide
      succeeds := by decide
      result := ⟨_, rfl, rfl, rfl⟩ }

/-- A tool that fails, a fragment, and a cancel. -/
def cancelled : TurnRun where
  fired := [.tool (.finished (ascii "t1") (ascii "bash") (.bash (ascii "no such file")) true),
    .fragment (ascii "hi")]
  result := .error .cancelled

/-- Over the gateway the tool has not failed, the cancel is a fragment of the reply, and the turn
has a result. -/
theorem not_refines_cancelled :
    observe (AgentRunner.run (fun _ => cancelled) hello recording []) =
        { seen := [.finished (ascii "t1") (ascii "bash") (ascii "no such file") true,
            .fragment (ascii "hi")]
          outcome := none } ∧
      observe (localClient.run hello (inTwo cancelled) recording []) =
        { seen := [.finished (ascii "t1") (ascii "bash") (ascii "no such file") false,
            .fragment (ascii "hi"), .fragment (ascii "turn cancelled")]
          outcome := some (false, ascii "hi") } := by
  constructor
  · decide
  · have hreliable := reliable_inTwo (show ∀ event ∈ Gateway.sent cancelled, _ by decide)
    rw [hreliable.observe_run]
    decide

end GatewayRunner
end Runtime
end TigerClaw
