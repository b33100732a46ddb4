import TigerClaw.Context.Assemble

/-!
# The react loop

An agent keeps one transcript.  A turn pushes the input of the user, and asks the provider with the
whole transcript until it stops calling tools; what it says, and what the tools return, is pushed in
between.  With a context engine the transcript is compacted before a turn if it has grown too long.

* `AgentState`, `Engine`, `Agent`: what the agent keeps.
* `step`, `run`, `runTurn`: a call of the provider, the loop, and a turn.
* `runTurn_eq`: a turn adds the same messages to every transcript, and what it asks is what it would
  ask with none, behind the transcript.
-/

namespace TigerClaw
namespace Agent

open Context (ContentBlock)

/-! ## Messages -/

/-- The roles on the wire; the result of a tool goes as `user`. -/
inductive Role where
  | system
  | user
  | assistant
  deriving DecidableEq

structure Message where
  role : Role
  content : List ContentBlock
  deriving DecidableEq

/-- `allocText`: a message of one text block. -/
def Message.allocText (role : Role) (body : Bytes) : Message := { role, content := [.text body] }

/-- The first text among the blocks. -/
def firstText : List ContentBlock → Option Bytes
  | [] => none
  | .text t :: _ => some t
  | _ :: blocks => firstText blocks

/-- `flatText`. -/
def Message.flatText (self : Message) : Bytes := (firstText self.content).getD []

/-- `AgentState`. -/
structure AgentState where
  messages : List Message := []
  iteration : ℕ := 0

namespace AgentState

def pushMessage (self : AgentState) (role : Role) (content : Bytes) : AgentState :=
  { self with messages := self.messages ++ [Message.allocText role content] }

def pushUser (self : AgentState) (content : Bytes) : AgentState := self.pushMessage .user content

def pushAssistant (self : AgentState) (content : Bytes) : AgentState :=
  self.pushMessage .assistant content

/-- `pushTool`: there is no role for tools on the wire. -/
def pushTool (self : AgentState) (content : Bytes) : AgentState := self.pushMessage .user content

def history (self : AgentState) : List Message := self.messages

def replaceMessages (self : AgentState) (new : List Message) : AgentState :=
  { self with messages := new }

def bumpIteration (self : AgentState) : AgentState := { self with iteration := self.iteration + 1 }

def startNewTurn (self : AgentState) : AgentState := { self with iteration := 0 }

end AgentState

/-! ## The context engine -/

/-- `token_estimator.estimate`. -/
def estimate (text : Bytes) : ℕ := min ((text.length + 3) / 4) 0xFFFFFFFF

structure Window where
  capacityTokens : UInt32
  reserveOutputTokens : UInt32 := 4096

inductive Status where
  | ok
  | warm
  | pressure
  | overflow
  deriving DecidableEq

namespace Window

def promptBudget (self : Window) : ℕ :=
  if self.capacityTokens ≤ self.reserveOutputTokens then 0
  else self.capacityTokens.toNat - self.reserveOutputTokens.toNat

/-- `estimateMessages`: the sum saturates at 64 bits and is cut to 32. -/
def estimateMessages (messages : List Message) : ℕ :=
  min (messages.foldl (fun total m => min (total + estimate m.flatText) 0xFFFFFFFFFFFFFFFF) 0)
    0xFFFFFFFF

def classify (self : Window) (estimatedPromptTokens : ℕ) : Status :=
  let budget := self.promptBudget
  if budget < estimatedPromptTokens then .overflow
  else if budget = 0 then .overflow
  else
    let usedPct := estimatedPromptTokens * 100 / budget
    if 90 ≤ usedPct then .pressure else if 70 ≤ usedPct then .warm else .ok

end Window

structure Policy where
  keepHead : ℕ := 1
  keepTail : ℕ := 4

/-- `compact`: the head and the tail of the history, as text. -/
def compact (history : List Message) (policy : Policy) : List Message :=
  let headN := min policy.keepHead history.length
  let tailStart :=
    if policy.keepTail < history.length then history.length - policy.keepTail else headN
  let effectiveTailStart := max headN tailStart
  (history.take headN ++ history.drop effectiveTailStart).map fun m =>
    Message.allocText m.role m.flatText

structure Engine where
  window : Window
  policy : Policy := {}

namespace Engine

def shouldCompress (self : Engine) (history : List Message) : Bool :=
  let status := self.window.classify (Window.estimateMessages history)
  status = .pressure || status = .overflow

/-- `prepareForSend`: the messages of `Prepared`. -/
def prepareForSend (self : Engine) (history : List Message) : List Message :=
  if self.shouldCompress history then compact history self.policy
  else history.map fun m => Message.allocText m.role m.flatText

end Engine

/-! ## A step -/

structure ToolCall where
  id : Bytes
  name : Bytes
  argumentsJson : Bytes
  deriving DecidableEq

/-- `ToolResult.Outcome`. -/
inductive ToolOutcome where
  | ok (payload : Bytes)
  | err (id detail : Bytes)
  deriving DecidableEq

structure ToolResult where
  callId : Bytes
  outcome : ToolOutcome
  deriving DecidableEq

structure TokenUsage where
  input : UInt32 := 0
  output : UInt32 := 0
  cacheRead : UInt32 := 0
  cacheWrite : UInt32 := 0
  deriving DecidableEq

inductive StopReason where
  | endTurn
  | maxTokens
  | toolUse
  | stopSequence
  | refusal
  | cancelled
  deriving DecidableEq

structure ChatResponse where
  text : Option Bytes := none
  toolCalls : List ToolCall := []
  usage : TokenUsage := {}
  stopReason : StopReason := .endTurn
  deriving DecidableEq

/-- `ToolExecutor`, one that keeps no state; it can fail. -/
abbrev ToolExecutor : Type := ToolCall → Option ToolResult

/-- `DenyExecutor`. -/
def denyExecutor : ToolExecutor := fun call => some {
  callId := call.id
  outcome := .err (ascii "tool.unavailable")
    (ascii "no tool executor is configured for this session") }

/-- What passes between the agent and the provider: what the provider will answer, call after call,
before it fails, and what it has been asked. -/
structure Exchange where
  state : AgentState
  replies : List ChatResponse
  requests : List (List Message) := []

structure StepOutcome where
  assistantText : Option Bytes
  toolCalls : ℕ
  stopReason : StopReason
  usage : TokenUsage

def renderToolResult (r : ToolResult) : Bytes :=
  match r.outcome with
  | .ok payload => ascii "ok:" ++ payload
  | .err id detail => ascii "err[" ++ id ++ ascii "]:" ++ detail

/-- The tool calls of a response, in order; whether they all came back. -/
def dispatch (executor : ToolExecutor) : List ToolCall → AgentState → Bool × AgentState
  | [], state => (true, state)
  | call :: calls, state =>
    match executor call with
    | none => (false, state)
    | some result => dispatch executor calls (state.pushTool (renderToolResult result))

/-- The text of a response, if there is any, goes into the transcript. -/
def record (text : Option Bytes) (state : AgentState) : Option Bytes × AgentState :=
  match text with
  | none => (none, state)
  | some text => if 0 < text.length then (some text, state.pushAssistant text) else (none, state)

/-- `step`. -/
def step (executor : ToolExecutor) (x : Exchange) : Option StepOutcome × Exchange :=
  let state := x.state.bumpIteration
  let requests := x.requests ++ [state.history]
  match x.replies with
  | [] => (none, { state, replies := [], requests })
  | response :: replies =>
    let appended := record response.text state
    let dispatched := dispatch executor response.toolCalls appended.2
    (if dispatched.1 then
        some { assistantText := appended.1, toolCalls := response.toolCalls.length
               stopReason := response.stopReason, usage := response.usage }
      else none,
      { state := dispatched.2, replies, requests })

/-! ## The loop -/

inductive TerminationReason where
  | modelFinished
  | iterationCap
  deriving DecidableEq

structure RunOutcome where
  reason : TerminationReason := .iterationCap
  iterations : ℕ := 0
  finalText : Option Bytes := none
  usage : TokenUsage := {}

/-- `total +|= @min(maxInt(u32) - total, n)`. -/
def addUsage (total n : UInt32) : UInt32 := UInt32.satAdd total (min (0xFFFFFFFF - total) n)

/-- The locals of `run` after a step. -/
def RunOutcome.add (self : RunOutcome) (out : StepOutcome) : RunOutcome :=
  { self with
    iterations := self.iterations + 1
    finalText := out.assistantText.or self.finalText
    usage := {
      input := addUsage self.usage.input out.usage.input
      output := addUsage self.usage.output out.usage.output
      cacheRead := addUsage self.usage.cacheRead out.usage.cacheRead
      cacheWrite := addUsage self.usage.cacheWrite out.usage.cacheWrite } }

/-- `while (iterations < cfg.max_iterations)`, with what is left of the iterations. -/
def loop (executor : ToolExecutor) : ℕ → RunOutcome → Exchange → Option RunOutcome × Exchange
  | 0, locals, x => (some locals, x)
  | left + 1, locals, x =>
    match step executor x with
    | (none, x) => (none, x)
    | (some out, x) =>
      let locals := locals.add out
      if out.stopReason ≠ .toolUse then (some { locals with reason := .modelFinished }, x)
      else loop executor left locals x

/-- `run`; nothing is returned where a call of the provider, or a tool, fails. -/
def run (state : AgentState) (replies : List ChatResponse) (executor : ToolExecutor)
    (maxIterations : UInt32) : Option RunOutcome × Exchange :=
  loop executor maxIterations.toNat {} { state := state.startNewTurn, replies }

end Agent

/-- `Agent`; the provider of a turn is its list of replies. -/
structure Agent where
  executor : Agent.ToolExecutor
  maxIterations : UInt32 := 32
  contextEngine : Option Agent.Engine := none
  state : Agent.AgentState := {}

namespace Agent

/-- The transcript that a turn starts from. -/
def prepare (contextEngine : Option Engine) (history : List Message) : List Message :=
  match contextEngine with
  | none => history
  | some engine =>
    if engine.shouldCompress history then engine.prepareForSend history else history

/-- `runTurn`. -/
def runTurn (self : Agent) (userInput : Bytes) (replies : List ChatResponse) :
    Option RunOutcome × Exchange :=
  let state := self.state.replaceMessages (prepare self.contextEngine self.state.history)
  run (state.pushUser userInput) replies self.executor self.maxIterations

/-! ## A turn does not read what is in front of it -/

/-- The same exchange behind other messages. -/
def Exchange.behind (x : Exchange) (pre : List Message) : Exchange :=
  { state := { x.state with messages := pre ++ x.state.messages }
    replies := x.replies
    requests := x.requests.map (pre ++ ·) }

/-- The same state behind other messages. -/
def AgentState.behind (s : AgentState) (pre : List Message) : AgentState :=
  { s with messages := pre ++ s.messages }

variable {executor : ToolExecutor} (pre : List Message)

theorem pushMessage_behind (s : AgentState) (role : Role) (content : Bytes) :
    (s.behind pre).pushMessage role content = (s.pushMessage role content).behind pre := by
  simp only [AgentState.pushMessage, AgentState.behind, List.append_assoc]

theorem dispatch_behind (calls : List ToolCall) (s : AgentState) :
    dispatch executor calls (s.behind pre) =
      ((dispatch executor calls s).1, (dispatch executor calls s).2.behind pre) := by
  induction calls generalizing s with
  | nil => rfl
  | cons call calls ih =>
    rw [dispatch, dispatch]
    cases executor call with
    | none => rfl
    | some result =>
      dsimp only [AgentState.pushTool]
      rw [pushMessage_behind, ih]

theorem record_behind (text : Option Bytes) (s : AgentState) :
    record text (s.behind pre) = ((record text s).1, (record text s).2.behind pre) := by
  cases text with
  | none => rfl
  | some text =>
    simp only [record, AgentState.pushAssistant, pushMessage_behind]
    split <;> rfl

theorem step_behind (x : Exchange) :
    step executor (x.behind pre) = ((step executor x).1, (step executor x).2.behind pre) := by
  have hbump : (x.behind pre).state.bumpIteration = x.state.bumpIteration.behind pre := rfl
  have hrequests : (x.behind pre).requests ++ [(x.state.bumpIteration.behind pre).history] =
      (x.requests ++ [x.state.bumpIteration.history]).map (pre ++ ·) := by
    rw [List.map_append]
    rfl
  simp only [step, hbump, hrequests]
  cases hreplies : x.replies with
  | nil =>
    have hnil : (x.behind pre).replies = [] := hreplies
    rw [hnil]
    rfl
  | cons response replies =>
    have hcons : (x.behind pre).replies = response :: replies := hreplies
    rw [hcons]
    dsimp only
    rw [record_behind, dispatch_behind]
    rfl

theorem loop_behind (left : ℕ) (locals : RunOutcome) (x : Exchange) :
    loop executor left locals (x.behind pre) =
      ((loop executor left locals x).1, (loop executor left locals x).2.behind pre) := by
  induction left generalizing locals x with
  | zero => rfl
  | succ left ih =>
    rw [loop, loop, step_behind]
    obtain ⟨out, x'⟩ := step executor x
    cases out with
    | none => rfl
    | some out =>
      dsimp only
      split
      · rfl
      · exact ih _ x'

/-- What a turn says, asks and adds, with no transcript before it. -/
def turn (self : Agent) (userInput : Bytes) (replies : List ChatResponse) :
    Option RunOutcome × Exchange :=
  run (({} : AgentState).pushUser userInput) replies self.executor self.maxIterations

/-- **A turn adds the same messages to every transcript**, and its requests are those it would make
with none, behind the transcript. -/
theorem runTurn_eq (self : Agent) (userInput : Bytes) (replies : List ChatResponse) :
    self.runTurn userInput replies =
      ((self.turn userInput replies).1, (self.turn userInput replies).2.behind
        (prepare self.contextEngine self.state.history)) :=
  loop_behind (prepare self.contextEngine self.state.history) self.maxIterations.toNat {}
    { state := (({} : AgentState).pushUser userInput).startNewTurn, replies }

theorem prefix_requests_step (executor : ToolExecutor) (x : Exchange) :
    x.requests ++ [x.state.messages] <+: (step executor x).2.requests := by
  unfold step
  split <;> exact List.prefix_refl _

theorem prefix_requests_loop (executor : ToolExecutor) (left : ℕ) (locals : RunOutcome)
    (x : Exchange) :
    x.requests <+: (loop executor left locals x).2.requests := by
  induction left generalizing locals x with
  | zero => exact List.prefix_refl _
  | succ left ih =>
    have hstep : x.requests <+: (step executor x).2.requests :=
      (List.prefix_append _ _).trans (prefix_requests_step executor x)
    rw [loop]
    split
    · rename_i x' hx
      rw [hx] at hstep
      exact hstep
    · rename_i out x' hx
      rw [hx] at hstep
      dsimp only
      split
      · exact hstep
      · exact hstep.trans (ih _ x')

/-- The loop begins with a step. -/
theorem prefix_requests_loop_succ (executor : ToolExecutor) (left : ℕ) (locals : RunOutcome)
    (x : Exchange) :
    (step executor x).2.requests <+: (loop executor (left + 1) locals x).2.requests := by
  rw [loop]
  split
  · rename_i x' hx
    simp only [hx, List.prefix_refl]
  · rename_i out x' hx
    rw [hx]
    dsimp only
    split
    · exact List.prefix_refl _
    · exact prefix_requests_loop executor left _ x'

/-- A turn asks the provider first with its input. -/
theorem requests_turn_ne_nil (self : Agent) (userInput : Bytes) (replies : List ChatResponse)
    (hpos : 0 < self.maxIterations.toNat) : (self.turn userInput replies).2.requests ≠ [] := by
  obtain ⟨left, hleft⟩ := Nat.exists_eq_succ_of_ne_zero (Nat.ne_of_gt hpos)
  have hfirst := (prefix_requests_step self.executor _).trans
    (prefix_requests_loop_succ self.executor left {}
      { state := (({} : AgentState).pushUser userInput).startNewTurn, replies })
  rw [turn, run, hleft]
  intro hnil
  rw [hnil, List.prefix_nil] at hfirst
  exact absurd hfirst (by simp)

/-- **Two turns ask the same exactly if they start from the same transcript.** -/
theorem requests_runTurn_eq_iff {a b : Agent} (hexecutor : a.executor = b.executor)
    (hcap : a.maxIterations = b.maxIterations) (hpos : 0 < a.maxIterations.toNat)
    (userInput : Bytes) (replies : List ChatResponse) :
    (a.runTurn userInput replies).2.requests = (b.runTurn userInput replies).2.requests ↔
      prepare a.contextEngine a.state.history = prepare b.contextEngine b.state.history := by
  have hturn : b.turn userInput replies = a.turn userInput replies := by
    rw [turn, turn, hexecutor, hcap]
  rw [runTurn_eq, runTurn_eq, hturn]
  constructor
  · intro h
    obtain ⟨first, rest, hrequests⟩ :=
      List.exists_cons_of_ne_nil (requests_turn_ne_nil a userInput replies hpos)
    simp only [Exchange.behind, hrequests, List.map_cons, List.cons.injEq] at h
    exact List.append_cancel_right h.1
  · intro h
    rw [h]

/-! ## What a turn pushes -/

/-- A property of the messages holds of the transcript and of everything that was asked. -/
def Exchange.Everywhere (P : Message → Prop) (x : Exchange) : Prop :=
  (∀ m ∈ x.state.messages, P m) ∧ ∀ messages ∈ x.requests, ∀ m ∈ messages, P m

section Pushed

variable {P : Message → Prop}
  (hpush : ∀ role text, role ≠ Role.system → P (Message.allocText role text))

include hpush

theorem forall_pushMessage {s : AgentState} (h : ∀ m ∈ s.messages, P m) {role : Role}
    (hrole : role ≠ .system) (content : Bytes) :
    ∀ m ∈ (s.pushMessage role content).messages, P m :=
  List.forall_mem_append.mpr ⟨h, List.forall_mem_singleton.mpr (hpush role content hrole)⟩

theorem forall_dispatch (executor : ToolExecutor) (calls : List ToolCall) {s : AgentState}
    (h : ∀ m ∈ s.messages, P m) : ∀ m ∈ (dispatch executor calls s).2.messages, P m := by
  induction calls generalizing s with
  | nil => exact h
  | cons call calls ih =>
    rw [dispatch]
    cases executor call with
    | none => exact h
    | some result => exact ih (forall_pushMessage hpush h (by decide) _)

theorem forall_record (text : Option Bytes) {s : AgentState} (h : ∀ m ∈ s.messages, P m) :
    ∀ m ∈ (record text s).2.messages, P m := by
  cases text with
  | none => exact h
  | some text =>
    rw [record]
    split
    · exact forall_pushMessage hpush h (by decide) _
    · exact h

theorem everywhere_step (executor : ToolExecutor) {x : Exchange} (h : x.Everywhere P) :
    (step executor x).2.Everywhere P := by
  have hrequests : ∀ messages ∈ x.requests ++ [x.state.bumpIteration.history],
      ∀ m ∈ messages, P m :=
    List.forall_mem_append.mpr ⟨h.2, List.forall_mem_singleton.mpr h.1⟩
  rw [step]
  split
  · exact ⟨h.1, hrequests⟩
  · exact ⟨forall_dispatch hpush executor _ (forall_record hpush _ h.1), hrequests⟩

theorem everywhere_loop (executor : ToolExecutor) (left : ℕ) (locals : RunOutcome) {x : Exchange}
    (h : x.Everywhere P) : (loop executor left locals x).2.Everywhere P := by
  induction left generalizing locals x with
  | zero => exact h
  | succ left ih =>
    have hstep := everywhere_step hpush executor h
    rw [loop]
    split
    · rename_i x' hx
      rw [hx] at hstep
      exact hstep
    · rename_i out x' hx
      rw [hx] at hstep
      dsimp only
      split
      · exact hstep
      · exact ih _ hstep

/-- What holds of a pushed message holds of all that a turn adds and asks by itself. -/
theorem everywhere_turn (self : Agent) (userInput : Bytes) (replies : List ChatResponse) :
    (self.turn userInput replies).2.Everywhere P :=
  everywhere_loop hpush _ _ _
    ⟨forall_pushMessage hpush (fun _ h => absurd h List.not_mem_nil) (by decide) _,
      fun _ h => absurd h List.not_mem_nil⟩

end Pushed

end Agent
end TigerClaw
