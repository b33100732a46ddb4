import TigerClaw.Agent.Loop
import TigerClaw.Context.Compaction
import TigerClaw.Context.Replay
import TigerClaw.Library.Pairing

/-!
# Tool calls and their results

The live runner keeps the transcript of a turn in two forms.  In the list that it hands to the
provider, the results of a round of tool calls are one message behind the message of the calls.  In
the context engine each result is a message of its own, and the list of the next turn is made from
these, as the sort and the budget leave them.

* `liveRun`: a turn, with what it asks the provider.
* `PairedMessages`: every call has its result in the next message, and every result its call in the
  message before.
* `Unsplit`: what comes back of the session leaves no call without its result.
* `together_of_room`: so does a session with one call at a time that comes back whole and in order.
* `paired_iff`: the lists of a run are paired exactly if its turns are all unsplit.
-/

namespace TigerClaw
namespace Cli

open Agent (Message ToolCall ChatResponse)
open Context (ContentBlock Section FitResult StoredMsg LiveAgentRunner tokensOf replayed)
open Pairing (Paired Rounds Together)

/-! ## Messages -/

/-- `mapRole`: on the wire the results of tools come from the user. -/
def mapRole : Context.Role → Agent.Role
  | .system => .system
  | .user => .user
  | .assistant => .assistant
  | .tool => .user

/-- `messageFromBlocks`, or `allocText` where there are no blocks. -/
def messageFrom (role : Context.Role) (content : Bytes) (blocks : Option (List ContentBlock)) :
    Message :=
  match blocks with
  | some bs => { role := mapRole role, content := bs }
  | none => Message.allocText (mapRole role) content

def messageOfSection (s : Section) : Message := messageFrom s.role s.content s.blocks

def messageOfStored (m : StoredMsg) : Message := messageFrom m.role m.content m.blocks

/-- The prompt is in the history already. -/
def messagesOf (assembled : FitResult) : List Message :=
  (assembled.sections.filter fun s => s.kind ≠ .currentPrompt).map messageOfSection

def toolUses (m : Message) : List Bytes :=
  m.content.filterMap fun
    | .toolUse id _ _ => some id
    | _ => none

def toolResults (m : Message) : List Bytes :=
  m.content.filterMap fun
    | .toolResult id _ _ => some id
    | _ => none

/-- **Every tool result is in a user message right behind the assistant message with its call, and
every call has one result in the user message right behind it.** -/
structure PairedMessages (messages : List Message) : Prop where
  results : ∀ i m id, messages[i]? = some m → id ∈ toolResults m → m.role = .user ∧
    ∃ j before, i = j + 1 ∧ messages[j]? = some before ∧ before.role = .assistant ∧
      id ∈ toolUses before
  uses : ∀ i m id, messages[i]? = some m → m.role = .assistant → id ∈ toolUses m →
    ∃ next, messages[i + 1]? = some next ∧ next.role = .user ∧ (toolResults next).count id = 1

/-! ## A turn -/

/-- `renderAssistantTurn`: the text, and a line for each call. -/
def renderAssistantTurn (text : Bytes) (toolCalls : List ToolCall) : Bytes :=
  toolCalls.foldl (fun buf tc => (if 0 < buf.length then buf ++ ascii "\n" else buf) ++
    ascii "[tool_call " ++ tc.id ++ ascii " " ++ tc.name ++ ascii "(" ++ tc.argumentsJson ++
    ascii ")]") text

/-- The text, if there is any, and the calls. -/
def assistantBlocks (text : Bytes) (toolCalls : List ToolCall) : List ContentBlock :=
  (if 0 < text.length then [.text text] else []) ++
    toolCalls.map fun tc => .toolUse tc.id tc.name tc.argumentsJson

/-- What happens at a tool call: whether ESC is pressed before it is dispatched, and while it runs,
and what comes of it, the name of an error or a text. -/
structure ToolRun where
  escBefore : Bool := false
  escDuring : Bool := false
  outcome : Except Bytes Bytes

/-- `result_text` and `tool_failed`. -/
def ToolRun.result (self : ToolRun) (name : Bytes) : Bytes × Bool :=
  match self.outcome with
  | .ok text => (text, false)
  | .error e => (ascii "tool " ++ name ++ ascii " failed: " ++ e, true)

/-- The runner in the middle of a round, with the results so far. -/
structure Dispatch where
  runner : LiveAgentRunner
  cancelFlag : Bool
  anyToolCancelled : Bool := false
  resultBlocks : List ContentBlock := []

/-- A result goes into the engine as a message of its own, and into the blocks of the round. -/
def Dispatch.push (self : Dispatch) (sessionId : Bytes) (tc : ToolCall) (content : Bytes)
    (isError : Bool) : Outcome PlugError Dispatch := do
  let block := ContentBlock.toolResult tc.id content isError
  let runner ← self.runner.call (.ingest sessionId .tool content (some [block]) false)
  pure { self with runner, resultBlocks := self.resultBlocks ++ [block] }

/-- One call of the round; nothing is dispatched any more once ESC has been pressed. -/
def runTool (sessionId : Bytes) (tools : ℕ → ToolRun) (d : Dispatch) (call : ToolCall × ℕ) :
    Outcome PlugError Dispatch :=
  let run := tools call.2
  let preCancelled := d.cancelFlag || run.escBefore
  if preCancelled then
    { d with cancelFlag := true, anyToolCancelled := true }.push sessionId call.1
      (ascii "[cancelled by user]") false
  else
    let result := run.result call.1.name
    { d with cancelFlag := run.escDuring
             anyToolCancelled := d.anyToolCancelled || run.escDuring }.push sessionId call.1
      result.1 result.2

/-- What the assistant says goes into the engine, unless it says nothing. -/
def record (self : LiveAgentRunner) (sessionId text : Bytes) (toolCalls : List ToolCall) :
    Outcome PlugError LiveAgentRunner :=
  if 0 < text.length ∨ 0 < toolCalls.length then
    self.call (.ingest sessionId .assistant (renderAssistantTurn text toolCalls)
      (some (assistantBlocks text toolCalls)) false)
  else pure self

/-- An answer is recorded, and its tools are run. -/
def playRound (sessionId : Bytes) (tools : ℕ → ToolRun) (text : Bytes) (toolCalls : List ToolCall)
    (cancelFlag : Bool) (self : LiveAgentRunner) : Outcome PlugError Dispatch := do
  let runner ← record self sessionId text toolCalls
  toolCalls.zipIdx.foldlM (runTool sessionId tools) { runner, cancelFlag }

/-- The dispatch loop: what it asks, and the runner after it, if the process is still there.  The
provider answers so often before it fails; the loop ends with an answer without tool calls. -/
def dispatchLoop (sessionId : Bytes) (tools : ℕ → ℕ → ToolRun) (round : ℕ) :
    List ChatResponse → Bool → LiveAgentRunner → List Message →
      List (List Message) × Option LiveAgentRunner
  | [], _, self, messages => ([messages], some self)
  | resp :: replies, cancelFlag, self, messages =>
    let text := resp.text.getD []
    match (playRound sessionId (tools round) text resp.toolCalls cancelFlag self).toOption with
    | none => ([messages], none)
    | some d =>
      if resp.toolCalls = [] then ([messages], some d.runner)
      else
        let rest := dispatchLoop sessionId tools (round + 1) replies
          (d.cancelFlag && !d.anyToolCancelled) d.runner
          (messages ++ [{ role := .assistant, content := assistantBlocks text resp.toolCalls },
            { role := .user, content := d.resultBlocks }])
        (messages :: rest.1, rest.2)

/-- A request to the runner, what the provider answers to it before it fails, and what happens at
the tool calls of each round. -/
structure Turn where
  sessionId : Bytes
  input : Bytes
  tokenBudget : UInt32
  replies : List ChatResponse := []
  tools : ℕ → ℕ → ToolRun := fun _ _ => { outcome := .ok [] }

/-- The input is recorded, and the context is assembled. -/
def openTurn (self : LiveAgentRunner) (t : Turn) :
    Outcome PlugError (LiveAgentRunner × FitResult) := do
  let self ← self.call (.ingest t.sessionId .user t.input none false)
  let assembled ← self.contextEngine.assemble t.sessionId t.input t.tokenBudget
  pure (self, assembled)

/-- `liveRun`. -/
def liveRun (self : LiveAgentRunner) (t : Turn) : List (List Message) × Option LiveAgentRunner :=
  if t.sessionId = [] then ([], some self)
  else
    match (openTurn self t).toOption with
    | none => ([], none)
    | some (self, assembled) =>
      dispatchLoop t.sessionId t.tools 0 t.replies false self (messagesOf assembled)

/-- The runner, while the process is there, and all that it has asked. -/
structure Run where
  runner : Option LiveAgentRunner := some {}
  asked : List (List Message) := []

def Run.serve (self : Run) (t : Turn) : Run :=
  match self.runner with
  | none => self
  | some runner =>
    { runner := (liveRun runner t).2, asked := self.asked ++ (liveRun runner t).1 }

def Turn.callIds (t : Turn) : List Bytes :=
  t.replies.flatMap fun resp => resp.toolCalls.map (·.id)

/-! ## What comes back of a session -/

/-- The calls of an assistant message. -/
def calls (m : Message) : List Bytes := if m.role = .assistant then toolUses m else []

/-- The messages of a session, as the engine has them. -/
def transcript (self : LiveAgentRunner) (sessionId : Bytes) : List Message :=
  (self.contextEngine.history sessionId).map messageOfStored

/-- The positions of the session that come back when the turn is opened, its input being the last
message. -/
def positions (self : LiveAgentRunner) (t : Turn) : List ℕ :=
  replayed (((self.contextEngine.history t.sessionId).map fun m => tokensOf m.content) ++
    [tokensOf t.input]) (tokensOf t.input) t.tokenBudget.toNat

/-- Of each round of the session that the turn gets back anything of, it was one call, and the call
comes back with its result right behind it. -/
def Unsplit (self : Run) (t : Turn) : Prop :=
  ∀ runner ∈ self.runner, t.sessionId ≠ [] → (openTurn runner t).toOption.isSome = true →
    Together calls (transcript runner t.sessionId) (positions runner t)

instance (self : Run) (t : Turn) : Decidable (Unsplit self t) :=
  inferInstanceAs (Decidable (∀ runner ∈ self.runner, t.sessionId ≠ [] →
    (openTurn runner t).toOption.isSome = true →
      Together calls (transcript runner t.sessionId) (positions runner t)))

/-! ## Roles -/

theorem mem_calls {m : Message} {id : Bytes} :
    id ∈ calls m ↔ m.role = .assistant ∧ id ∈ toolUses m := by
  rw [calls]
  split <;> simp [*]

theorem calls_of_user {m : Message} (h : m.role = .user) : calls m = [] := by
  rw [calls, h]
  rfl

/-- Where results are in user messages, the roles need no more attention. -/
theorem pairedMessages_iff {messages : List Message}
    (hroles : ∀ m ∈ messages, toolResults m ≠ [] → m.role = .user) :
    PairedMessages messages ↔ Paired calls toolResults messages := by
  have huser {i : ℕ} {m : Message} {id : Bytes} (hi : messages[i]? = some m)
      (hid : id ∈ toolResults m) : m.role = .user :=
    hroles m (List.mem_of_getElem? hi) (List.ne_nil_of_mem hid)
  constructor
  · intro h
    refine ⟨fun i m id hi hid => ?_, fun i m id hi hid => ?_⟩
    · obtain ⟨-, j, before, rfl, hj, hrole, huse⟩ := h.results i m id hi hid
      exact ⟨j, before, rfl, hj, mem_calls.mpr ⟨hrole, huse⟩⟩
    · obtain ⟨hrole, huse⟩ := mem_calls.mp hid
      obtain ⟨next, hnext, -, hcount⟩ := h.uses i m id hi hrole huse
      exact ⟨next, hnext, hcount⟩
  · intro h
    refine ⟨fun i m id hi hid => ⟨huser hi hid, ?_⟩, fun i m id hi hrole huse => ?_⟩
    · obtain ⟨j, before, rfl, hj, hcall⟩ := h.closed i m id hi hid
      exact ⟨j, before, rfl, hj, mem_calls.mp hcall⟩
    · obtain ⟨next, hnext, hcount⟩ := h.opened i m id hi (mem_calls.mpr ⟨hrole, huse⟩)
      have hmem : id ∈ toolResults next := List.count_pos_iff.mp (hcount ▸ Nat.one_pos)
      exact ⟨next, hnext, huser hnext hmem, hcount⟩

/-! ## What is ingested -/

/-- A runner that has only ingested: no marker, and ids that the counter has given. -/
structure Plain (runner : LiveAgentRunner) : Prop where
  unmarked : runner.contextEngine.markers.items = []
  numbered : ∀ m ∈ runner.contextEngine.messages,
    ∃ k < runner.counter.toNat, m.messageId = Context.messageId k

theorem Plain.init : Plain {} := ⟨rfl, by simp⟩

theorem Plain.history {self : LiveAgentRunner} (h : Plain self) (sessionId : Bytes) :
    self.contextEngine.history sessionId =
      self.contextEngine.messages.filter fun m => m.sessionId == sessionId := by
  have hvisible : self.contextEngine.isVisible sessionId = fun m => m.sessionId == sessionId := by
    funext m
    rw [Context.DefaultEngine.isVisible, Context.MarkerLog.coversSession, h.unmarked]
    exact Bool.and_true _
  rw [Context.DefaultEngine.history, hvisible]

/-- The next id is new. -/
theorem Plain.fresh {self : LiveAgentRunner} (h : Plain self) :
    ∀ m ∈ self.contextEngine.messages, m.messageId ≠ Context.messageId self.counter.toNat := by
  intro m hm heq
  obtain ⟨k, hk, hid⟩ := h.numbered m hm
  exact absurd (Context.Archive.messageId_injective (hid.symm.trans heq)) (Nat.ne_of_lt hk)

/-- **What is ingested is the last message of its session**, and no other session changes. -/
theorem Plain.ingest {self self' : LiveAgentRunner} (h : Plain self) {sessionId content : Bytes}
    {role : Context.Role} {blocks : Option (List ContentBlock)}
    (hcall : self.call (.ingest sessionId role content blocks false) = .ok self') :
    Plain self' ∧ ∃ m : StoredMsg, m.content = content ∧
      messageOfStored m = messageFrom role content blocks ∧
      ∀ s, self'.contextEngine.history s =
        self.contextEngine.history s ++ if s = sessionId then [m] else [] := by
  obtain ⟨hmessages, hmarkers, hcounter⟩ := LiveAgentRunner.call_ingest h.fresh hcall
  have hplain : Plain self' := by
    refine ⟨by rw [hmarkers, h.unmarked], ?_⟩
    rw [hmessages, hcounter]
    refine List.forall_mem_append.mpr ⟨fun m hm => ?_, ?_⟩
    · obtain ⟨k, hk, hid⟩ := h.numbered m hm
      exact ⟨k, Nat.lt_succ_of_lt hk, hid⟩
    · exact List.forall_mem_singleton.mpr ⟨self.counter.toNat, Nat.lt_succ_self _, rfl⟩
  refine ⟨hplain, ⟨sessionId, Context.messageId self.counter.toNat, role, content, blocks, false⟩,
    rfl, rfl, fun s => ?_⟩
  rw [hplain.history, h.history, hmessages, List.filter_append, List.filter_singleton]
  congr 1
  by_cases hs : s = sessionId
  · simp [hs]
  · rw [if_neg hs, beq_false_of_ne (Ne.symm hs)]
    rfl

theorem Plain.transcript_ingest {self self' : LiveAgentRunner} (h : Plain self)
    {sessionId content : Bytes} {role : Context.Role} {blocks : Option (List ContentBlock)}
    (hcall : self.call (.ingest sessionId role content blocks false) = .ok self') (s : Bytes) :
    transcript self' s =
      transcript self s ++ if s = sessionId then [messageFrom role content blocks] else [] := by
  obtain ⟨-, m, -, hm, hhistory⟩ := h.ingest hcall
  rw [transcript, hhistory, List.map_append, transcript, ← hm]
  split <;> rfl

/-! ## A round -/

/-- The block is a result of the call. -/
def Answers (tc : ToolCall) (block : ContentBlock) : Prop :=
  ∃ content isError, block = .toolResult tc.id content isError

/-- The messages that the engine has for results. -/
def resultMessages (blocks : List ContentBlock) : List Message :=
  blocks.map fun block => { role := .user, content := [block] }

/-- What the tools of some calls have added. -/
structure Ran (sessionId : Bytes) (d d' : Dispatch) (tcs : List ToolCall)
    (blocks : List ContentBlock) : Prop where
  plain : Plain d'.runner
  answers : List.Forall₂ Answers tcs blocks
  resultBlocks : d'.resultBlocks = d.resultBlocks ++ blocks
  transcript : ∀ s, transcript d'.runner s =
    transcript d.runner s ++ if s = sessionId then resultMessages blocks else []

theorem push_ran {sessionId content : Bytes} {d e d' : Dispatch} {tc : ToolCall} {isError : Bool}
    (h : Plain d.runner) (hpush : e.push sessionId tc content isError = .ok d')
    (hrunner : e.runner = d.runner) (hblocks : e.resultBlocks = d.resultBlocks) :
    ∃ block, Ran sessionId d d' [tc] [block] := by
  obtain ⟨runner, hcall, hd⟩ := Outcome.bind_eq_ok.mp hpush
  obtain rfl := Outcome.ok.inj hd
  rw [hrunner] at hcall
  exact ⟨.toolResult tc.id content isError, (h.ingest hcall).1,
    List.Forall₂.cons ⟨content, isError, rfl⟩ List.Forall₂.nil, congrArg (· ++ _) hblocks,
    h.transcript_ingest hcall⟩

/-- Whether or not the call is dispatched, it is answered. -/
theorem runTool_ran {sessionId : Bytes} {tools : ℕ → ToolRun} {d d' : Dispatch}
    {call : ToolCall × ℕ} (h : Plain d.runner) (hrun : runTool sessionId tools d call = .ok d') :
    ∃ block, Ran sessionId d d' [call.1] [block] := by
  rw [runTool] at hrun
  split at hrun
  · exact push_ran h hrun rfl rfl
  · exact push_ran h hrun rfl rfl

theorem Ran.trans {sessionId : Bytes} {d d₁ d₂ : Dispatch} {tcs tcs' : List ToolCall}
    {blocks blocks' : List ContentBlock} (h : Ran sessionId d d₁ tcs blocks)
    (h' : Ran sessionId d₁ d₂ tcs' blocks') :
    Ran sessionId d d₂ (tcs ++ tcs') (blocks ++ blocks') where
  plain := h'.plain
  answers := List.rel_append h.answers h'.answers
  resultBlocks := by rw [h'.resultBlocks, h.resultBlocks, List.append_assoc]
  transcript := by
    intro s
    rw [h'.transcript, h.transcript, List.append_assoc]
    split
    · rw [resultMessages, resultMessages, resultMessages, List.map_append]
    · rfl

/-- Every call of a round is answered, in order. -/
theorem foldlM_runTool_ran {sessionId : Bytes} {tools : ℕ → ToolRun} {d d' : Dispatch}
    {calls : List (ToolCall × ℕ)} (h : Plain d.runner)
    (hrun : calls.foldlM (runTool sessionId tools) d = .ok d') :
    ∃ blocks, Ran sessionId d d' (calls.map Prod.fst) blocks := by
  induction calls generalizing d with
  | nil =>
    obtain rfl := Outcome.ok.inj hrun
    exact ⟨[], h, List.Forall₂.nil, (List.append_nil _).symm, fun s => by simp [resultMessages]⟩
  | cons call calls ih =>
    rw [List.foldlM_cons] at hrun
    obtain ⟨d₁, hfirst, hrest⟩ := Outcome.bind_eq_ok.mp hrun
    obtain ⟨block, hran⟩ := runTool_ran h hfirst
    obtain ⟨blocks, hran'⟩ := ih hran.plain hrest
    exact ⟨block :: blocks, hran.trans hran'⟩

/-- The messages that the engine has for a round. -/
def roundMessages (text : Bytes) (tcs : List ToolCall) (blocks : List ContentBlock) :
    List Message :=
  if 0 < text.length ∨ 0 < tcs.length then
    { role := .assistant, content := assistantBlocks text tcs } :: resultMessages blocks
  else []

/-- What a round has added to the session, and what comes of its calls. -/
theorem playRound_spec {sessionId text : Bytes} {tools : ℕ → ToolRun} {tcs : List ToolCall}
    {cancelFlag : Bool} {self : LiveAgentRunner} {d : Dispatch} (h : Plain self)
    (hplay : playRound sessionId tools text tcs cancelFlag self = .ok d) :
    Plain d.runner ∧ List.Forall₂ Answers tcs d.resultBlocks ∧
      ∀ s, transcript d.runner s = transcript self s ++
        if s = sessionId then roundMessages text tcs d.resultBlocks else [] := by
  obtain ⟨runner, hrecord, hrun⟩ := Outcome.bind_eq_ok.mp hplay
  rw [record] at hrecord
  split at hrecord
  · rename_i hsaid
    have hran := foldlM_runTool_ran (h.ingest hrecord).1 hrun
    rw [List.zipIdx_map_fst] at hran
    obtain ⟨blocks, hran⟩ := hran
    obtain rfl : d.resultBlocks = blocks := hran.resultBlocks
    refine ⟨hran.plain, hran.answers, fun s => ?_⟩
    rw [hran.transcript, h.transcript_ingest hrecord, roundMessages, if_pos hsaid]
    split
    · rw [List.append_assoc]
      rfl
    · rw [List.append_nil]
  · rename_i hsilent
    obtain rfl := Outcome.ok.inj hrecord
    obtain rfl : tcs = [] := List.eq_nil_of_length_eq_zero (by omega)
    obtain rfl := Outcome.ok.inj hrun
    refine ⟨h, List.Forall₂.nil, fun s => ?_⟩
    rw [roundMessages, if_neg hsilent]
    simp

/-! ## The calls and the results of a round -/

section

variable {text : Bytes} {tcs : List ToolCall} {blocks : List ContentBlock}

theorem calls_assistant (text : Bytes) (tcs : List ToolCall) :
    calls { role := .assistant, content := assistantBlocks text tcs } = tcs.map (·.id) := by
  rw [calls, if_pos rfl, toolUses, assistantBlocks, List.filterMap_append, List.filterMap_map]
  split <;> simp

theorem toolResults_assistant (text : Bytes) (tcs : List ToolCall) :
    toolResults { role := .assistant, content := assistantBlocks text tcs } = [] := by
  rw [toolResults, assistantBlocks, List.filterMap_append, List.filterMap_map]
  split <;> simp

theorem toolResults_answers (h : List.Forall₂ Answers tcs blocks) (role : Agent.Role) :
    toolResults { role, content := blocks } = tcs.map (·.id) := by
  induction h with
  | nil => rfl
  | cons hanswers _ ih =>
    obtain ⟨content, isError, rfl⟩ := hanswers
    exact congrArg (_ :: ·) ih

theorem map_toolResults (h : List.Forall₂ Answers tcs blocks) :
    (resultMessages blocks).map toolResults = (tcs.map (·.id)).map ([·]) := by
  induction h with
  | nil => rfl
  | cons hanswers _ ih =>
    obtain ⟨content, isError, rfl⟩ := hanswers
    exact congrArg (_ :: ·) ih

theorem calls_resultMessages {m : Message} (hm : m ∈ resultMessages blocks) : calls m = [] := by
  obtain ⟨block, -, rfl⟩ := List.mem_map.mp hm
  exact calls_of_user rfl

theorem roles_append_round {messages : List Message}
    (hroles : ∀ m ∈ messages, toolResults m ≠ [] → m.role = .user) :
    ∀ m ∈ messages ++ [{ role := .assistant, content := assistantBlocks text tcs },
      { role := .user, content := blocks }], toolResults m ≠ [] → m.role = .user := by
  refine List.forall_mem_append.mpr ⟨hroles, List.forall_mem_cons.mpr ⟨fun hne => ?_, ?_⟩⟩
  · exact absurd (toolResults_assistant text tcs) hne
  · exact List.forall_mem_singleton.mpr fun _ => rfl

/-- The messages of a round that the loop appends are paired. -/
theorem PairedMessages.append_round {messages : List Message} (h : PairedMessages messages)
    (hroles : ∀ m ∈ messages, toolResults m ≠ [] → m.role = .user)
    (hanswers : List.Forall₂ Answers tcs blocks) (hnodup : (tcs.map (·.id)).Nodup) :
    PairedMessages (messages ++ [{ role := .assistant, content := assistantBlocks text tcs },
      { role := .user, content := blocks }]) := by
  rw [pairedMessages_iff hroles] at h
  rw [pairedMessages_iff (roles_append_round hroles)]
  refine h.append_pair (toolResults_assistant text tcs) (calls_of_user rfl) ?_ ?_
  · rw [toolResults_answers hanswers, calls_assistant]
  · rwa [calls_assistant]

end

/-! ## A turn -/

/-- A runner whose sessions are rounds, each result in a message of the user. -/
structure Regular (runner : LiveAgentRunner) : Prop extends Plain runner where
  rounds : ∀ s, Rounds calls toolResults (transcript runner s)
  roles : ∀ s, ∀ m ∈ transcript runner s, toolResults m ≠ [] → m.role = .user

theorem Regular.init : Regular {} where
  toPlain := Plain.init
  rounds := fun _ => Rounds.nil
  roles := fun _ _ hm => absurd hm List.not_mem_nil

/-- The ids that a session has called. -/
def called (self : LiveAgentRunner) (sessionId : Bytes) : List Bytes :=
  (transcript self sessionId).flatMap calls

theorem flatMap_calls_roundMessages (text : Bytes) (tcs : List ToolCall)
    (blocks : List ContentBlock) :
    (roundMessages text tcs blocks).flatMap calls = tcs.map (·.id) := by
  rw [roundMessages]
  split
  · have hresults : (resultMessages blocks).flatMap calls = [] :=
      List.flatMap_eq_nil_iff.mpr fun _ => calls_resultMessages
    rw [List.flatMap_cons, calls_assistant, hresults, List.append_nil]
  · rename_i hsilent
    obtain rfl : tcs = [] := List.eq_nil_of_length_eq_zero (by omega)
    rfl

theorem Regular.playRound {sessionId text : Bytes} {tools : ℕ → ToolRun} {tcs : List ToolCall}
    {cancelFlag : Bool} {self : LiveAgentRunner} {d : Dispatch} (h : Regular self)
    (hplay : playRound sessionId tools text tcs cancelFlag self = .ok d) :
    Regular d.runner ∧
      ∀ s, called d.runner s = called self s ++ if s = sessionId then tcs.map (·.id) else [] := by
  obtain ⟨hplain, hanswers, htranscript⟩ := playRound_spec h.toPlain hplay
  refine ⟨⟨hplain, fun s => ?_, fun s => ?_⟩, fun s => ?_⟩
  · rw [htranscript]
    split
    · rw [roundMessages]
      split
      · refine (h.rounds s).round (toolResults_assistant text tcs)
          (fun _ => calls_resultMessages) ?_
        rw [map_toolResults hanswers, calls_assistant]
      · rw [List.append_nil]
        exact h.rounds s
    · rw [List.append_nil]
      exact h.rounds s
  · rw [htranscript]
    refine List.forall_mem_append.mpr ⟨h.roles s, fun m hm hne => ?_⟩
    split at hm
    · rw [roundMessages] at hm
      split at hm
      · rcases List.mem_cons.mp hm with rfl | hm
        · exact absurd (toolResults_assistant text tcs) hne
        · obtain ⟨block, -, rfl⟩ := List.mem_map.mp hm
          rfl
      · cases hm
    · cases hm
  · rw [called, htranscript, List.flatMap_append, called]
    split
    · rw [flatMap_calls_roundMessages]
    · rfl

/-- **The loop asks nothing unpaired of its own.** -/
theorem paired_dispatchLoop_iff {sessionId : Bytes} {tools : ℕ → ℕ → ToolRun} {round : ℕ}
    {replies : List ChatResponse} {cancelFlag : Bool} {self : LiveAgentRunner}
    {messages : List Message} (h : Plain self)
    (hids : (replies.flatMap fun resp => resp.toolCalls.map (·.id)).Nodup)
    (hroles : ∀ m ∈ messages, toolResults m ≠ [] → m.role = .user) :
    (∀ asked ∈ (dispatchLoop sessionId tools round replies cancelFlag self messages).1,
      PairedMessages asked) ↔ PairedMessages messages := by
  induction replies generalizing round cancelFlag self messages with
  | nil => simp [dispatchLoop]
  | cons resp replies ih =>
    rw [List.flatMap_cons, List.nodup_append'] at hids
    rw [dispatchLoop]
    split
    · simp
    rename_i d hplay
    obtain ⟨hplain, hanswers, -⟩ := playRound_spec h (Outcome.toOption_eq_some.mp hplay)
    split
    · simp
    rw [List.forall_mem_cons, ih hplain hids.2.1 (roles_append_round hroles)]
    exact and_iff_left_of_imp fun hp => hp.append_round hroles hanswers hids.1

/-- What the loop leaves of the runner: rounds, and calls from the answers. -/
theorem Regular.dispatchLoop {sessionId : Bytes} {tools : ℕ → ℕ → ToolRun} {round : ℕ}
    {replies : List ChatResponse} {cancelFlag : Bool} {self self' : LiveAgentRunner}
    {messages : List Message} (h : Regular self)
    (hafter :
      (dispatchLoop sessionId tools round replies cancelFlag self messages).2 = some self') :
    Regular self' ∧ ∃ ids, ids.Sublist (replies.flatMap fun resp => resp.toolCalls.map (·.id)) ∧
      ∀ s, called self' s = called self s ++ if s = sessionId then ids else [] := by
  induction replies generalizing round cancelFlag self messages with
  | nil =>
    obtain rfl := Option.some.inj hafter
    exact ⟨h, [], List.Sublist.refl [], fun s => by simp⟩
  | cons resp replies ih =>
    rw [Cli.dispatchLoop] at hafter
    split at hafter
    · cases hafter
    rename_i d hplay
    obtain ⟨hregular, hcalled⟩ := h.playRound (Outcome.toOption_eq_some.mp hplay)
    split at hafter
    · obtain rfl := Option.some.inj hafter
      exact ⟨hregular, _, List.sublist_append_left _ _, hcalled⟩
    · obtain ⟨hregular', ids, hids, hcalled'⟩ := ih hregular hafter
      refine ⟨hregular', resp.toolCalls.map (·.id) ++ ids, hids.append_left _, fun s => ?_⟩
      rw [hcalled', hcalled, List.append_assoc]
      split <;> rfl

theorem map_messageOfSection {kept : List StoredMsg} {sections : List Section}
    (h : List.Forall₂ (fun m s => Context.DefaultEngine.historySection m = .ok s) kept sections) :
    sections.map messageOfSection = kept.map messageOfStored := by
  induction h with
  | nil => rfl
  | cons hsection _ ih =>
    obtain ⟨hrole, hcontent, hblocks, -⟩ := Context.historySection_fields hsection
    rw [List.map_cons, List.map_cons, ih, messageOfSection, messageOfStored, hrole, hcontent,
      hblocks]

/-- The input adds a message that neither calls nor answers. -/
theorem Regular.ingest_input {self runner : LiveAgentRunner} {t : Turn} (h : Regular self)
    (hcall : self.call (.ingest t.sessionId .user t.input none false) = .ok runner) :
    Regular runner ∧ ∀ s, called runner s = called self s := by
  have htranscript := h.toPlain.transcript_ingest hcall
  have hcalls : calls (messageFrom .user t.input none) = [] := calls_of_user rfl
  refine ⟨⟨(h.toPlain.ingest hcall).1, fun s => ?_, fun s => ?_⟩, fun s => ?_⟩
  · rw [htranscript]
    split
    · exact (h.rounds s).plain hcalls rfl
    · rw [List.append_nil]
      exact h.rounds s
  · rw [htranscript]
    refine List.forall_mem_append.mpr ⟨h.roles s, fun m hm hne => ?_⟩
    split at hm
    · obtain rfl := List.mem_singleton.mp hm
      rfl
    · cases hm
  · rw [called, htranscript, List.flatMap_append, called]
    split
    · rw [List.flatMap_singleton, hcalls, List.append_nil]
    · exact List.append_nil _

/-- The list that a turn starts from is what stands at these positions of the session. -/
theorem messagesOf_assembled {self runner : LiveAgentRunner} {t : Turn} {assembled : FitResult}
    (h : Plain self)
    (hcall : self.call (.ingest t.sessionId .user t.input none false) = .ok runner)
    (hassemble : runner.contextEngine.assemble t.sessionId t.input t.tokenBudget = .ok assembled) :
    (positions self t).map ((transcript runner t.sessionId)[·]?) =
      (messagesOf assembled).map some := by
  obtain ⟨hplain, m, hcontent, -, hhistory⟩ := h.ingest hcall
  have hmarkers : runner.contextEngine.markersOf t.sessionId = [] := by
    rw [Context.DefaultEngine.markersOf, hplain.unmarked]
    rfl
  obtain ⟨kept, hkept, hsections⟩ := Context.assemble_replayed hmarkers hassemble
  have hsizes : (runner.contextEngine.history t.sessionId).map (fun m => tokensOf m.content) =
      ((self.contextEngine.history t.sessionId).map fun m => tokensOf m.content) ++
        [tokensOf t.input] := by
    rw [hhistory, if_pos rfl, List.map_append, List.map_singleton, hcontent]
  rw [hsizes, ← positions] at hkept
  have hmessages := congrArg (List.map (Option.map messageOfStored)) hkept
  rw [messagesOf, map_messageOfSection hsections, transcript]
  simpa [Function.comp_def] using hmessages

/-- With one call at a time, a session that comes back whole and in order is not split. -/
theorem together_of_room {self : LiveAgentRunner} {t : Turn} (h : Regular self)
    (hone : ∀ m ∈ transcript self t.sessionId, (calls m).length ≤ 1)
    (horder : Context.KeepsOrder ((self.contextEngine.history t.sessionId).length + 1) 0)
    (hroom : ((self.contextEngine.history t.sessionId).map fun m => tokensOf m.content).sum +
      2 * tokensOf t.input ≤ t.tokenBudget.toNat) :
    Together calls (transcript self t.sessionId) (positions self t) := by
  rw [positions, Context.replayed_eq_range]
  · refine (h.rounds t.sessionId).together_range hone ?_
    rw [transcript, List.length_map, List.length_append, List.length_map]
    exact Nat.le_add_right _ _
  · rwa [List.length_append, List.length_map]
  · rw [List.sum_append, List.sum_singleton]
    omega

/-- **What a turn starts from**: its list is paired exactly if what comes back of the session leaves
no call without its result. -/
theorem openTurn_spec {self runner : LiveAgentRunner} {t : Turn} {assembled : FitResult}
    (h : Regular self) (hnodup : (called self t.sessionId).Nodup)
    (hopen : openTurn self t = .ok (runner, assembled)) :
    Regular runner ∧ (∀ s, called runner s = called self s) ∧
      (∀ m ∈ messagesOf assembled, toolResults m ≠ [] → m.role = .user) ∧
      (PairedMessages (messagesOf assembled) ↔
        Together calls (transcript self t.sessionId) (positions self t)) := by
  obtain ⟨runner', hcall, hopen⟩ := Outcome.bind_eq_ok.mp hopen
  obtain ⟨assembled', hassemble, hopen⟩ := Outcome.bind_eq_ok.mp hopen
  obtain ⟨hrunner, hassembled⟩ := Prod.mk.inj (Outcome.ok.inj hopen)
  subst hrunner hassembled
  obtain ⟨hregular, hcalled⟩ := h.ingest_input hcall
  have hselection := messagesOf_assembled h.toPlain hcall hassemble
  have hroles : ∀ m ∈ messagesOf assembled', toolResults m ≠ [] → m.role = .user := by
    intro m hm
    obtain ⟨p, hp⟩ := List.mem_iff_getElem?.mp hm
    obtain ⟨k, -, hk⟩ := (Pairing.getElem?_selection hselection).mp hp
    exact hregular.roles t.sessionId m (List.mem_of_getElem? hk)
  refine ⟨hregular, hcalled, hroles, ?_⟩
  rw [pairedMessages_iff hroles, Pairing.paired_iff_together (hregular.rounds t.sessionId)
    (by rw [← called, hcalled]; exact hnodup) (Context.nodup_replayed _ _ _) hselection,
    h.toPlain.transcript_ingest hcall, if_pos rfl]
  exact Pairing.together_append_iff (calls_of_user rfl)

theorem paired_liveRun_iff {self : LiveAgentRunner} {t : Turn} (h : Regular self)
    (hids : (called self t.sessionId ++ t.callIds).Nodup) :
    (∀ asked ∈ (liveRun self t).1, PairedMessages asked) ↔
      (t.sessionId ≠ [] → (openTurn self t).toOption.isSome = true →
        Together calls (transcript self t.sessionId) (positions self t)) := by
  rw [List.nodup_append'] at hids
  rw [liveRun]
  split
  · rename_i hnone
    simp [hnone]
  rename_i hsession
  split
  · rename_i hfail
    simp [hfail]
  rename_i runner assembled hopen
  obtain ⟨hregular, -, hroles, hiff⟩ :=
    openTurn_spec h hids.1 (Outcome.toOption_eq_some.mp hopen)
  rw [paired_dispatchLoop_iff hregular.toPlain hids.2.1 hroles, hiff]
  simp [hsession, hopen]

theorem Regular.liveRun {self self' : LiveAgentRunner} {t : Turn} (h : Regular self)
    (hids : (called self t.sessionId).Nodup) (hafter : (liveRun self t).2 = some self') :
    Regular self' ∧ ∃ ids, ids.Sublist t.callIds ∧
      ∀ s, called self' s = called self s ++ if s = t.sessionId then ids else [] := by
  rw [Cli.liveRun] at hafter
  split at hafter
  · obtain rfl := Option.some.inj hafter
    exact ⟨h, [], List.nil_sublist _, fun s => by simp⟩
  split at hafter
  · cases hafter
  rename_i runner assembled hopen
  obtain ⟨hregular, hcalled, -, -⟩ := openTurn_spec h hids (Outcome.toOption_eq_some.mp hopen)
  obtain ⟨hregular', ids, hsub, hcalled'⟩ := hregular.dispatchLoop hafter
  exact ⟨hregular', ids, hsub, fun s => by rw [hcalled', hcalled]⟩

/-! ## A run -/

/-- The ids that the turns of a session call. -/
def sessionIds (turns : List Turn) (sessionId : Bytes) : List Bytes :=
  (turns.filter fun t => t.sessionId = sessionId).flatMap Turn.callIds

theorem sessionIds_cons (t : Turn) (turns : List Turn) (s : Bytes) :
    sessionIds (t :: turns) s =
      (if s = t.sessionId then t.callIds else []) ++ sessionIds turns s := by
  rw [sessionIds, List.filter_cons, sessionIds]
  by_cases hs : s = t.sessionId
  · simp [hs]
  · simp [hs, Ne.symm hs]

section

variable {self : LiveAgentRunner} {t : Turn} {turns : List Turn}

theorem nodup_turn (hids : ∀ s, (called self s ++ sessionIds (t :: turns) s).Nodup) :
    (called self t.sessionId ++ t.callIds).Nodup := by
  have hs := hids t.sessionId
  rw [sessionIds_cons, if_pos rfl, ← List.append_assoc] at hs
  exact (List.nodup_append'.mp hs).1

/-- After a turn, what has been called is still apart from what is left to be called. -/
theorem Regular.liveRun_nodup {self' : LiveAgentRunner} (h : Regular self)
    (hids : ∀ s, (called self s ++ sessionIds (t :: turns) s).Nodup)
    (hafter : (Cli.liveRun self t).2 = some self') :
    Regular self' ∧ ∀ s, (called self' s ++ sessionIds turns s).Nodup := by
  obtain ⟨hregular, ids, hsub, hcalled⟩ :=
    h.liveRun (List.nodup_append'.mp (nodup_turn hids)).1 hafter
  refine ⟨hregular, fun s => ?_⟩
  have hs := hids s
  rw [sessionIds_cons] at hs
  rw [hcalled, List.append_assoc]
  refine hs.sublist (List.Sublist.append_left (List.Sublist.append_right ?_ _) _)
  split
  · exact hsub
  · exact List.Sublist.refl []

end

theorem paired_run_iff (run : Run) (turns : List Turn)
    (hregular : ∀ runner ∈ run.runner, Regular runner)
    (hids : ∀ runner ∈ run.runner, ∀ s, (called runner s ++ sessionIds turns s).Nodup) :
    (∀ messages ∈ (turns.foldl Run.serve run).asked, PairedMessages messages) ↔
      (∀ messages ∈ run.asked, PairedMessages messages) ∧
        StepMachine.Along (fun run t => some (run.serve t)) Unsplit run turns := by
  induction turns generalizing run with
  | nil => simp [StepMachine.Along]
  | cons t turns ih =>
    rw [List.foldl_cons, StepMachine.along_cons rfl, ← and_assoc]
    cases hrunner : run.runner with
    | none =>
      have hserve : run.serve t = run := by rw [Run.serve, hrunner]
      rw [hserve, ih run hregular (by simp [hrunner])]
      exact and_congr_left fun _ => (and_iff_left (by simp [Unsplit, hrunner])).symm
    | some runner =>
      have hself := hregular runner hrunner
      have hnodup := hids runner hrunner
      have hserve : run.serve t =
          { runner := (liveRun runner t).2, asked := run.asked ++ (liveRun runner t).1 } := by
        rw [Run.serve, hrunner]
      have hunsplit : Unsplit run t ↔ ∀ asked ∈ (liveRun runner t).1, PairedMessages asked := by
        rw [paired_liveRun_iff hself (nodup_turn hnodup), Unsplit, hrunner]
        simp
      rw [hunsplit, hserve, ih, List.forall_mem_append]
      · exact fun runner' hafter => (hself.liveRun_nodup hnodup hafter).1
      · exact fun runner' hafter => (hself.liveRun_nodup hnodup hafter).2

/-- **The lists of a run are paired exactly if its turns are all unsplit**, as long as the calls of
a session have different ids. -/
theorem paired_iff (turns : List Turn) (hids : ∀ s, (sessionIds turns s).Nodup) :
    (∀ messages ∈ (turns.foldl Run.serve {}).asked, PairedMessages messages) ↔
      StepMachine.Along (fun run t => some (run.serve t)) Unsplit {} turns := by
  rw [paired_run_iff {} turns]
  · exact and_iff_right fun _ hm => absurd hm List.not_mem_nil
  · rintro runner hrunner
    obtain rfl := Option.some.inj hrunner
    exact Regular.init
  · rintro runner hrunner s
    obtain rfl := Option.some.inj hrunner
    exact hids s

/-! ## Two turns -/

/-- A turn with one round of these calls. -/
def withCalls (ids : List Bytes) : Turn :=
  { sessionId := ascii "s", input := ascii "read", tokenBudget := 1000
    replies := [
      { toolCalls := ids.map fun id =>
          { id, name := ascii "read_file", argumentsJson := ascii "{}" }
        stopReason := .toolUse },
      { text := some (ascii "done") }] }

/-- A turn whose call of the provider fails. -/
def goOn : Turn := { sessionId := ascii "s", input := ascii "go on", tokenBudget := 1000 }

theorem nodup_sessionIds {ids : List Bytes} (h : ids.Nodup) (s : Bytes) :
    (sessionIds [withCalls ids, goOn] s).Nodup := by
  have hcalls : (withCalls ids).callIds = ids := by
    simp [Turn.callIds, withCalls, Function.comp_def]
  have hnone : (if s = goOn.sessionId then goOn.callIds else []) = [] := ite_self _
  rw [sessionIds_cons, sessionIds_cons, hcalls, hnone]
  split
  · exact (List.append_nil ids).symm ▸ h
  · exact List.nodup_nil

/-- A round of one call comes back as it was. -/
theorem paired_oneCall :
    ([withCalls [ascii "a"], goOn].foldl Run.serve {}).asked.length = 3 ∧
      ∀ messages ∈ ([withCalls [ascii "a"], goOn].foldl Run.serve {}).asked,
        PairedMessages messages := by
  have hids := nodup_sessionIds (List.nodup_singleton (ascii "a"))
  refine ⟨by decide +kernel, (paired_iff [withCalls [ascii "a"], goOn] hids).mpr ?_⟩
  exact (StepMachine.along_cons rfl).mpr ⟨by decide,
    (StepMachine.along_cons rfl).mpr ⟨by decide +kernel, trivial⟩⟩

/-- **A round of two calls comes back in pieces**: the results are two messages, and the message
behind the calls has the first one only. -/
theorem not_paired_twoCalls :
    (∀ s, (sessionIds [withCalls [ascii "a", ascii "b"], goOn] s).Nodup) ∧
      ¬ ∀ messages ∈ ([withCalls [ascii "a", ascii "b"], goOn].foldl Run.serve {}).asked,
        PairedMessages messages := by
  refine ⟨nodup_sessionIds (by decide), fun h => ?_⟩
  have hlast : ∃ messages ∈ ([withCalls [ascii "a", ascii "b"], goOn].foldl Run.serve {}).asked,
      messages.length = 6 ∧ (messages.map calls)[1]? = some [ascii "a", ascii "b"] ∧
        (messages.map toolResults)[2]? = some [ascii "a"] := by
    decide +kernel
  obtain ⟨messages, hmem, -, hcalls, hresults⟩ := hlast
  rw [List.getElem?_map] at hcalls hresults
  obtain ⟨m, hm, hcalls⟩ := Option.map_eq_some_iff.mp hcalls
  obtain ⟨next, hnext, hresults⟩ := Option.map_eq_some_iff.mp hresults
  have hcall : ascii "b" ∈ calls m := by
    rw [hcalls]
    decide
  obtain ⟨next', hnext', -, hcount⟩ :=
    (h messages hmem).uses 1 m (ascii "b") hm (mem_calls.mp hcall).1 (mem_calls.mp hcall).2
  obtain rfl := Option.some.inj (hnext.symm.trans hnext')
  rw [hresults] at hcount
  exact absurd hcount (by decide)

end Cli
end TigerClaw
