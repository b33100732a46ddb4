import TigerClaw.Tui.Line
import TigerClaw.Tui.Mention

/-!
# The chat widget

`Root` keeps the history, the line that each agent is writing to, and the sub-turns that the
mentions in a reply have started.  Worker threads post events to it, which its own thread handles
one after the other, as it does what the user types.

* `handleUserEvent`: an event; it is dropped if its epoch is not the current one.
* `onSubmit`, `escape`: what the user does.
* `scanAndFanOut`, `dispatchSubturn`, `onSubturnDone`: the sub-turns.
* `renderAgentMarkdown`: the pass over the lines of a turn at the end of a reply.

What the threads do that a call starts is not done here: a call returns the contexts of the workers
that it has started.
-/

namespace TigerClaw
namespace Tui

inductive DispatchKind where
  | primary
  | subturn
  | resume_
  deriving DecidableEq

inductive SlotState where
  | inFlight
  | done
  | errored
  | cancelled
  | timedOut
  deriving DecidableEq

/-- `serial` says which worker the slot is for, for statements only. -/
structure SubturnSlot where
  target : Bytes
  mentionIdx : UInt8
  state : SlotState := .inFlight
  reply : Option Bytes := none
  errorReason : Option Bytes := none
  serial : ℕ

/-- What a worker thread knows.  `serial` numbers the workers, and `turn` the turns, for statements
only. -/
structure WorkerCtx where
  sessionId : Bytes
  epoch : UInt64
  dispatchKind : DispatchKind := .primary
  invoker : Option Bytes := none
  mentionOrderIdx : UInt8 := 0
  serial : ℕ
  turn : ℕ
  deriving DecidableEq

/-- `serials` counts the workers, and `turns` the turns, for statements only. -/
structure Root where
  history : List Line := []
  pending : Bool := false
  stopping : Bool := false
  turnStartedMs : ℤ := 0
  currentTurnId : UInt32 := 0
  turnEpoch : UInt64 := 0
  subturnSlots : List SubturnSlot := []
  invokerToResume : Option Bytes := none
  pendingSubturns : ℕ := 0
  autoDispatchCalls : UInt8 := 0
  autoDispatchMaxCalls : UInt8 := 8
  autoDispatchSubturnTimeoutSecs : UInt32 := 0
  sessionId : Bytes := ascii "tiger"
  userName : Bytes := []
  agentNames : List Bytes := []
  pendingAgentLines : List (Bytes × ℕ) := []
  toolOutputEnabled : Bool := true
  askUserPending : Bool := false
  pendingReply : Option Bytes := none
  serials : ℕ := 0
  turns : ℕ := 0

/-- The payload of `ue_done`. -/
structure DonePayload where
  epoch : UInt64
  dispatchKind : DispatchKind
  invoker : Option Bytes
  targetAgent : Bytes
  mentionIdx : UInt8
  output : Bytes
  deriving DecidableEq

inductive UserEvent where
  | chunk (epoch : UInt64) (agent text : Bytes)
  | toolStart (epoch : UInt64) (agent id name argsSummary : Bytes)
  | toolProgress (epoch : UInt64) (agent id chunk : Bytes)
  | toolDone (epoch : UInt64) (agent id name output : Bytes) (isError : Bool)
  | askUser (epoch : UInt64) (question : Bytes)
  | askUserCancel
  | usage (epoch : UInt64) (ctxUsed : UInt64)
  | error (epoch : UInt64) (message : Bytes)
  | done (payload : DonePayload)
  | subturnTimeout (epoch : UInt64) (invoker target : Bytes) (mentionIdx : UInt8)
  deriving DecidableEq

/-- What a slash command does to the widget: it adds system lines, and may switch the tool rows on
or off, or mark the turn as stopping. -/
structure CommandEffect where
  lines : List Bytes := []
  toolOutput : Option Bool := none
  stops : Bool := false

/-- How a call of `dispatchSubturn` fails: before its slot is there, or after; or it succeeds, but
there is no thread for the timeout. -/
inductive DispatchFault where
  | slot
  | worker (errorName : Bytes)
  | watchdog
  deriving DecidableEq

/-! ## Lines -/

namespace Root

def appendLineWithSpeaker (self : Root) (role : Role) (text : Bytes) (speaker : Option Bytes) :
    Root :=
  { self with history := self.history ++ [{ role, text, speaker }] }

def appendLine (self : Root) (role : Role) (text : Bytes) : Root :=
  self.appendLineWithSpeaker role text none

def appendUserLine (self : Root) (text : Bytes) : Root :=
  self.appendLineWithSpeaker .user text (some self.userName)

def knowsAgent (self : Root) (name : Bytes) : Bool := self.agentNames.any (eqlIgnoreCase · name)

def canonicalAgent (self : Root) (name : Bytes) : Option Bytes :=
  self.agentNames.find? (eqlIgnoreCase · name)

/-- Keys that are the same but for case are one key. -/
def getPendingAgentLine (self : Root) (agent : Bytes) : Option ℕ :=
  (self.pendingAgentLines.find? fun entry => eqlIgnoreCase entry.1 agent).map Prod.snd

def clearPendingAgentLine (self : Root) (agent : Bytes) : Root :=
  { self with
    pendingAgentLines := self.pendingAgentLines.filter fun entry => !eqlIgnoreCase entry.1 agent }

def setPendingAgentLine (self : Root) (agent : Bytes) (idx : ℕ) : Root :=
  match self.pendingAgentLines.find? fun entry => eqlIgnoreCase entry.1 agent with
  | some (key, _) =>
    { self with
      pendingAgentLines :=
        (self.pendingAgentLines.filter fun entry => !eqlIgnoreCase entry.1 agent) ++ [(key, idx)] }
  | none =>
    { self with
      pendingAgentLines :=
        self.pendingAgentLines ++ [((self.canonicalAgent agent).getD agent, idx)] }

/-- The last line that satisfies `p`, and its place. -/
def findLast (p : Line → Bool) (history : List Line) : Option ℕ :=
  (history.reverse.findIdx? p).map fun i => history.length - 1 - i

/-- One line changes. -/
def modifyLine (self : Root) (i : ℕ) (f : Line → Line) : Root :=
  { self with history := self.history.modify i f }

/-- The pass of `renderAgentMarkdown` at one line. -/
def renderMarkdown (markdown : Bytes → Option Bytes) (line : Line) : Line :=
  if line.role ≠ .agent ∨ line.styled ∨ line.text = [] then line
  else
    match markdown line.text with
    | none => line
    | some text => if text = [] then line else { line with text, styled := true }

/-- Backwards, up to the last line of the user. -/
def renderAgentMarkdown (self : Root) (markdown : Bytes → Option Bytes) : Root :=
  let turn := self.history.reverse.takeWhile fun line => line.role ≠ .user
  let before := self.history.reverse.dropWhile fun line => line.role ≠ .user
  { self with history := before.reverse ++ (turn.map (renderMarkdown markdown)).reverse }

def rerenderTurnTools (self : Root) (fmt : Format) (turnId : UInt32) : Root :=
  if turnId = 0 then self
  else { self with
    history := self.history.map fun entry =>
      if entry.role = .tool ∧ entry.toolTurnId = turnId then renderToolLine fmt entry else entry }

/-- The glyph of the last row is left out. -/
def markLastToolInTurn (self : Root) (fmt : Format) (turnId : UInt32) : Root :=
  self.rerenderTurnTools fmt turnId

/-- Ctrl-B. -/
def toggleAllToolExpand (self : Root) (fmt : Format) : Root :=
  { self with
    history := self.history.map fun entry =>
      if entry.role = .tool ∧ entry.toolName.isSome then
        renderToolLine fmt { entry with toolExpanded := !entry.toolExpanded }
      else entry }

/-! ## Sub-turns -/

def clearSubturnState (self : Root) : Root :=
  { self with
    subturnSlots := []
    invokerToResume := none
    pendingSubturns := 0
    autoDispatchCalls := 0 }

/-- A new slot, the context of its worker, and whether there is a thread for the timeout.  An error
is given by its name. -/
def dispatchSubturn (self : Root) (fault : Option DispatchFault) (invoker target : Bytes)
    (mentionIdx : UInt8) : Root × Except Bytes (WorkerCtx × Bool) :=
  let targetCanonical := (self.canonicalAgent target).getD target
  if fault = some .slot then (self, .error (ascii "OutOfMemory"))
  else
    let serial := self.serials
    let self := { self with
      subturnSlots := self.subturnSlots ++ [{ target := targetCanonical, mentionIdx, serial }]
      pendingSubturns := self.pendingSubturns + 1
      serials := self.serials + 1 }
    match fault with
    | some (.worker errorName) => (self, .error errorName)
    | _ => (self, .ok ({
        sessionId := targetCanonical, epoch := self.turnEpoch, dispatchKind := .subturn,
        invoker := some invoker, mentionOrderIdx := mentionIdx, serial, turn := self.turns },
        self.autoDispatchSubturnTimeoutSecs ≠ 0 && fault != some .watchdog))

def maybeResume (self : Root) : Root :=
  if self.pendingSubturns ≠ 0 then self
  else if self.invokerToResume = none then self
  else { self with subturnSlots := [], invokerToResume := none }

/-- The slot that a completion or a timeout is for.  The invoker is not looked at. -/
def SlotMatches (target : Bytes) (mentionIdx : UInt8) (slot : SubturnSlot) : Bool :=
  slot.state = .inFlight && slot.mentionIdx == mentionIdx && eqlIgnoreCase slot.target target

def findSubturnSlot (self : Root) (target : Bytes) (mentionIdx : UInt8) : Option ℕ :=
  self.subturnSlots.findIdx? (SlotMatches target mentionIdx)

/-- A slot reaches its end. -/
def settleSlot (self : Root) (i : ℕ) (f : SubturnSlot → SubturnSlot) : Root :=
  { self with
    subturnSlots := self.subturnSlots.modify i f
    pendingSubturns := self.pendingSubturns - 1 }

def appendBudgetHaltLine (self : Root) (found : List Bytes) (dispatched : ℕ) : Root :=
  let head := bufPrint 128
    (ascii "! dispatch budget reached (" ++ Digits.decimal self.autoDispatchCalls.toNat ++
      ascii "/" ++ Digits.decimal self.autoDispatchMaxCalls.toNat ++ ascii "); skipped:")
    (ascii "! dispatch budget reached; skipped:")
  let skipped := match found.drop dispatched with
    | [] => []
    | name :: rest => ascii " @" ++ name ++ rest.flatMap fun name => ascii ", @" ++ name
  self.appendLine .system (head ++ skipped)

/-- The loop of `scanAndFanOut` over the mentions that are dispatched. -/
def fanOut (invoker : Bytes) : List (Bytes × ℕ) → List (Option DispatchFault) → Root →
    Root × List (WorkerCtx × Bool)
  | [], _, self => (self, [])
  | (name, idx) :: rest, faults, self =>
    match self.dispatchSubturn faults.head?.join invoker name (UInt8.ofNat idx) with
    | (self, .error errorName) =>
      let line := bufPrint 128
        (ascii "! subturn dispatch failed for @" ++ name ++ ascii ": " ++ errorName)
        (ascii "! subturn dispatch failed")
      fanOut invoker rest faults.tail (self.appendLine .system line)
    | (self, .ok started) =>
      let (self, more) := fanOut invoker rest faults.tail
        { self with autoDispatchCalls := self.autoDispatchCalls + 1 }
      (self, started :: more)

def scanAndFanOut (self : Root) (faults : List (Option DispatchFault)) (p : DonePayload) :
    Root × List (WorkerCtx × Bool) :=
  if self.agentNames = [] then (self, [])
  else if p.output = [] then (self, [])
  else
    let invoker := p.targetAgent
    let found := Mention.findAll p.output self.agentNames invoker
    if found = [] then (self, [])
    else
      let used := self.autoDispatchCalls.toNat
      let cap := self.autoDispatchMaxCalls.toNat
      -- one call is kept for the resume
      if used + 1 ≥ cap then (self.appendBudgetHaltLine found 0, [])
      else
        let dispatchCount := min found.length (cap - used - 1)
        let (self, started) := fanOut invoker (found.take dispatchCount).zipIdx faults
          { self with invokerToResume := some invoker }
        if dispatchCount < found.length then
          (self.appendBudgetHaltLine found dispatchCount, started)
        else (self, started)

/-- The chatter for the next message of the user is left out. -/
def onSubturnDone (self : Root) (faults : List (Option DispatchFault)) (p : DonePayload) :
    Root × List (WorkerCtx × Bool) :=
  match p.invoker with
  | none => (self, [])
  | some _ =>
    match self.findSubturnSlot p.targetAgent p.mentionIdx with
    | none => (self, [])
    | some i =>
      let self := self.settleSlot i fun slot => { slot with reply := some p.output, state := .done }
      self.maybeResume.scanAndFanOut faults p

/-! ## Events -/

/-- Whether the line is the open row of a tool call. -/
def isToolRow (id : Bytes) (line : Line) : Bool := line.role = .tool && line.toolId = some id

def onChunk (self : Root) (agent text : Bytes) : Root :=
  let (self, idx) := match self.getPendingAgentLine agent with
    | some idx => (self, idx)
    | none =>
      let idx := self.history.length
      ((self.appendLineWithSpeaker .agent [] (some agent)).setPendingAgentLine agent idx, idx)
  self.modifyLine idx fun line => { line with text := line.text ++ text }

def onToolStart (self : Root) (fmt : Format) (now : ℤ) (agent id name argsSummary : Bytes) :
    Root :=
  let self := self.clearPendingAgentLine agent
  if self.toolOutputEnabled then
    match findLast (isToolRow id) self.history with
    | some i => self.modifyLine i fun entry =>
        renderToolLine fmt
          (if argsSummary ≠ [] then { entry with toolArgs := some argsSummary } else entry)
    | none =>
      let row : Line := {
        role := .tool, text := renderToolHeader name argsSummary, speaker := some agent
        toolId := some id, toolName := some name, toolArgs := some argsSummary
        toolTurnId := self.currentTurnId, toolStartedMs := now }
      { self with history := self.history ++ [row] }.rerenderTurnTools fmt self.currentTurnId
  else self

def onToolProgress (self : Root) (fmt : Format) (id chunk : Bytes) : Root :=
  match findLast (isToolRow id) self.history with
  | some i =>
    let tail := lastNonEmptyLine chunk
    if tail = [] then self
    else self.modifyLine i fun entry =>
      renderToolLine fmt { entry with toolProgressTail := some (tail.take 200) }
  | none => self

def finishTool (fmt : Format) (now : ℤ) (name output : Bytes) (isError : Bool) (entry : Line) :
    Line :=
  let entry := { entry with
    toolSummary := some (summarizeToolOutput output)
    toolFull := some output
    toolStatus := if isError then .err else .ok
    toolName := some (entry.toolName.getD name)
    toolDurationMs :=
      if entry.toolStartedMs ≠ 0 then (now - entry.toolStartedMs).toNat
      else entry.toolDurationMs }
  { renderToolLine fmt entry with toolId := none }

def onToolDone (self : Root) (fmt : Format) (now : ℤ) (agent id name output : Bytes)
    (isError : Bool) : Root :=
  let self := self.clearPendingAgentLine agent
  match findLast (isToolRow id) self.history with
  | some i => self.modifyLine i (finishTool fmt now name output isError)
  | none => self

def onAskUser (self : Root) (question : Bytes) : Root :=
  let line := bufPrint 1024 (ascii "? " ++ question) question
  { self.appendLine .system line with askUserPending := true }

def onAskUserCancel (self : Root) : Root :=
  { self with askUserPending := false, pendingReply := none }

/-- `∙ ` -/
def bullet : Bytes := [0xE2, 0x88, 0x99, 0x20]

def onError (self : Root) (message : Bytes) : Root :=
  let line :=
    if message = ascii "turn cancelled" ∨ message = ascii "Interrupted" ∨
      message = ascii "Cancelled" then bullet ++ ascii "turn cancelled"
    else bufPrint 256 (ascii "! turn failed: " ++ message) (ascii "! turn failed")
  self.appendLine .system line

def onDone (self : Root) (fmt : Format) (markdown : Bytes → Option Bytes)
    (faults : List (Option DispatchFault)) (p : DonePayload) : Root × List (WorkerCtx × Bool) :=
  let (self, started) := match p.dispatchKind with
    | .subturn => self.onSubturnDone faults p
    | .primary | .resume_ => self.scanAndFanOut faults p
  let self := (self.renderAgentMarkdown markdown).markLastToolInTurn fmt self.currentTurnId
  ({ self.clearPendingAgentLine p.targetAgent with
      pending := false, stopping := false, turnStartedMs := 0 }, started)

def onSubturnTimeout (self : Root) (target : Bytes) (mentionIdx : UInt8) : Root :=
  match self.findSubturnSlot target mentionIdx with
  | none => self
  | some i =>
    let self := self.settleSlot i fun slot =>
      { slot with state := .timedOut, errorReason := some (ascii "timeout") }
    let line := bufPrint 128
      (ascii "! @" ++ target ++ ascii " timed out (no reply within " ++
        Digits.decimal self.autoDispatchSubturnTimeoutSecs.toNat ++ ascii "s)")
      (ascii "! subturn timed out")
    (self.appendLine .system line).maybeResume

end Root

/-- The epoch of the payload; the cancel of a question has none. -/
def UserEvent.epoch : UserEvent → Option UInt64
  | .chunk epoch .. | .toolStart epoch .. | .toolProgress epoch .. | .toolDone epoch ..
  | .askUser epoch _ | .usage epoch _ | .error epoch _ | .subturnTimeout epoch .. => some epoch
  | .done payload => some payload.epoch
  | .askUserCancel => none

/-- What the widget takes from elsewhere: the markdown parser, the printing of seconds, and the
slash commands. -/
structure Host extends Format where
  markdown : Bytes → Option Bytes
  command : Root → Bytes → CommandEffect

namespace Root

def dropStaleIfNeeded (self : Root) (ue : UserEvent) : Bool :=
  ue.epoch.any (· ≠ self.turnEpoch)

/-- The handling of an event; what it does to the status bar and the hint is left out. -/
def handleUserEvent (host : Host) (self : Root) (now : ℤ) (faults : List (Option DispatchFault))
    (ue : UserEvent) : Root × List (WorkerCtx × Bool) :=
  if self.dropStaleIfNeeded ue then (self, [])
  else
    match ue with
    | .chunk _ agent text => (self.onChunk agent text, [])
    | .toolStart _ agent id name argsSummary =>
      (self.onToolStart host.toFormat now agent id name argsSummary, [])
    | .toolProgress _ _ id chunk => (self.onToolProgress host.toFormat id chunk, [])
    | .toolDone _ agent id name output isError =>
      (self.onToolDone host.toFormat now agent id name output isError, [])
    | .askUser _ question => (self.onAskUser question, [])
    | .askUserCancel => (self.onAskUserCancel, [])
    | .usage .. => (self, [])
    | .error _ message => (self.onError message, [])
    | .done p => self.onDone host.toFormat host.markdown faults p
    | .subturnTimeout _ _ target mentionIdx => (self.onSubturnTimeout target mentionIdx, [])

/-! ## The user -/

/-- A new turn; the worker may not start. -/
def beginTurnWithEcho (self : Root) (now : ℤ) (spawnError : Option Bytes) (echo : Bytes) :
    Root × Except Bytes WorkerCtx :=
  let self := { self.appendUserLine echo with
    pendingAgentLines := []
    pending := true
    stopping := false
    turnStartedMs := now
    currentTurnId := self.currentTurnId + 1
    turnEpoch := self.turnEpoch + 1
    turns := self.turns + 1 }.clearSubturnState
  match spawnError with
  | some errorName => (self, .error errorName)
  | none =>
    ({ self with serials := self.serials + 1 }, .ok {
      sessionId := self.sessionId, epoch := self.turnEpoch, serial := self.serials,
      turn := self.turns })

def setActiveAgent (self : Root) (name : Bytes) : Root :=
  { self with sessionId := (self.canonicalAgent name).getD name }

def dispatchCommand (self : Root) (effect : CommandEffect) : Root :=
  { effect.lines.foldl (fun self line => self.appendLine .system line) self with
    toolOutputEnabled := effect.toolOutput.getD self.toolOutputEnabled
    stopping := self.stopping || effect.stops }

/-- The part of `onSubmit` after the mention. -/
def submitBody (self : Root) (now : ℤ) (spawnError : Option Bytes) (text : Bytes) :
    Root × List WorkerCtx :=
  if self.pending then (self.appendUserLine text, [])
  else
    match self.beginTurnWithEcho now spawnError text with
    | (self, .ok ctx) => (self, [ctx])
    | (self, .error errorName) =>
      (self.appendLine .system (bufPrint 256 (ascii "! could not start turn: " ++ errorName)
        (ascii "! turn failed")), [])

def onSubmit (host : Host) (self : Root) (now : ℤ) (spawnError : Option Bytes) (text : Bytes) :
    Root × List WorkerCtx :=
  if text = [] then (self, [])
  else if self.askUserPending then
    ({ self.appendUserLine text with pendingReply := some text, askUserPending := false }, [])
  else if text.head? = some 0x2F then (self.dispatchCommand (host.command self text), [])
  else
    let parsed := Mention.parse text
    match parsed.target with
    | none => self.submitBody now spawnError text
    | some target =>
      if self.knowsAgent target then
        let self := self.setActiveAgent target
        if parsed.body = [] then (self.appendUserLine text, [])
        else self.submitBody now spawnError text
      else
        (self.appendLine .system (bufPrint 256 (ascii "! unknown agent: @" ++ target)
          (ascii "! unknown agent")), [])

/-- Esc while a turn is under way: the runner is asked to cancel, and a question is dropped. -/
def escape (self : Root) : Root :=
  let self :=
    if self.stopping then self
    else { self.appendLine .system (bullet ++ ascii "stopping turn" ++ ellipsis) with
      stopping := true }
  if self.askUserPending then { self with askUserPending := false, pendingReply := none } else self

end Root
end Tui
end TigerClaw
