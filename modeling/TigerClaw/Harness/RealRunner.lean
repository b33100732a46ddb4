import TigerClaw.Harness.Session

/-!
# The runner of an agent

One runner serves all sessions of its agent, turn after turn.  Before a turn it saves the session of
the turn before, if that is another one, and resumes its own; after the turn it saves that.  The
agent, with its transcript, stays.

* `RealRunner.swapSessionIfNeeded`, `RealRunner.run`: the code.
* `Sound`: what the runner and its files know of the sessions on disk when it started.
* `Admitted`: the turns that reach the agent.
* `Sound.run_agent`: what a turn asks of the provider, and what it makes of the agent.
-/

namespace TigerClaw
namespace Harness

open Agent (ChatResponse TokenUsage)

/-! ## Requests and results -/

/-- `memory.Provider`, one that keeps no state: what it has for a query, if it does not fail. -/
abbrev Provider : Type := Bytes → Option Bytes

/-- `memory.Manager`. -/
structure Manager where
  builtin : Provider
  external : Option Provider := none

def Manager.active (self : Manager) : List Provider := self.builtin :: self.external.toList

inductive DispatchKind where
  | primary
  | subturn
  | resume
  deriving DecidableEq

structure TurnRequest where
  sessionId : Bytes
  targetAgent : Bytes := []
  input : Bytes
  turnEpoch : UInt64 := 0
  dispatchKind : DispatchKind := .primary
  invoker : Option Bytes := none
  mentionOrderIdx : UInt8 := 0
  hasStreamSink : Bool := false
  deriving DecidableEq

structure TurnResult where
  output : Bytes
  completed : Bool
  usage : TokenUsage := {}
  turnEpoch : UInt64 := 0
  dispatchKind : DispatchKind := .primary
  invoker : Option Bytes := none
  targetAgent : Bytes := []
  mentionOrderIdx : UInt8 := 0
  deriving DecidableEq

inductive TurnError where
  | sessionMissing
  | budgetExceeded
  | cancelled
  | interrupted
  | gatewayDown
  | internalError
  | outOfMemory
  deriving DecidableEq

/-- A call of `run`, with what it meets with: the replies of the provider, a cancel after the flag
is cleared, the clock, and whether the session before, and its own, can be written. -/
structure Call where
  req : TurnRequest
  replies : List ChatResponse := []
  cancelled : Bool := false
  nowNs : ℤ := 0
  savesPrior : Bool := true
  saves : Bool := true
  deriving DecidableEq

/-- What `run` returns, with what it hands to the provider, to the memory and to the stream. -/
structure Served where
  result : Except TurnError TurnResult
  requests : List (List Agent.Message) := []
  synced : Option (Bytes × Bytes) := none
  streamed : Option Bytes := none

/-! ## The runner -/

structure RealRunner where
  agent : Agent
  memoryManager : Manager
  dir : StateDir
  currentSession : Option Session := none
  currentId : Option Bytes := none

namespace RealRunner

def init (agent : Agent) (memoryManager : Manager) (dir : StateDir) : RealRunner :=
  { agent, memoryManager, dir }

/-- The session before is saved and dropped. -/
def leaveSession (self : RealRunner) (call : Call) : RealRunner :=
  match self.currentId with
  | none => self
  | some _ =>
    match self.currentSession with
    | none => { self with currentId := none }
    | some s => { self with
        dir := if call.savesPrior then self.dir.saveSession s else self.dir
        currentSession := none
        currentId := none }

/-- `swapSessionIfNeeded`: an error, if there is one, and the runner. -/
def swapSessionIfNeeded (self : RealRunner) (call : Call) : Option TurnError × RealRunner :=
  let sessionId := call.req.sessionId
  if self.currentId = some sessionId then (none, self)
  else
    let self := self.leaveSession call
    match self.dir.resumeSession sessionId with
    | .ok loaded =>
      (none, { self with currentSession := some loaded, currentId := some sessionId })
    | .error .fileNotFound =>
      (none, { self with
        currentSession := some (Session.start call.nowNs sessionId), currentId := some sessionId })
    | .error _ => (some .internalError, self)

/-- `gatherPrefetch`: what the providers have, line after line. -/
def gatherPrefetch (memoryManager : Manager) (query : Bytes) : Option Bytes :=
  let pieces := memoryManager.active.foldl (fun pieces p =>
    match p query with
    | none => pieces
    | some text =>
      if text = [] then pieces
      else if 0 < pieces.length then pieces ++ ascii "\n" ++ text else text) []
  if pieces = [] then none else some pieces

/-- The agent, with what the memory has for the input. -/
def withRecall (memoryManager : Manager) (agent : Agent) (input : Bytes) : Agent :=
  match gatherPrefetch memoryManager input with
  | none => agent
  | some ctxBlock => { agent with state := agent.state.pushMessage .system ctxBlock }

/-- A turn of the agent. -/
def turnOf (memoryManager : Manager) (agent : Agent) (input : Bytes)
    (replies : List ChatResponse) : Option Agent.RunOutcome × Agent.Exchange :=
  (withRecall memoryManager agent input).runTurn input replies

/-- What a turn makes of the agent. -/
def afterTurn (memoryManager : Manager) (agent : Agent) (input : Bytes)
    (replies : List ChatResponse) : Agent :=
  { withRecall memoryManager agent input with
    state := (turnOf memoryManager agent input replies).2.state }

/-- The session is saved after a turn. -/
def persist (self : RealRunner) (call : Call) : RealRunner :=
  match self.currentSession with
  | none => self
  | some s => { self with dir := if call.saves then self.dir.saveSession s else self.dir }

/-- What `run` does once the session is there. -/
def serve (self : RealRunner) (call : Call) : Served × RealRunner :=
  let req := call.req
  let turn := turnOf self.memoryManager self.agent req.input call.replies
  let self := { self with
    agent := afterTurn self.memoryManager self.agent req.input call.replies }
  match turn.1 with
  | none => ({ result := .error .internalError, requests := turn.2.requests }, self)
  | some out =>
    let final := out.finalText.getD []
    ({ result := .ok {
          output := final
          completed := out.reason = .modelFinished
          usage := out.usage
          turnEpoch := req.turnEpoch
          dispatchKind := req.dispatchKind
          invoker := req.invoker
          targetAgent := if req.targetAgent.length ≠ 0 then req.targetAgent else req.sessionId
          mentionOrderIdx := req.mentionOrderIdx }
       requests := turn.2.requests
       synced := some (req.input, final)
       streamed := if req.hasStreamSink ∧ 0 < final.length then some final else none },
      self.persist call)

/-- `run`. -/
def run (self : RealRunner) (call : Call) : Served × RealRunner :=
  if call.req.sessionId.length = 0 then ({ result := .error .sessionMissing }, self)
  else
    match self.swapSessionIfNeeded call with
    | (some e, self) => ({ result := .error e }, self)
    | (none, self) =>
      if call.cancelled then ({ result := .error .interrupted }, self) else self.serve call

/-- The runner after some turns. -/
def after (self : RealRunner) (calls : List Call) : RealRunner :=
  calls.foldl (fun r call => (r.run call).2) self

theorem after_concat (self : RealRunner) (calls : List Call) (call : Call) :
    self.after (calls ++ [call]) = ((self.after calls).run call).2 := by
  rw [after, List.foldl_append]
  rfl

end RealRunner

/-! ## Sessions that can be loaded -/

/-- The session is there and can be read, or is not there. -/
def StateDir.loadable (self : StateDir) (id : Bytes) : Bool :=
  match self.resumeSession id with
  | .ok _ | .error .fileNotFound => true
  | .error _ => false

/-- Two directories hold the same conversations. -/
structure StateDir.Agree (dir dir' : StateDir) : Prop where
  pairs : ∀ id, dir.pairs id = dir'.pairs id
  loadable : ∀ id, dir.loadable id = dir'.loadable id

/-- Saving what is stored already changes nothing of it. -/
theorem StateDir.Agree.saveSession {dir dir' : StateDir} (h : dir.Agree dir') {s : Session}
    (hpairs : s.pairs = dir'.pairs s.id) (hloadable : dir'.loadable s.id = true) :
    (dir.saveSession s).Agree dir' := by
  constructor
  · intro id
    by_cases hid : id = s.id
    · subst hid
      rw [← hpairs, StateDir.pairs, StateDir.file_saveSession_self]
      rfl
    · rw [← h.pairs, StateDir.pairs, StateDir.file_saveSession_of_ne dir hid]
      rfl
  · intro id
    by_cases hid : id = s.id
    · subst hid
      rw [hloadable, StateDir.loadable, StateDir.resumeSession, StateDir.file_saveSession_self]
      rfl
    · rw [← h.loadable, StateDir.loadable, StateDir.resumeSession,
        StateDir.file_saveSession_of_ne dir hid]
      rfl

namespace RealRunner

/-- The turns that reach the agent: they have a session that can be loaded, and are not cancelled
before. -/
def Admitted (dir : StateDir) (call : Call) : Bool :=
  call.req.sessionId.length ≠ 0 && dir.loadable call.req.sessionId && !call.cancelled

/-- The runner has the session that is stored under the id. -/
def Holds (r : RealRunner) (dir : StateDir) (id : Bytes) : Prop :=
  dir.loadable id = true ∧
    ∃ s, r.currentSession = some s ∧ s.id = id ∧ s.pairs = dir.pairs id

/-- What the runner and its files know of the sessions on disk when it started. -/
structure Sound (dir : StateDir) (r : RealRunner) : Prop where
  agree : r.dir.Agree dir
  current : ∀ id, r.currentId = some id → r.Holds dir id

theorem Sound.init (agent : Agent) (memoryManager : Manager) (dir : StateDir) :
    Sound dir (init agent memoryManager dir) :=
  ⟨⟨fun _ => rfl, fun _ => rfl⟩, fun _ h => nomatch h⟩

variable {dir : StateDir} {r : RealRunner}

theorem Sound.leaveSession (h : Sound dir r) (call : Call) :
    (r.leaveSession call).dir.Agree dir ∧ (r.leaveSession call).currentId = none ∧
      (r.leaveSession call).agent = r.agent ∧
      (r.leaveSession call).memoryManager = r.memoryManager := by
  unfold RealRunner.leaveSession
  split
  · rename_i hnone
    exact ⟨h.agree, hnone, rfl, rfl⟩
  · rename_i id hid
    obtain ⟨hloadable, s, hs, rfl, hpairs⟩ := h.current id hid
    rw [hs]
    dsimp only
    split
    · exact ⟨h.agree.saveSession hpairs hloadable, rfl, rfl, rfl⟩
    · exact ⟨h.agree, rfl, rfl, rfl⟩

/-- **The swap** succeeds exactly if the session could be loaded at the start, and does not touch
the agent. -/
theorem Sound.swapSessionIfNeeded (h : Sound dir r) (call : Call) :
    ∃ r', r.swapSessionIfNeeded call =
        (if dir.loadable call.req.sessionId then none else some .internalError, r') ∧
      Sound dir r' ∧ r'.agent = r.agent ∧ r'.memoryManager = r.memoryManager ∧
      (dir.loadable call.req.sessionId = true → r'.currentId = some call.req.sessionId) := by
  unfold RealRunner.swapSessionIfNeeded
  dsimp only
  split
  · rename_i hcurrent
    rw [if_pos (h.current _ hcurrent).1]
    exact ⟨r, rfl, h, rfl, rfl, fun _ => hcurrent⟩
  obtain ⟨hagree, hnone, hagent, hmemory⟩ := h.leaveSession call
  have hloadable := hagree.loadable call.req.sessionId
  rw [StateDir.loadable] at hloadable
  have hpairs := hagree.pairs call.req.sessionId
  split
  · rename_i loaded hloaded
    rw [hloaded] at hloadable
    obtain ⟨hid, hsame⟩ := StateDir.resumeSession_eq_ok hloaded
    rw [if_pos hloadable.symm]
    refine ⟨_, rfl, ⟨hagree, ?_⟩, hagent, hmemory, fun _ => rfl⟩
    rintro _ ⟨⟩
    exact ⟨hloadable.symm, loaded, rfl, hid, hsame.trans hpairs⟩
  · rename_i hmissing
    rw [hmissing] at hloadable
    rw [if_pos hloadable.symm]
    refine ⟨_, rfl, ⟨hagree, ?_⟩, hagent, hmemory, fun _ => rfl⟩
    rintro _ ⟨⟩
    refine ⟨hloadable.symm, _, rfl, rfl, ?_⟩
    rw [← hpairs, StateDir.pairs_of_fileNotFound hmissing]
    rfl
  · rename_i e hmissing herror
    have hfalse : dir.loadable call.req.sessionId = false := by
      rw [herror] at hloadable
      cases e with
      | fileNotFound => exact (hmissing rfl).elim
      | unsupportedSchemaVersion => exact hloadable.symm
      | unreadable => exact hloadable.symm
    rw [if_neg (by rw [hfalse]; exact Bool.false_ne_true)]
    refine ⟨_, rfl, ⟨hagree, fun id hid => ?_⟩, hagent, hmemory, fun htrue => ?_⟩
    · exact absurd (hnone.symm.trans hid) (by simp)
    · exact absurd (hfalse.symm.trans htrue) Bool.false_ne_true

/-- **What a call of `run` does**: it fails before it comes to the agent, which stays as it is, or
it serves the turn with its session loaded. -/
theorem Sound.run_cases (h : Sound dir r) (call : Call) :
    ∃ r', Sound dir r' ∧ r'.agent = r.agent ∧ r'.memoryManager = r.memoryManager ∧
      ((Admitted dir call = false ∧ ∃ e, r.run call = ({ result := .error e }, r')) ∨
        (Admitted dir call = true ∧ r'.currentId = some call.req.sessionId ∧
          r.run call = r'.serve call)) := by
  unfold RealRunner.run
  by_cases hmissing : call.req.sessionId.length = 0
  · rw [if_pos hmissing]
    exact ⟨r, h, rfl, rfl, .inl ⟨by simp [Admitted, hmissing], _, rfl⟩⟩
  rw [if_neg hmissing]
  obtain ⟨r', hswap, hsound, hagent, hmemory, hcurrent⟩ := h.swapSessionIfNeeded call
  refine ⟨r', hsound, hagent, hmemory, ?_⟩
  rw [hswap]
  by_cases hloadable : dir.loadable call.req.sessionId = true
  · rw [if_pos hloadable]
    dsimp only
    cases hcancelled : call.cancelled
    · exact .inr ⟨by simp [Admitted, hmissing, hloadable, hcancelled], hcurrent hloadable, rfl⟩
    · exact .inl ⟨by simp [Admitted, hcancelled], _, rfl⟩
  · rw [if_neg hloadable]
    exact .inl ⟨by simp [Admitted, hloadable], _, rfl⟩

/-! ## What a turn asks, and what it leaves -/

@[simp] theorem persist_agent (r : RealRunner) (call : Call) :
    (r.persist call).agent = r.agent := by
  unfold persist
  split <;> rfl

@[simp] theorem persist_memoryManager (r : RealRunner) (call : Call) :
    (r.persist call).memoryManager = r.memoryManager := by
  unfold persist
  split <;> rfl

theorem Sound.persist (h : Sound dir r) {id : Bytes} (hid : r.currentId = some id) (call : Call) :
    Sound dir (r.persist call) := by
  obtain ⟨hloadable, s, hs, rfl, hpairs⟩ := h.current id hid
  unfold RealRunner.persist
  rw [hs]
  dsimp only
  refine ⟨?_, fun id' hid' => ?_⟩
  · split
    · exact h.agree.saveSession hpairs hloadable
    · exact h.agree
  · obtain ⟨hloadable', s', hs', hboth⟩ := h.current id' hid'
    exact ⟨hloadable', s', hs.symm.trans hs', hboth⟩

/-- The runner after the turn of the agent. -/
def withTurn (r : RealRunner) (call : Call) : RealRunner :=
  { r with agent := afterTurn r.memoryManager r.agent call.req.input call.replies }

theorem serve_cases (r : RealRunner) (call : Call) :
    (r.serve call).1.requests =
        (turnOf r.memoryManager r.agent call.req.input call.replies).2.requests ∧
      (((∃ e, (r.serve call).1.result = .error e) ∧ (r.serve call).2 = r.withTurn call) ∨
        ((∃ res, (r.serve call).1.result = .ok res) ∧
          (r.serve call).2 = (r.withTurn call).persist call)) := by
  unfold serve
  dsimp only
  split
  · exact ⟨rfl, .inl ⟨⟨_, rfl⟩, rfl⟩⟩
  · exact ⟨rfl, .inr ⟨⟨_, rfl⟩, rfl⟩⟩

theorem Sound.serve (h : Sound dir r) {id : Bytes} (hid : r.currentId = some id) (call : Call) :
    Sound dir (r.serve call).2 := by
  have hturn : Sound dir (r.withTurn call) := ⟨h.agree, h.current⟩
  rcases (serve_cases r call).2 with ⟨-, hserve⟩ | ⟨-, hserve⟩
  · rw [hserve]
    exact hturn
  · rw [hserve]
    exact hturn.persist hid call

/-- **What a call asks, and what it makes of the agent**, whatever its session is: nothing, or what
the turn does. -/
theorem Sound.run_agent (h : Sound dir r) (call : Call) :
    (r.run call).2.memoryManager = r.memoryManager ∧
      ((Admitted dir call = false ∧ (r.run call).1.requests = [] ∧
          (r.run call).2.agent = r.agent) ∨
        (Admitted dir call = true ∧
          (r.run call).1.requests =
            (turnOf r.memoryManager r.agent call.req.input call.replies).2.requests ∧
          (r.run call).2.agent =
            afterTurn r.memoryManager r.agent call.req.input call.replies)) := by
  obtain ⟨r', -, hagent, hmemory, ⟨hout, e, hrun⟩ | ⟨hin, -, hrun⟩⟩ := h.run_cases call
  · rw [hrun]
    exact ⟨hmemory, .inl ⟨hout, rfl, hagent⟩⟩
  · obtain ⟨hrequests, hserve⟩ := serve_cases r' call
    rw [hagent, hmemory] at hrequests
    have hwith : (r'.withTurn call).agent =
        afterTurn r.memoryManager r.agent call.req.input call.replies := by
      rw [withTurn, hagent, hmemory]
    rw [hrun]
    rcases hserve with ⟨-, hserve⟩ | ⟨-, hserve⟩
    · rw [hserve]
      exact ⟨hmemory, .inr ⟨hin, hrequests, hwith⟩⟩
    · rw [hserve, persist_agent, persist_memoryManager]
      exact ⟨hmemory, .inr ⟨hin, hrequests, hwith⟩⟩

theorem Sound.run (h : Sound dir r) (call : Call) : Sound dir (r.run call).2 := by
  obtain ⟨r', hsound, -, -, ⟨-, e, hrun⟩ | ⟨-, hid, hrun⟩⟩ := h.run_cases call
  · rw [hrun]
    exact hsound
  · rw [hrun]
    exact hsound.serve hid call

theorem Sound.after (h : Sound dir r) (calls : List Call) : Sound dir (r.after calls) := by
  induction calls generalizing r with
  | nil => exact h
  | cons call calls ih => exact ih (h.run call)

end RealRunner
end Harness
end TigerClaw
