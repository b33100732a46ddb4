import TigerClaw.Agent.Loop

/-!
# Sessions on disk

A session is a list of turns.  It is saved as a document under the name of its id, and resumed from
that document; of a turn, resuming keeps the text of its two messages.

* `Session.appendTurn`: commit what the user said and what the assistant answered.
* `StateDir`: the directory, in which every document stands under the name of its id.
* `pairs_resume`, `pairs_appendTurn`: what of the conversation a resumed session has.
-/

namespace TigerClaw
namespace Harness

open Agent (Message firstText)

structure Turn where
  index : ℕ
  startedAtNs : ℤ
  finishedAtNs : ℤ
  user : Message
  assistant : Message
  deriving DecidableEq

/-- `schema_version`. -/
def schemaVersion : UInt32 := 2

/-- `State`: the document on disk. -/
structure State where
  schemaVersion : UInt32 := Harness.schemaVersion
  id : Bytes
  turnCount : ℕ := 0
  createdAtNs : ℤ
  updatedAtNs : ℤ
  turns : List Turn := []
  deriving DecidableEq

structure Session where
  id : Bytes
  turns : List Turn := []
  createdAtNs : ℤ
  updatedAtNs : ℤ

inductive LoadError where
  | fileNotFound
  | unsupportedSchemaVersion
  | unreadable

/-- What the user said in a turn, and what the assistant answered. -/
def Turn.pair (self : Turn) : Bytes × Bytes := (self.user.flatText, self.assistant.flatText)

def State.pairs (self : State) : List (Bytes × Bytes) := self.turns.map Turn.pair

namespace Session

def pairs (self : Session) : List (Bytes × Bytes) := self.turns.map Turn.pair

def start (nowNs : ℤ) (sessionId : Bytes) : Session :=
  { id := sessionId, createdAtNs := nowNs, updatedAtNs := nowNs }

/-- A turn of a document, with the text of its messages alone. -/
def resumeTurn (t : Turn) : Turn :=
  { t with
    user := Message.allocText t.user.role ((firstText t.user.content).getD [])
    assistant := Message.allocText t.assistant.role ((firstText t.assistant.content).getD []) }

/-- `resumeFromBytes`, from the document that the bytes are parsed to. -/
def resumeFromBytes (parsed : State) : Except LoadError Session :=
  if parsed.schemaVersion ≠ schemaVersion then .error .unsupportedSchemaVersion
  else .ok { id := parsed.id, turns := parsed.turns.map resumeTurn
             createdAtNs := parsed.createdAtNs, updatedAtNs := parsed.updatedAtNs }

def turnCount (self : Session) : ℕ := self.turns.length

def appendTurn (self : Session) (nowNs : ℤ) (userContent assistantContent : Bytes) : Session :=
  { self with
    turns := self.turns ++ [{
      index := self.turnCount
      startedAtNs := nowNs
      finishedAtNs := nowNs
      user := Message.allocText .user userContent
      assistant := Message.allocText .assistant assistantContent }]
    updatedAtNs := nowNs }

def snapshot (self : Session) : State :=
  { id := self.id, turnCount := self.turnCount, createdAtNs := self.createdAtNs
    updatedAtNs := self.updatedAtNs, turns := self.turns }

@[simp] theorem pairs_start (nowNs : ℤ) (sessionId : Bytes) : (start nowNs sessionId).pairs = [] :=
  rfl

@[simp] theorem pairs_snapshot (self : Session) : self.snapshot.pairs = self.pairs := rfl

theorem pairs_appendTurn (self : Session) (nowNs : ℤ) (userContent assistantContent : Bytes) :
    (self.appendTurn nowNs userContent assistantContent).pairs =
      self.pairs ++ [(userContent, assistantContent)] := by
  rw [pairs, appendTurn, List.map_append]
  rfl

theorem resumeFromBytes_eq_ok {parsed : State} {session : Session}
    (h : resumeFromBytes parsed = .ok session) :
    parsed.schemaVersion = schemaVersion ∧ session.id = parsed.id ∧
      session.pairs = parsed.pairs := by
  unfold resumeFromBytes at h
  split at h
  · cases h
  · rename_i hversion
    obtain rfl := Except.ok.inj h
    refine ⟨not_not.mp hversion, rfl, ?_⟩
    rw [pairs, State.pairs, List.map_map]
    rfl

/-- **A session that is saved and resumed is the same conversation.** -/
theorem pairs_resume (self : Session) :
    ∃ session, resumeFromBytes self.snapshot = .ok session ∧ session.id = self.id ∧
      session.pairs = self.pairs :=
  ⟨_, rfl, rfl, (@resumeFromBytes_eq_ok self.snapshot _ rfl).2.2⟩

end Session

/-! ## The state directory -/

/-- A session file: a document, or something that cannot be read as one. -/
inductive File where
  | document (state : State)
  | unreadable
  deriving DecidableEq

/-- `sessionFileName`. -/
def sessionFileName (id : Bytes) : Bytes := id ++ ascii ".json"

theorem sessionFileName_injective : Function.Injective sessionFileName := fun _ _ h =>
  List.append_cancel_right h

/-- The files of `state_dir`.  The harness alone writes documents there, under the name of their
id. -/
structure StateDir where
  file : Bytes → Option File
  named : ∀ name state, file name = some (.document state) → name = sessionFileName state.id

namespace StateDir

def empty : StateDir := ⟨fun _ => none, fun _ _ h => nomatch h⟩

/-- `resumeSession`. -/
def resumeSession (self : StateDir) (id : Bytes) : Except LoadError Session :=
  match self.file (sessionFileName id) with
  | none => .error .fileNotFound
  | some .unreadable => .error .unreadable
  | some (.document state) => Session.resumeFromBytes state

/-- `saveSession`. -/
def saveSession (self : StateDir) (session : Session) : StateDir where
  file name :=
    if name = sessionFileName session.id then some (.document session.snapshot) else self.file name
  named name state h := by
    split at h
    · rename_i hname
      obtain rfl := File.document.inj (Option.some.inj h)
      exact hname
    · exact self.named name state h

/-- The conversation that is stored under an id. -/
def pairs (self : StateDir) (id : Bytes) : List (Bytes × Bytes) :=
  match self.file (sessionFileName id) with
  | some (.document state) => state.pairs
  | _ => []

theorem file_saveSession_self (self : StateDir) (session : Session) :
    (self.saveSession session).file (sessionFileName session.id) =
      some (.document session.snapshot) := if_pos rfl

theorem file_saveSession_of_ne (self : StateDir) {session : Session} {id : Bytes}
    (h : id ≠ session.id) :
    (self.saveSession session).file (sessionFileName id) = self.file (sessionFileName id) :=
  if_neg fun heq => h (sessionFileName_injective heq)

theorem resumeSession_eq_ok {self : StateDir} {id : Bytes} {session : Session}
    (h : self.resumeSession id = .ok session) :
    session.id = id ∧ session.pairs = self.pairs id := by
  unfold resumeSession at h
  split at h
  · cases h
  · cases h
  · rename_i state hfile
    obtain ⟨-, hid, hpairs⟩ := Session.resumeFromBytes_eq_ok h
    have hname := sessionFileName_injective (self.named _ state hfile)
    refine ⟨hid.trans hname.symm, ?_⟩
    simp only [pairs, hfile, hpairs]

theorem pairs_of_fileNotFound {self : StateDir} {id : Bytes}
    (h : self.resumeSession id = .error .fileNotFound) : self.pairs id = [] := by
  unfold resumeSession at h
  split at h
  · rename_i hfile
    simp only [pairs, hfile]
  · cases h
  · unfold Session.resumeFromBytes at h
    split at h <;> cases h

end StateDir
end Harness
end TigerClaw
