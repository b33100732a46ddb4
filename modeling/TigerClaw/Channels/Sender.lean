import TigerClaw.Channels.Outbox
import TigerClaw.Library.Loop
import TigerClaw.Library.StepMachine

/-!
# The sender

`src/channels/outbox_sender.zig` drains the outbox: it takes a cursor, walks every due record, and
acks it or records a failure.  Two models of the same code stand here.

* `drainOnce`: one pass as the function computes it, with the clock readings, the outcomes of
  `send` and the failures of the file operations given by the position of the record.
* `step`: the pass cut at its file operations, so that appends of the worker thread can come
  between any two of them.
* `drainOnce_run`: a pass that returns is a run of the second model without appends.
-/

namespace TigerClaw
namespace Channels

inductive SendError where
  | badRequest
  | unauthorized
  | rateLimited
  | transportFailure

/-- The two arms of the switch on a failed `send`. -/
def SendError.retryable : SendError → Bool
  | .unauthorized | .badRequest => false
  | .rateLimited | .transportFailure => true

/-- Whether the outcome of a `send` is recorded as a failure; otherwise the record is acked. -/
def retries : Except SendError Unit → Bool
  | .ok () => false
  | .error err => err.retryable

/-- What a drain pass reads and writes: the channel's file and `failed_acks`. -/
structure Sender where
  file : List Record
  failedAcks : List Bytes := []
  deriving DecidableEq

namespace Sender

def rememberFailedAck (self : Sender) (id : Bytes) : Sender :=
  if 1024 ≤ self.failedAcks.length then self
  else { self with failedAcks := self.failedAcks ++ [id] }

def hasFailedAck (self : Sender) (id : Bytes) : Bool := self.failedAcks.any (· == id)

/-- `cursor.ack(id) catch self.rememberFailedAck(id)`; `fault` is how `rewriteFile` fails.  The
cursor's own copy is flipped before the file is written. -/
def ackOrRemember (self : Sender) (cursor : Cursor) (id : Bytes) (fault : Option AckError) :
    Sender × Cursor :=
  match cursor.ack id with
  | .error _ => (self.rememberFailedAck id, cursor)
  | .ok cursor =>
    match fault with
    | none => ({ self with file := cursor.records }, cursor)
    | some _ => (self.rememberFailedAck id, cursor)

/-- `recordFailure` up to its `rewriteFile`: the records to write, or none when it fails, which the
sender only logs.  `fault` is how `loadRecords` fails.  The log line before it already counts the
attempt, with an addition that is checked. -/
def loadFailure (self : Sender) (pending : Pending) (nowMs : Int64) (fault : Option ReadError) :
    Except Trap (Option (List Record)) :=
  if pending.attempts.toNat + 1 = 2 ^ 32 then .error .overflow
  else
    match fault with
    | some _ => .ok none
    | none =>
      match recordFailure self.file pending.id nowMs with
      | .ok records => .ok (some records)
      | .error _ => .ok none
      | .trap t => .error t

/-- `rewriteFile` at the end of `recordFailure`; the sender only logs its failure. -/
def rewriteFile (self : Sender) (records : List Record) (fault : Option AckError) : Sender :=
  match fault with
  | none => { self with file := records }
  | some _ => self

end Sender

/-! ## One pass -/

/-- What a pass meets.  `nowMs i` is the clock when `next` is called with its index at `i`;
`send i` and `failedAtMs i` are the outcome of sending the record at position `i`, and the clock
when `recordFailure` is called for it. -/
structure Env where
  nowMs : ℕ → Int64
  send : ℕ → Except SendError Unit
  failedAtMs : ℕ → Int64

/-- The file operations of a pass that fail, by the position of the record they are for. -/
structure Faults where
  cursor : Option ReadError := none
  ack : ℕ → Option AckError := fun _ => none
  load : ℕ → Option ReadError := fun _ => none
  rewrite : ℕ → Option AckError := fun _ => none

/-- The state between two rounds of the loop. -/
structure Pass where
  sender : Sender
  cursor : Cursor

/-- The body of the `while (true)`. -/
def Pass.turn (env : Env) (faults : Faults) (self : Pass) :
    Loop.Round Pass (Outcome ReadError Sender) :=
  match self.cursor.next (env.nowMs self.cursor.index) with
  | (none, _) => .leave (.ok self.sender)
  | (some pending, cursor) =>
    let i := cursor.index - 1
    if self.sender.hasFailedAck pending.id then .again { self with cursor }
    else if retries (env.send i) then
      match self.sender.loadFailure pending (env.failedAtMs i) (faults.load i) with
      | .error t => .leave (.trap t)
      | .ok none => .again { self with cursor }
      | .ok (some records) => .again ⟨self.sender.rewriteFile records (faults.rewrite i), cursor⟩
    else
      let (sender, cursor) := self.sender.ackOrRemember cursor pending.id (faults.ack i)
      .again ⟨sender, cursor⟩

/-- `drainOnce`.  Every round but the last passes a record, so the fuel is never used up. -/
def drainOnce (env : Env) (faults : Faults) (self : Sender) : Option (Outcome ReadError Sender) :=
  match faults.cursor with
  | some e => some (.error e)
  | none =>
    Loop.loop (Pass.turn env faults) (self.file.length + 1) ⟨self, { records := self.file }⟩

/-! ## The pass among appends -/

/-- Where the sender thread stands. -/
inductive Phase where
  | idle
  | draining (cursor : Cursor)
  | sending (cursor : Cursor) (pending : Pending)
  | acking (cursor : Cursor) (pending : Pending)
  | failing (cursor : Cursor) (pending : Pending)
  /-- Inside `recordFailure`, with the updated records in hand. -/
  | recording (cursor : Cursor) (records : List Record)

/-- The worker thread, the sender thread and the file.  `accepted` is for statements only: the
replies the file held at the start, and those `append` has returned an id for. -/
structure State where
  sender : Sender
  idCounter : UInt32
  phase : Phase
  accepted : List Reply

inductive Action where
  /-- The worker's `append`. -/
  | append (msg : OutboundMessage) (nowUs nowMs : Int64)
  /-- The start of `drainOnce`: open the cursor. -/
  | snapshot (fault : Option ReadError)
  | next (nowMs : Int64)
  | send (result : Except SendError Unit)
  | ack (fault : Option AckError)
  /-- The first half of `recordFailure`. -/
  | load (nowMs : Int64) (fault : Option ReadError)
  /-- The second half of `recordFailure`. -/
  | rewrite (fault : Option AckError)

/-- The worker may append at any time; the sender takes the steps of `drainOnce` in order. -/
def step (s : State) (a : Action) : Option State :=
  match a, s.phase with
  | .append msg nowUs nowMs, _ =>
    let (file, idCounter, id) := append s.sender.file s.idCounter msg nowUs nowMs
    some { s with
            sender := { s.sender with file }
            idCounter
            accepted := s.accepted ++ [⟨id, msg.conversationKey, msg.threadKey, msg.text⟩] }
  | .snapshot none, .idle => some { s with phase := .draining { records := s.sender.file } }
  | .snapshot (some _), .idle => some s
  | .next nowMs, .draining cursor =>
    match cursor.next nowMs with
    | (none, _) => some { s with phase := .idle }
    | (some pending, cursor) =>
      if s.sender.hasFailedAck pending.id then some { s with phase := .draining cursor }
      else some { s with phase := .sending cursor pending }
  | .send result, .sending cursor pending =>
    if retries result then some { s with phase := .failing cursor pending }
    else some { s with phase := .acking cursor pending }
  | .ack fault, .acking cursor pending =>
    let (sender, cursor) := s.sender.ackOrRemember cursor pending.id fault
    some { s with sender, phase := .draining cursor }
  | .load nowMs fault, .failing cursor pending =>
    match s.sender.loadFailure pending nowMs fault with
    | .error _ => none
    | .ok none => some { s with phase := .draining cursor }
    | .ok (some records) => some { s with phase := .recording cursor records }
  | .rewrite fault, .recording cursor records =>
    some { s with sender := s.sender.rewriteFile records fault, phase := .draining cursor }
  | _, _ => none

/-- Between two passes, with nothing accepted but what is in the file. -/
def start (sender : Sender) (idCounter : UInt32) : State :=
  ⟨sender, idCounter, .idle, sender.file.map Record.reply⟩

/-- A step of the sender thread, not of the worker. -/
def Action.isSender : Action → Bool
  | .append .. => false
  | _ => true

/-! ## A pass is a run -/

/-- A run of the sender's own steps. -/
def SenderRun (s t : State) : Prop :=
  ∃ actions : List Action, (∀ a ∈ actions, a.isSender) ∧ StepMachine.run step s actions = some t

theorem SenderRun.refl (s : State) : SenderRun s s := ⟨[], by simp, rfl⟩

theorem SenderRun.cons {s m t : State} {a : Action} (ha : a.isSender) (h : step s a = some m)
    (h' : SenderRun m t) : SenderRun s t := by
  obtain ⟨actions, hactions, hrun⟩ := h'
  refine ⟨a :: actions, ?_, ?_⟩
  · rintro b (_ | ⟨_, hb⟩)
    · exact ha
    · exact hactions b hb
  · rw [StepMachine.run_cons, h]
    exact hrun

theorem SenderRun.trans {s m t : State} (h : SenderRun s m) (h' : SenderRun m t) :
    SenderRun s t := by
  obtain ⟨as, has, hrun⟩ := h
  obtain ⟨bs, hbs, hrun'⟩ := h'
  refine ⟨as ++ bs, ?_, ?_⟩
  · intro a ha
    exact (List.mem_append.mp ha).elim (has a) (hbs a)
  · rw [StepMachine.run_append, hrun]
    exact hrun'

/-- The state of a pass as a state of the machine. -/
def Pass.state (self : Pass) (idCounter : UInt32) (accepted : List Reply) : State :=
  ⟨self.sender, idCounter, .draining self.cursor, accepted⟩

/-- One round of the loop is a run of the steps it is made of. -/
theorem Pass.turn_run {env : Env} {faults : Faults} {p p' : Pass}
    (h : p.turn env faults = .again p') (n : UInt32) (accepted : List Reply) :
    SenderRun (p.state n accepted) (p'.state n accepted) := by
  rw [Pass.turn] at h
  set now := env.nowMs p.cursor.index
  rcases hnext : p.cursor.next now with ⟨found, cursor⟩
  cases found with
  | none => simp [hnext] at h
  | some pending =>
    simp only [hnext] at h
    set i := cursor.index - 1
    by_cases hskip : p.sender.hasFailedAck pending.id
    · rw [if_pos hskip, Loop.Round.again.injEq] at h
      refine .cons (a := .next now) rfl ?_ (.refl _)
      simp [step, Pass.state, hnext, hskip, ← h]
    · rw [if_neg hskip] at h
      refine .cons (a := .next now) (m := ⟨p.sender, n, .sending cursor pending, accepted⟩) rfl
        (by simp [step, Pass.state, hnext, hskip]) ?_
      by_cases hretry : retries (env.send i)
      · rw [if_pos hretry] at h
        refine .cons (a := .send (env.send i))
          (m := ⟨p.sender, n, .failing cursor pending, accepted⟩) rfl (by simp [step, hretry]) ?_
        cases hload : p.sender.loadFailure pending (env.failedAtMs i) (faults.load i) with
        | error t => simp [hload] at h
        | ok loaded =>
          cases loaded with
          | none =>
            simp only [hload, Loop.Round.again.injEq] at h
            refine .cons (a := .load (env.failedAtMs i) (faults.load i)) rfl ?_ (.refl _)
            simp [step, Pass.state, hload, ← h]
          | some records =>
            simp only [hload, Loop.Round.again.injEq] at h
            refine .cons (a := .load (env.failedAtMs i) (faults.load i))
              (m := ⟨p.sender, n, .recording cursor records, accepted⟩) rfl
              (by simp [step, hload]) ?_
            refine .cons (a := .rewrite (faults.rewrite i)) rfl ?_ (.refl _)
            simp [step, Pass.state, ← h]
      · rw [if_neg hretry, Loop.Round.again.injEq] at h
        refine .cons (a := .send (env.send i))
          (m := ⟨p.sender, n, .acking cursor pending, accepted⟩) rfl (by simp [step, hretry]) ?_
        refine .cons (a := .ack (faults.ack i)) rfl ?_ (.refl _)
        simp [step, Pass.state, ← h]

/-- The last round of a pass that returns is a `next` that finds nothing. -/
theorem Pass.turn_leave {env : Env} {faults : Faults} {p : Pass} {sender : Sender}
    (h : p.turn env faults = .leave (.ok sender)) (n : UInt32) (accepted : List Reply) :
    SenderRun (p.state n accepted) ⟨sender, n, .idle, accepted⟩ := by
  rw [Pass.turn] at h
  set now := env.nowMs p.cursor.index
  rcases hnext : p.cursor.next now with ⟨found, cursor⟩
  cases found with
  | none =>
    obtain rfl : p.sender = sender := by simpa [hnext] using h
    refine .cons (a := .next now) rfl ?_ (.refl _)
    simp [step, Pass.state, hnext]
  | some pending =>
    simp only [hnext] at h
    split at h
    · simp at h
    · split at h
      · split at h <;> simp at h
      · simp at h

/-- **A pass that returns is a run without appends**, from one resting state to the next. -/
theorem drainOnce_run {env : Env} {faults : Faults} {self sender : Sender}
    (h : drainOnce env faults self = some (.ok sender)) (n : UInt32) (accepted : List Reply) :
    SenderRun ⟨self, n, .idle, accepted⟩ ⟨sender, n, .idle, accepted⟩ := by
  rw [drainOnce] at h
  cases hopen : faults.cursor with
  | some e => simp [hopen] at h
  | none =>
    simp only [hopen] at h
    -- by rounds from the end: from where the cursor stands, the rest of the pass is a run
    let R : Pass → Outcome ReadError Sender → Prop := fun p r =>
      r = .ok sender → SenderRun (p.state n accepted) ⟨sender, n, .idle, accepted⟩
    have hleave : ∀ p r, p.turn env faults = .leave r → R p r := by
      rintro p r hr rfl
      exact Pass.turn_leave hr n accepted
    have hagain : ∀ p p' r, p.turn env faults = .again p' → R p' r → R p r := by
      intro p p' r hr ih hok
      exact (Pass.turn_run hr n accepted).trans (ih hok)
    exact .cons (a := .snapshot none) rfl rfl (Loop.loop_sound hleave hagain h rfl)

end Channels
end TigerClaw
