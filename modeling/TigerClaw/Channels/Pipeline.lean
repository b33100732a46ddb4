import TigerClaw.Channels.Dispatch
import TigerClaw.Channels.Outbox
import TigerClaw.Channels.Spec
import TigerClaw.Library.StepMachine

/-!
# From a channel to the outbox

The receive threads of the manager stamp each message with the agent of their binding and push it
into the dispatch queue.  The dispatch worker takes the messages out, has the agent's runner answer
each, and gives the answer to the outbox.

* `Manager`: the bindings, no two of one agent and one kind.
* `processOne`: what the worker does with a message.
* `step`: any number of receive threads and the worker, cut at the operations on the queue.
* `Valid`, `valid_step`: the queue is well formed, and each message in it comes from a binding.
-/

namespace TigerClaw
namespace Channels

/-! ## Bindings -/

structure ChannelEntry where
  agentName : Bytes
  channelId : ChannelId
  deriving DecidableEq

/-- The entries; `add` refuses a second one of the same agent and kind. -/
structure Manager where
  entries : List ChannelEntry := []
  nodup : entries.Nodup := by exact List.nodup_nil

/-- `add`; none is `DuplicateBinding`. -/
def Manager.add (self : Manager) (agentName : Bytes) (channelId : ChannelId) : Option Manager :=
  if h : ⟨agentName, channelId⟩ ∈ self.entries then none
  else some {
    entries := self.entries ++ [⟨agentName, channelId⟩]
    nodup := List.nodup_append.mpr ⟨self.nodup, List.pairwise_singleton _ _,
      fun _ he _ he' heq => h (List.mem_singleton.mp he' ▸ heq ▸ he)⟩ }

/-- What `receiveLoop` writes into a message before it enqueues it. -/
def ChannelEntry.stamp (self : ChannelEntry) (raw : InboundMessage) : InboundMessage :=
  { raw with channelId := self.channelId, agentName := self.agentName }

/-- A message, with the position of the binding that it was received on.  The position is for
statements only. -/
structure Arrival where
  binding : ℕ
  msg : InboundMessage
  deriving DecidableEq

/-! ## The worker -/

structure TurnRequest where
  sessionId : Bytes
  input : Bytes

structure TurnResult where
  output : Bytes
  completed : Bool := true

/-- `RunnerSource`: the agents that it resolves, and how their runners answer.  A runner has a
state, and may meet something in a turn; it fails, or returns a result, or takes the process
down. -/
structure RunnerSource (σ ε : Type) where
  resolve : Bytes → Bool := fun _ => true
  run : σ → ε → TurnRequest → Option (Option TurnResult × σ)

/-- What the worker does with a message. -/
structure Turned where
  /-- The runner was called. -/
  ran : Bool
  /-- What is given to the outbox. -/
  reply : Option OutboundMessage

/-- The reply to a message, if the turn has one. -/
def replyTo (msg : InboundMessage) : Option TurnResult → Option OutboundMessage
  | none => none
  | some result =>
    if result.completed = false ∨ result.output = [] then none
    else some ⟨msg.conversationKey, msg.threadKey, result.output⟩

/-- `processOne` up to its append. -/
def processOne {σ ε : Type} (source : RunnerSource σ ε) (runner : σ) (env : ε)
    (msg : InboundMessage) : Option (Turned × σ) :=
  if source.resolve msg.agentName = false then some (⟨false, none⟩, runner)
  else do
    let (result, runner) ← source.run runner env ⟨msg.agentName, msg.text⟩
    some (⟨true, replyTo msg result⟩, runner)

/-- A reply goes back to where the message came from. -/
theorem replyTo_eq_some {msg : InboundMessage} {result : Option TurnResult}
    {out : OutboundMessage} (h : replyTo msg result = some out) :
    out.conversationKey = msg.conversationKey ∧ out.threadKey = msg.threadKey := by
  cases result with
  | none => exact nomatch h
  | some result =>
    rw [replyTo] at h
    split at h
    · exact nomatch h
    · obtain rfl := Option.some.inj h
      exact ⟨rfl, rfl⟩

section

variable {σ ε : Type} {source : RunnerSource σ ε} {runner runner' : σ} {env : ε}
  {msg : InboundMessage} {turned : Turned}

/-- A runner is called where there is one, and nothing is replied without it. -/
theorem processOne_ran (h : processOne source runner env msg = some (turned, runner')) :
    turned.ran = source.resolve msg.agentName ∧ (turned.reply ≠ none → turned.ran = true) := by
  rw [processOne] at h
  split at h
  · rename_i hresolve
    obtain ⟨rfl, -⟩ := Prod.mk.inj (Option.some.inj h)
    exact ⟨hresolve.symm, fun hne => absurd rfl hne⟩
  · rename_i hresolve
    obtain ⟨⟨result, runner₁⟩, -, h⟩ := Option.bind_eq_some_iff.mp h
    obtain ⟨rfl, -⟩ := Prod.mk.inj (Option.some.inj h)
    exact ⟨(Bool.eq_true_of_not_eq_false hresolve).symm, fun _ => rfl⟩

theorem processOne_reply (h : processOne source runner env msg = some (turned, runner'))
    {out : OutboundMessage} (hreply : turned.reply = some out) :
    out.conversationKey = msg.conversationKey ∧ out.threadKey = msg.threadKey := by
  rw [processOne] at h
  split at h
  · obtain ⟨rfl, -⟩ := Prod.mk.inj (Option.some.inj h)
    exact nomatch hreply
  · obtain ⟨⟨result, runner₁⟩, -, h⟩ := Option.bind_eq_some_iff.mp h
    obtain ⟨rfl, -⟩ := Prod.mk.inj (Option.some.inj h)
    exact replyTo_eq_some hreply

end

/-! ## Runs -/

/-- Where the worker stands. -/
inductive Worker where
  | idle
  | holding (a : Arrival)
  | stopped

/-- A message that the worker has processed, and its clock. -/
structure Handled where
  arrival : Arrival
  nowMs : Int64
  ran : Bool

/-- A reply that the outbox has taken, and the message that it answers. -/
structure Posted where
  arrival : Arrival
  out : OutboundMessage

/-- `handled` and `posted` are for statements only. -/
structure Pipeline (σ : Type) where
  queue : Dispatch Arrival
  runner : σ
  worker : Worker := .idle
  handled : List Handled := []
  posted : List Posted := []

namespace Pipeline

inductive Action (ε : Type) where
  /-- The thread of a binding enqueues a message that it has received. -/
  | receive (binding : ℕ) (raw : InboundMessage)
  /-- A round of the worker's `dequeue`. -/
  | dequeue (cancel : Bool)
  /-- The worker processes the message that it holds; the append to the outbox may fail. -/
  | work (nowMs : Int64) (env : ε) (appendFails : Bool)

variable {σ ε : Type}

/-- Without a step, the process has ended, or the thread stands elsewhere. -/
def step (m : Manager) (source : RunnerSource σ ε) (s : Pipeline σ) :
    Action ε → Option (Pipeline σ)
  | .receive binding raw => do
    let entry ← m.entries[binding]?
    let (_, queue) ← (s.queue.enqueue ⟨binding, entry.stamp raw⟩).toOption
    some { s with queue }
  | .dequeue cancel =>
    match s.worker with
    | .idle => do
      let (answer, queue) ← (s.queue.dequeueRound cancel).toOption
      match answer with
      | .message a => some { s with queue, worker := .holding a }
      | .cancelled => some { s with queue, worker := .stopped }
      | _ => some { s with queue }
    | _ => none
  | .work nowMs env appendFails =>
    match s.worker with
    | .holding a => do
      let (turned, runner) ← processOne source s.runner env a.msg
      let posted := if appendFails then none else turned.reply
      some { s with
        runner
        worker := .idle
        handled := s.handled ++ [⟨a, nowMs, turned.ran⟩]
        posted := s.posted ++ (posted.map (⟨a, ·⟩)).toList }
    | _ => none

/-- An empty queue, and a worker that has just been started. -/
def start (buffer : Buffer Arrival) (runner : σ) : Pipeline σ :=
  { queue := Dispatch.init buffer, runner }

/-! ## What a step can do -/

/-- The state after the worker has processed a message. -/
def worked (s : Pipeline σ) (a : Arrival) (nowMs : Int64) (appendFails : Bool) (turned : Turned)
    (runner : σ) : Pipeline σ :=
  { s with
    runner
    worker := .idle
    handled := s.handled ++ [⟨a, nowMs, turned.ran⟩]
    posted := s.posted ++ ((if appendFails then none else turned.reply).map (⟨a, ·⟩)).toList }

/-- The steps from a well-formed queue. -/
inductive Moves (m : Manager) (source : RunnerSource σ ε) (s : Pipeline σ) :
    Action ε → Pipeline σ → Prop
  | received (binding : ℕ) (raw : InboundMessage) (entry : ChannelEntry) (queue : Dispatch Arrival)
      (hentry : m.entries[binding]? = some entry) (hqueue : queue.WellFormed)
      (hcapacity : queue.buffer.capacity = s.queue.buffer.capacity)
      (hcontents : queue.contents = BoundedFifo.push s.queue.buffer.capacity s.queue.contents
        ⟨binding, entry.stamp raw⟩) :
      Moves m source s (.receive binding raw) { s with queue }
  | took (cancel : Bool) (a : Arrival) (queue : Dispatch Arrival) (hidle : s.worker = .idle)
      (hcons : s.queue.contents = a :: queue.contents) (hqueue : queue.WellFormed)
      (hcapacity : queue.buffer.capacity = s.queue.buffer.capacity) :
      Moves m source s (.dequeue cancel) { s with queue, worker := .holding a }
  | waited (cancel : Bool) (hidle : s.worker = .idle) (hnil : s.queue.contents = []) :
      Moves m source s (.dequeue cancel) { s with worker := if cancel then .stopped else .idle }
  | processed (nowMs : Int64) (env : ε) (appendFails : Bool) (a : Arrival) (turned : Turned)
      (runner : σ) (hholding : s.worker = .holding a)
      (hprocess : processOne source s.runner env a.msg = some (turned, runner)) :
      Moves m source s (.work nowMs env appendFails) (s.worked a nowMs appendFails turned runner)

variable {m : Manager} {source : RunnerSource σ ε} {s s' : Pipeline σ}

theorem moves_of_step (hqueue : s.queue.WellFormed) {action : Action ε}
    (h : step m source s action = some s') : Moves m source s action s' := by
  cases action with
  | receive binding raw =>
    obtain ⟨entry, hentry, h⟩ := Option.bind_eq_some_iff.mp h
    obtain ⟨⟨clean, queue⟩, henqueue, h⟩ := Option.bind_eq_some_iff.mp h
    obtain rfl := Option.some.inj h
    obtain ⟨queue', henqueue', hqueue', hcapacity, hcontents, -⟩ :=
      hqueue.enqueue_eq ⟨binding, entry.stamp raw⟩
    have heq := (Outcome.toOption_eq_some.mp henqueue).symm.trans henqueue'
    obtain ⟨-, rfl⟩ := Prod.mk.inj (Outcome.ok.inj heq)
    exact .received binding raw entry queue hentry hqueue' hcapacity hcontents
  | dequeue cancel =>
    rw [step] at h
    split at h
    on_goal 2 => exact nomatch h
    rename_i hidle
    obtain ⟨⟨answer, queue⟩, hround, h⟩ := Option.bind_eq_some_iff.mp h
    rw [Outcome.toOption_eq_some] at hround
    rcases hcontents : s.queue.contents with - | ⟨a, rest⟩
    · obtain heq := hround.symm.trans (hqueue.dequeueRound_nil hcontents cancel)
      obtain ⟨rfl, rfl⟩ := Prod.mk.inj (Outcome.ok.inj heq)
      have hwaited : Moves m source s (.dequeue cancel) _ := .waited cancel hidle hcontents
      cases cancel
      · obtain rfl := Option.some.inj h
        rwa [if_neg Bool.false_ne_true, ← hidle] at hwaited
      · obtain rfl := Option.some.inj h
        exact hwaited
    · obtain ⟨queue', hround', hqueue', hbuffer, hrest, -⟩ :=
        hqueue.dequeueRound_cons hcontents cancel
      obtain ⟨rfl, rfl⟩ := Prod.mk.inj (Outcome.ok.inj (hround.symm.trans hround'))
      obtain rfl := Option.some.inj h
      exact .took cancel a queue hidle (hrest ▸ hcontents) hqueue' (by rw [hbuffer])
  | work nowMs env appendFails =>
    rw [step] at h
    split at h
    on_goal 2 => exact nomatch h
    rename_i a hholding
    obtain ⟨⟨turned, runner⟩, hprocess, h⟩ := Option.bind_eq_some_iff.mp h
    obtain rfl := Option.some.inj h
    exact .processed nowMs env appendFails a turned runner hholding hprocess

/-! ## Messages come from bindings -/

/-- The message was stamped by the binding at its position. -/
def Stamped (m : Manager) (a : Arrival) : Prop :=
  ∃ entry, m.entries[a.binding]? = some entry ∧ a.msg.agentName = entry.agentName ∧
    a.msg.channelId = entry.channelId

structure Valid (m : Manager) (s : Pipeline σ) : Prop where
  queue : s.queue.WellFormed
  queued : ∀ a ∈ s.queue.contents, Stamped m a
  held : ∀ a, s.worker = .holding a → Stamped m a

theorem valid_start (m : Manager) (buffer : Buffer Arrival) (runner : σ) :
    Valid m (start buffer runner) where
  queue := Dispatch.wellFormed_init buffer
  queued a h := by
    rw [start, Dispatch.contents_init] at h
    exact nomatch h
  held _ h := nomatch h

theorem valid_step (h : Valid m s) {action : Action ε} (hstep : step m source s action = some s') :
    Valid m s' := by
  cases moves_of_step h.queue hstep with
  | received binding raw entry queue hentry hqueue hcapacity hcontents =>
    refine ⟨hqueue, fun a ha => ?_, h.held⟩
    rw [hcontents] at ha
    have hmem := (BoundedFifo.push_sublist _ _ _).subset ha
    rcases List.mem_append.mp hmem with ha | ha
    · exact h.queued a ha
    · obtain rfl := List.mem_singleton.mp ha
      exact ⟨entry, hentry, rfl, rfl⟩
  | took cancel a queue hidle hcons hqueue hcapacity =>
    refine ⟨hqueue, fun b hb => h.queued b (hcons ▸ List.mem_cons_of_mem a hb), fun b hb => ?_⟩
    obtain rfl := Worker.holding.inj hb
    exact h.queued a (hcons ▸ List.mem_cons_self)
  | waited cancel hidle hnil =>
    refine ⟨h.queue, h.queued, fun b hb => ?_⟩
    cases cancel <;> exact nomatch hb
  | processed nowMs env appendFails a turned runner hholding hprocess =>
    exact ⟨h.queue, h.queued, fun _ hb => nomatch hb⟩

end Pipeline

/-! ## A pipeline to try -/

/-- A queue of one cell. -/
def oneCell : Buffer Arrival where
  cells := [⟨0, { upstreamId := 0, conversationKey := [], senderId := [], text := [] }⟩]
  nonempty := Nat.one_pos
  fits := by decide

/-- A runner for every agent that says what it hears. -/
def echo : RunnerSource Unit Unit where
  run _ _ req := some (some { output := req.input }, ())

/-- One agent with one channel. -/
def oneAgent : Manager where
  entries := [⟨ascii "tiger", .telegram⟩]
  nodup := List.pairwise_singleton _ _

/-- Two agents, each with a channel of its own. -/
def twoAgents : Manager where
  entries := [⟨ascii "tiger", .telegram⟩, ⟨ascii "lion", .telegram⟩]
  nodup := by decide

/-- A message of the sender in the chat 5, received, taken up and processed. -/
def oneTurn (senderId : Bytes) : List (Pipeline.Action Unit) :=
  [.receive 0 { upstreamId := 1, conversationKey := ascii "5", senderId, text := ascii "hi" },
    .dequeue false, .work 1000 () false]

end Channels
end TigerClaw
