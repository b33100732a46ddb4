import TigerClaw.Channels.Interleaving
import TigerClaw.Channels.Pipeline

/-!
# Which binding a reply leaves by

The pipeline posts its replies in the outbox of the channel kind, and the sender of that kind
drains it.  A record on disk does not say which binding it answers, and the sender passes all of
them to the first binding that the manager has of the kind.

* `Exchange`: the manager's threads, the worker, the outbox and the sender, with what has been
  passed to the `send` of a binding.
* `Sent.Right`: what is passed to a `send` is the reply to a message of that binding, under the
  keys of that message.
* `Valid`, `valid_step`: the records in the outbox, and those in the sender's hands, say what the
  posted replies say, at the same positions.
* `sent_right_iff_first`: everything that is sent is right exactly in the runs in which the sender
  passes on only replies to messages of the first binding.
* `sent_right_of_single`: so it is in every run of a manager with one binding.
-/

namespace TigerClaw
namespace Channels

/-- `firstBinding`: the position of the first entry of that kind. -/
def Manager.firstBinding (self : Manager) (channelId : ChannelId) : Option ℕ :=
  self.entries.findIdx? (·.channelId == channelId)

/-- What has been passed to the `send` of a binding.  The origin, the reply that the record was
appended for in this run, is for statements only. -/
structure Sent where
  binding : ℕ
  msg : OutboundMessage
  origin : Option Posted

/-- `origins` says for each record of the outbox which reply it was appended for, and none for
those that were there before; it is for statements only, as `sent` is. -/
structure Exchange (σ : Type) where
  pipeline : Pipeline σ
  outbox : State
  origins : List (Option Posted)
  sent : List Sent := []

/-- The message of a record. -/
def Pending.message (self : Pending) : OutboundMessage :=
  ⟨self.conversationKey, self.threadKey, self.text⟩

def Reply.message (self : Reply) : OutboundMessage :=
  ⟨self.conversationKey, self.threadKey, self.text⟩

namespace Exchange

inductive Action (ε : Type) where
  /-- A step of a receive thread or of the worker, and the clocks of its append. -/
  | pipeline (action : Pipeline.Action ε) (nowUs nowMs : Int64)
  /-- A step of the sender thread. -/
  | sender (action : Channels.Action)

variable {σ ε : Type}

/-- The reply that the record was appended for. -/
def originAt (s : Exchange σ) (i : ℕ) : Option Posted := s.origins[i]?.join

/-- What a step of the sender passes to the `send` of the binding. -/
def passed (s : Exchange σ) (binding : ℕ) : Channels.Action → List Sent
  | .send _ =>
    match s.outbox.phase with
    | .sending cursor pending => [⟨binding, pending.message, s.originAt (cursor.index - 1)⟩]
    | _ => []
  | _ => []

/-- The appends for the replies that the worker has posted. -/
def appended (s : Exchange σ) (posted : List Posted) (nowUs nowMs : Int64) :
    Option (Exchange σ) :=
  posted.foldlM (fun s p => do
    let outbox ← Channels.step s.outbox (.append p.out nowUs nowMs)
    some { s with outbox, origins := s.origins ++ [some p] }) s

/-- The sender does nothing while there is no binding. -/
def step (m : Manager) (source : RunnerSource σ ε) (s : Exchange σ) :
    Action ε → Option (Exchange σ)
  | .pipeline action nowUs nowMs => do
    let pipeline ← Pipeline.step m source s.pipeline action
    let posted := pipeline.posted.drop s.pipeline.posted.length
    { s with pipeline }.appended posted nowUs nowMs
  | .sender action => do
    let binding ← m.firstBinding .telegram
    let outbox ← Channels.step s.outbox action
    if action.isSender then
      some { s with
        outbox
        origins := s.origins.take outbox.sender.file.length
        sent := s.sent ++ s.passed binding action }
    else none

/-- The threads have just been started; the outbox may hold records of an earlier process. -/
def start (buffer : Buffer Arrival) (runner : σ) (sender : Sender) (idCounter : UInt32) :
    Exchange σ where
  pipeline := Pipeline.start buffer runner
  outbox := Channels.start sender idCounter
  origins := sender.file.map fun _ => none

end Exchange

/-- **What is passed to a `send` is the reply to a message of that binding**, under the keys of
that message. -/
structure Sent.Right (e : Sent) (p : Posted) : Prop where
  binding : e.binding = p.arrival.binding
  conversationKey : e.msg.conversationKey = p.arrival.msg.conversationKey
  threadKey : e.msg.threadKey = p.arrival.msg.threadKey
  text : e.msg.text = p.out.text

/-- Everything that is sent for a reply of this run is right. -/
def Exchange.AllRight {σ : Type} (s : Exchange σ) : Prop :=
  ∀ e ∈ s.sent, ∀ p, e.origin = some p → e.Right p

/-! ## What the records say -/

/-- A record says what the reply says, under the keys of the message. -/
structure Answers (r : Reply) (p : Posted) : Prop where
  message : r.message = p.out
  conversationKey : p.out.conversationKey = p.arrival.msg.conversationKey
  threadKey : p.out.threadKey = p.arrival.msg.threadKey

/-- Every record that was appended for a reply answers it. -/
def Tells (replies : List Reply) (origins : List (Option Posted)) : Prop :=
  List.Forall₂ (fun r o => ∀ p, o = some p → Answers r p) replies origins

/-- The records in the sender's hands are the first of those in the file, and the one it sends
stands before the cursor's index. -/
def Phase.Held (file : List Reply) : Phase → Prop
  | .idle => True
  | .draining c | .acking c _ | .failing c _ => c.records.map Record.reply <+: file
  | .sending c p => c.records.map Record.reply <+: file ∧
      c.records[c.index - 1]?.map Record.pending = some p
  | .recording c records => c.records.map Record.reply <+: records.map Record.reply ∧
      records.map Record.reply <+: file

/-- What `scan` finds stands before the index that it returns. -/
theorem getElem?_of_scan {nowMs : Int64} {records : List Record} {index index' : ℕ} {p : Pending}
    (h : scan nowMs (records.drop index) index = (some p, index')) :
    records[index' - 1]?.map Record.pending = some p := by
  induction hrest : records.drop index generalizing index with
  | nil =>
    rw [hrest, scan] at h
    cases h
  | cons r rest ih =>
    have hr : records[index]? = some r := by
      rw [← List.head?_drop, hrest, List.head?_cons]
    have hdrop : records.drop (index + 1) = rest := by
      rw [← List.tail_drop, hrest, List.tail_cons]
    rw [hrest, scan] at h
    split at h
    · exact ih (hdrop ▸ h) hdrop
    · split at h
      · exact ih (hdrop ▸ h) hdrop
      · obtain ⟨hp, rfl⟩ := Prod.mk.inj h
        rw [Nat.add_sub_cancel, hr]
        exact hp

theorem Cursor.next_getElem? {c c' : Cursor} {nowMs : Int64} {p : Pending}
    (h : c.next nowMs = (some p, c')) : c'.records[c'.index - 1]?.map Record.pending = some p := by
  rcases hscan : scan nowMs (c.records.drop c.index) c.index with ⟨found, index⟩
  rw [Cursor.next, hscan] at h
  obtain ⟨rfl, rfl⟩ := Prod.mk.inj h
  exact getElem?_of_scan hscan

/-- What the sender is about to send is what `next` has found. -/
theorem next_of_step {s s' : State} {nowMs : Int64} {c' : Cursor} {p : Pending}
    (h : step s (.next nowMs) = some s') (hphase : s'.phase = .sending c' p) :
    c'.records[c'.index - 1]?.map Record.pending = some p := by
  rw [step.eq_def] at h
  dsimp only at h
  cases hdraining : s.phase with
  | draining c =>
    rw [hdraining] at h
    dsimp only at h
    rcases hnext : c.next nowMs with ⟨_ | q, c₁⟩
    · rw [hnext] at h
      obtain rfl := Option.some.inj h
      exact nomatch hphase
    · rw [hnext] at h
      dsimp only at h
      split at h
      · obtain rfl := Option.some.inj h
        exact nomatch hphase
      · obtain rfl := Option.some.inj h
        obtain ⟨rfl, rfl⟩ := Phase.sending.inj hphase
        exact Cursor.next_getElem? hnext
  | _ =>
    rw [hdraining] at h
    exact nomatch h

theorem Phase.Held.mono {file file' : List Reply} {phase : Phase} (h : phase.Held file)
    (hfile : file <+: file') : phase.Held file' := by
  cases phase with
  | idle => trivial
  | draining c | acking c p | failing c p => exact List.IsPrefix.trans h hfile
  | sending c p => exact ⟨h.1.trans hfile, h.2⟩
  | recording c records => exact ⟨h.1, h.2.trans hfile⟩

/-- **A step of the sender writes back only records that stand in the file**, at their places. -/
theorem held_of_step {s s' : State} {a : Channels.Action} (ha : a.isSender)
    (hs : s.phase.Held (s.sender.file.map Record.reply)) (h : step s a = some s') :
    s'.sender.file.map Record.reply <+: s.sender.file.map Record.reply ∧
      s'.phase.Held (s'.sender.file.map Record.reply) := by
  cases moves_of_step h with
  | appended msg nowUs nowMs r n => exact nomatch ha
  | opened hphase => exact ⟨List.prefix_refl _, List.prefix_refl _⟩
  | openFailed e hphase => exact ⟨List.prefix_refl _, hs⟩
  | drained nowMs => exact ⟨List.prefix_refl _, trivial⟩
  | skipped nowMs c c' hphase hc =>
    rw [hphase] at hs
    refine ⟨List.prefix_refl _, ?_⟩
    show c'.records.map Record.reply <+: _
    exact hc ▸ hs
  | found nowMs c c' p hphase hc hp =>
    rw [hphase] at hs
    refine ⟨List.prefix_refl _, ?_, next_of_step h rfl⟩
    exact hc ▸ hs
  | sent result c p phase hphase hnext =>
    rw [hphase] at hs
    refine ⟨List.prefix_refl _, ?_⟩
    rcases hnext with rfl | rfl
    · exact hs.1
    · exact hs.1
  | acked c c' p hphase hc =>
    rw [hphase] at hs
    refine ⟨?_, List.prefix_refl _⟩
    show c'.records.map Record.reply <+: _
    exact hc ▸ hs
  | ackFailed fault c c' p failedAcks hphase hc hp =>
    rw [hphase] at hs
    refine ⟨List.prefix_refl _, ?_⟩
    show c'.records.map Record.reply <+: _
    exact hc ▸ hs
  | loaded nowMs c p records hphase hr =>
    rw [hphase] at hs
    refine ⟨List.prefix_refl _, ?_, ?_⟩
    · exact hr ▸ hs
    · exact hr ▸ List.prefix_refl _
  | loadFailed nowMs fault c p hphase =>
    rw [hphase] at hs
    exact ⟨List.prefix_refl _, hs⟩
  | rewritten c records hphase =>
    rw [hphase] at hs
    exact ⟨hs.2, hs.1⟩
  | rewriteFailed e c records hphase =>
    rw [hphase] at hs
    exact ⟨List.prefix_refl _, hs.1.trans hs.2⟩

/-! ## The invariant -/

/-- The outbox and the sender's hands, against the replies that the records were appended for. -/
structure Tracked (outbox : State) (origins : List (Option Posted)) : Prop where
  tells : Tells (outbox.sender.file.map Record.reply) origins
  held : outbox.phase.Held (outbox.sender.file.map Record.reply)

theorem Tells.take {replies replies' : List Reply} {origins : List (Option Posted)}
    (h : Tells replies origins) (hpre : replies' <+: replies) :
    Tells replies' (origins.take replies'.length) := by
  have htake := List.forall₂_take replies'.length h
  rwa [← List.prefix_iff_eq_take.mp hpre] at htake

theorem Tells.append {replies : List Reply} {origins : List (Option Posted)}
    (h : Tells replies origins) {r : Reply} {p : Posted} (hanswers : Answers r p) :
    Tells (replies ++ [r]) (origins ++ [some p]) := by
  refine List.rel_append h (.cons (fun q hq => ?_) .nil)
  exact Option.some.inj hq ▸ hanswers

/-- A reply takes the keys of the message over. -/
theorem answers_of_processOne {σ ε : Type} {source : RunnerSource σ ε} {runner runner' : σ}
    {env : ε} {a : Arrival} {turned : Turned} {out : OutboundMessage}
    (h : processOne source runner env a.msg = some (turned, runner'))
    (hreply : turned.reply = some out) (id : Bytes) (nowMs : Int64) :
    Answers (newRecord id out nowMs).reply ⟨a, out⟩ := by
  obtain ⟨hkey, hthread⟩ := processOne_reply h hreply
  exact ⟨rfl, hkey, hthread⟩

namespace Exchange

variable {σ ε : Type} {m : Manager} {source : RunnerSource σ ε} {s s' : Exchange σ}

structure Valid (m : Manager) (s : Exchange σ) : Prop where
  pipeline : Pipeline.Valid m s.pipeline
  tracked : Tracked s.outbox s.origins
  stamped : ∀ p, some p ∈ s.origins → Pipeline.Stamped m p.arrival

theorem valid_start (m : Manager) (buffer : Buffer Arrival) (runner : σ) (sender : Sender)
    (idCounter : UInt32) : Valid m (start buffer runner sender idCounter) where
  pipeline := Pipeline.valid_start m buffer runner
  tracked := by
    refine ⟨?_, trivial⟩
    show Tells (sender.file.map Record.reply) (sender.file.map fun _ => none)
    rw [Tells, List.forall₂_map_left_iff, List.forall₂_map_right_iff]
    exact List.forall₂_same.mpr fun _ _ p hp => nomatch hp
  stamped p hp := by
    obtain ⟨r, -, hr⟩ := List.mem_map.mp hp
    exact nomatch hr

/-- **What a step of the pipeline does**: it posts one reply or none. -/
theorem posted_of_moves {p p' : Pipeline σ} {action : Pipeline.Action ε}
    (h : Pipeline.Moves m source p action p') :
    p'.posted = p.posted ∨ ∃ q : Posted, p'.posted = p.posted ++ [q] ∧
      p.worker = .holding q.arrival ∧ ∀ id nowMs, Answers (newRecord id q.out nowMs).reply q := by
  cases h with
  | received binding raw entry queue hentry hqueue hcapacity hcontents => exact .inl rfl
  | took cancel a queue hidle hcons hqueue hcapacity => exact .inl rfl
  | waited cancel hidle hnil => exact .inl rfl
  | processed nowMs env appendFails a turned runner hholding hprocess =>
    show (p.posted ++ _ = p.posted) ∨ _
    cases appendFails with
    | true => exact .inl (List.append_nil _)
    | false =>
      cases hreply : turned.reply with
      | none =>
        exact .inl (List.append_nil _)
      | some out =>
        refine .inr ⟨⟨a, out⟩, ?_, hholding, answers_of_processOne hprocess hreply⟩
        simp [Pipeline.worked, hreply]

/-- The steps from a valid state. -/
inductive Moves (m : Manager) (source : RunnerSource σ ε) (s : Exchange σ) :
    Action ε → Exchange σ → Prop
  | kept (action : Pipeline.Action ε) (nowUs nowMs : Int64) (pipeline : Pipeline σ)
      (hstep : Pipeline.step m source s.pipeline action = some pipeline) :
      Moves m source s (.pipeline action nowUs nowMs) { s with pipeline }
  | posted (action : Pipeline.Action ε) (nowUs nowMs : Int64) (pipeline : Pipeline σ)
      (q : Posted) (outbox : State)
      (hstep : Pipeline.step m source s.pipeline action = some pipeline)
      (happend : Channels.step s.outbox (.append q.out nowUs nowMs) = some outbox)
      (hstamped : Pipeline.Stamped m q.arrival)
      (hanswers : ∀ id nowMs, Answers (newRecord id q.out nowMs).reply q) :
      Moves m source s (.pipeline action nowUs nowMs)
        { s with pipeline, outbox, origins := s.origins ++ [some q] }
  | drained (action : Channels.Action) (binding : ℕ) (outbox : State)
      (hbinding : m.firstBinding .telegram = some binding) (hsender : action.isSender)
      (hstep : Channels.step s.outbox action = some outbox) :
      Moves m source s (.sender action)
        { s with
          outbox
          origins := s.origins.take outbox.sender.file.length
          sent := s.sent ++ s.passed binding action }

theorem moves_of_step (hs : Valid m s) {action : Action ε} (h : step m source s action = some s') :
    Moves m source s action s' := by
  cases action with
  | pipeline action nowUs nowMs =>
    obtain ⟨pipeline, hstep, h⟩ := Option.bind_eq_some_iff.mp h
    rcases posted_of_moves (Pipeline.moves_of_step hs.pipeline.queue hstep) with
      hsame | ⟨q, hposted, hholding, hanswers⟩
    · dsimp only at h
      rw [hsame, List.drop_length] at h
      obtain rfl := Option.some.inj h
      exact .kept action nowUs nowMs pipeline hstep
    · dsimp only at h
      rw [hposted, List.drop_left, appended, List.foldlM_cons] at h
      obtain ⟨s₁, h₁, h⟩ := Option.bind_eq_some_iff.mp h
      obtain ⟨outbox, happend, h₁⟩ := Option.bind_eq_some_iff.mp h₁
      obtain rfl := Option.some.inj h₁
      obtain rfl := Option.some.inj h
      exact .posted action nowUs nowMs pipeline q outbox hstep happend
        (hs.pipeline.held q.arrival hholding) hanswers
  | sender action =>
    obtain ⟨binding, hbinding, h⟩ := Option.bind_eq_some_iff.mp h
    obtain ⟨outbox, hstep, h⟩ := Option.bind_eq_some_iff.mp h
    split at h
    · rename_i hsender
      obtain rfl := Option.some.inj h
      exact .drained action binding outbox hbinding hsender hstep
    · exact nomatch h

theorem valid_step (hs : Valid m s) {action : Action ε} (h : step m source s action = some s') :
    Valid m s' := by
  cases moves_of_step hs h with
  | kept action nowUs nowMs pipeline hstep =>
    exact ⟨Pipeline.valid_step hs.pipeline hstep, hs.tracked, hs.stamped⟩
  | posted action nowUs nowMs pipeline q outbox hstep happend hstamped hanswers =>
    refine ⟨Pipeline.valid_step hs.pipeline hstep, ?_, fun p hp => ?_⟩
    on_goal 2 =>
      rcases List.mem_append.mp hp with hp | hp
      · exact hs.stamped p hp
      · obtain rfl := Option.some.inj (List.mem_singleton.mp hp)
        exact hstamped
    obtain rfl := Option.some.inj happend
    refine ⟨?_, hs.tracked.held.mono ?_⟩
    · show Tells (List.map Record.reply (_ ++ [_])) _
      rw [List.map_append]
      exact hs.tracked.tells.append (hanswers _ nowMs)
    · show _ <+: List.map Record.reply (_ ++ [_])
      rw [List.map_append]
      exact List.prefix_append _ _
  | drained action binding outbox hbinding hsender hstep =>
    obtain ⟨hpre, hheld⟩ := held_of_step hsender hs.tracked.held hstep
    have htells := hs.tracked.tells.take hpre
    rw [List.length_map] at htells
    exact ⟨hs.pipeline, ⟨htells, hheld⟩, fun p hp => hs.stamped p (List.mem_of_mem_take hp)⟩

/-! ## When replies leave by the right binding -/

/-- The sender passes on no reply to a message of another binding than the first. -/
def FromFirst (m : Manager) (s : Exchange σ) : Action ε → Prop
  | .sender (.send _) => ∀ cursor pending p, s.outbox.phase = .sending cursor pending →
      s.originAt (cursor.index - 1) = some p → m.firstBinding .telegram = some p.arrival.binding
  | _ => True

/-- The record that the sender passes on answers the message that it was appended for. -/
theorem answers_of_sending (hs : Valid m s) {cursor : Cursor} {pending : Pending} {p : Posted}
    (hphase : s.outbox.phase = .sending cursor pending)
    (horigin : s.originAt (cursor.index - 1) = some p) :
    pending.message = p.out ∧ p.out.conversationKey = p.arrival.msg.conversationKey ∧
      p.out.threadKey = p.arrival.msg.threadKey := by
  obtain ⟨hpre, hpending⟩ := hphase ▸ hs.tracked.held
  obtain ⟨r, hr, rfl⟩ := Option.map_eq_some_iff.mp hpending
  have hreply : (s.outbox.sender.file.map Record.reply)[cursor.index - 1]? = some r.reply := by
    obtain ⟨rest, hrest⟩ := hpre
    have hlt : cursor.index - 1 < (cursor.records.map Record.reply).length := by
      rw [List.length_map]
      exact (List.getElem?_eq_some_iff.mp hr).1
    rw [← hrest, List.getElem?_append_left hlt, List.getElem?_map, hr, Option.map_some]
  rw [originAt, Option.join_eq_some_iff] at horigin
  obtain ⟨hlt, hreply⟩ := List.getElem?_eq_some_iff.mp hreply
  obtain ⟨hlt', horigin⟩ := List.getElem?_eq_some_iff.mp horigin
  have hsaid := (List.forall₂_iff_get.mp hs.tracked.tells).2 (cursor.index - 1) hlt hlt'
  rw [List.get_eq_getElem, List.get_eq_getElem, hreply, horigin] at hsaid
  obtain ⟨hmessage, hkey, hthread⟩ := hsaid p rfl
  exact ⟨hmessage, hkey, hthread⟩

/-- **A step keeps everything right exactly if it passes on no reply of another binding.** -/
theorem allRight_step_iff (hs : Valid m s) (hright : s.AllRight) {action : Action ε}
    (h : step m source s action = some s') : s'.AllRight ↔ FromFirst m s action := by
  cases moves_of_step hs h with
  | kept action nowUs nowMs pipeline hstep => exact iff_of_true hright trivial
  | posted action nowUs nowMs pipeline q outbox hstep happend hstamped hanswers =>
    exact iff_of_true hright trivial
  | drained action binding outbox hbinding hsender hstep =>
    cases action with
    | send result =>
      have hphase : ∃ cursor pending, s.outbox.phase = .sending cursor pending := by
        cases Channels.moves_of_step hstep with
        | sent _ c p phase hphase hnext => exact ⟨c, p, hphase⟩
      obtain ⟨cursor, pending, hphase⟩ := hphase
      have hpassed : s.passed binding (.send result) =
          [⟨binding, pending.message, s.originAt (cursor.index - 1)⟩] := by
        rw [passed, hphase]
      constructor
      · intro hright' c p q hsending horigin
        obtain ⟨rfl, rfl⟩ := Phase.sending.inj (hphase.symm.trans hsending)
        have hmem := List.mem_append_right s.sent (hpassed ▸ List.mem_singleton_self _)
        have hbinding' := (hright' _ hmem q horigin).binding
        exact hbinding' ▸ hbinding
      · intro hfirst e he p horigin
        rcases List.mem_append.mp he with he | he
        · exact hright e he p horigin
        · rw [hpassed] at he
          obtain rfl := List.mem_singleton.mp he
          obtain ⟨hmessage, hkey, hthread⟩ := answers_of_sending hs hphase horigin
          have heq := hbinding.symm.trans (hfirst cursor pending p hphase horigin)
          refine ⟨Option.some.inj heq, ?_, ?_, ?_⟩
          · rw [hmessage, hkey]
          · rw [hmessage, hthread]
          · rw [hmessage]
    | append msg nowUs nowMs => exact nomatch hsender
    | snapshot fault | next nowMs | ack fault | load nowMs fault | rewrite fault =>
      refine iff_of_true (fun e he => hright e ?_) trivial
      rw [← List.append_nil s.sent]
      exact he

/-- **Everything that is sent is right exactly in the runs in which the sender passes on only
replies to messages of the first binding.** -/
theorem sent_right_iff_first {buffer : Buffer Arrival} {runner : σ} {sender : Sender}
    {idCounter : UInt32} {as : List (Action ε)} {t : Exchange σ}
    (h : StepMachine.run (step m source) (start buffer runner sender idCounter) as = some t) :
    (∀ before s', before <+: as →
        StepMachine.run (step m source) (start buffer runner sender idCounter) before = some s' →
        s'.AllRight) ↔
      StepMachine.Along (step m source) (FromFirst m) (start buffer runner sender idCounter) as :=
  StepMachine.always_iff_along (I := Valid m) (fun _ _ _ hs hstep => valid_step hs hstep)
    (fun _ _ _ hs hright hstep => allRight_step_iff hs hright hstep)
    (valid_start m buffer runner sender idCounter) (fun _ he => nomatch he) h

/-- A message is received on a binding and answered, and the answer is passed on. -/
def oneReply (binding : ℕ) (raw : InboundMessage) : List (Action Unit) :=
  [.pipeline (.receive binding raw) 0 0, .pipeline (.dequeue false) 0 0,
    .pipeline (.work 0 () false) 0 0, .sender (.snapshot none), .sender (.next 0),
    .sender (.send (.ok ()))]

/-- Hi in the chat 5. -/
def hi : InboundMessage :=
  { upstreamId := 1, conversationKey := ascii "5", senderId := ascii "alice", text := ascii "hi" }

/-- With one agent the reply to hi leaves by its binding. -/
theorem sent_right_oneAgent : ∃ t, StepMachine.run (step oneAgent echo)
      (start oneCell () { file := [] } 0) (oneReply 0 hi) = some t ∧
    t.sent.length = 1 ∧ t.AllRight := by
  have hrun : StepMachine.run (step oneAgent echo) (start oneCell () { file := [] } 0)
      (oneReply 0 hi) = some _ := rfl
  refine ⟨_, hrun, rfl, (sent_right_iff_first hrun).mpr ?_ _ _ (List.prefix_refl _) hrun⟩
  refine (StepMachine.along_cons rfl).mpr ⟨trivial, (StepMachine.along_cons rfl).mpr ⟨trivial,
    (StepMachine.along_cons rfl).mpr ⟨trivial, (StepMachine.along_cons rfl).mpr ⟨trivial,
      (StepMachine.along_cons rfl).mpr ⟨trivial, fun cursor pending p hphase horigin => ?_,
        fun _ _ => trivial⟩⟩⟩⟩⟩
  obtain ⟨rfl, -⟩ := Phase.sending.inj hphase
  obtain rfl := Option.some.inj horigin
  rfl

/-- The lion is asked, and its reply leaves by the binding of the tiger. -/
theorem sent_by_first : ∃ t, StepMachine.run (step twoAgents echo)
      (start oneCell () { file := [] } 0) (oneReply 1 hi) = some t ∧
    t.sent.map (fun e => (e.binding, e.origin.map (·.arrival.binding))) = [(0, some 1)] ∧
    ¬ t.AllRight := by
  refine ⟨_, rfl, rfl, fun hright => ?_⟩
  exact Nat.zero_ne_one (hright _ (List.mem_singleton_self _) _ rfl).binding

/-! ## Managers with one binding, and with more -/

theorem firstBinding_of_ne_nil (hne : m.entries ≠ []) :
    m.firstBinding .telegram = some 0 := by
  rw [Manager.firstBinding]
  cases hentries : m.entries with
  | nil => exact absurd hentries hne
  | cons e rest =>
    rw [List.findIdx?_cons]
    cases e.channelId
    rfl

/-- **With one binding everything that is sent is right.** -/
theorem sent_right_of_single (hsingle : m.entries.length ≤ 1) {buffer : Buffer Arrival}
    {runner : σ} {sender : Sender} {idCounter : UInt32} {as : List (Action ε)} {t : Exchange σ}
    (h : StepMachine.run (step m source) (start buffer runner sender idCounter) as = some t) :
    t.AllRight := by
  have hfirst : ∀ s : Exchange σ, Valid m s → ∀ action : Action ε, FromFirst m s action := by
    rintro s hs (_ | action)
    · trivial
    · cases action with
      | send result =>
        intro cursor pending p hphase horigin
        rw [originAt, Option.join_eq_some_iff] at horigin
        obtain ⟨entry, hentry, -⟩ := hs.stamped p (List.mem_of_getElem? horigin)
        have hlt := (List.getElem?_eq_some_iff.mp hentry).1
        rw [firstBinding_of_ne_nil (List.ne_nil_of_length_pos (by omega))]
        exact congrArg some (by omega)
      | _ => trivial
  refine (StepMachine.invariant_run (I := fun s => Valid m s ∧ s.AllRight) ?_
    ⟨valid_start m buffer runner sender idCounter, fun _ he => nomatch he⟩ h).2
  rintro s action s' ⟨hs, hright⟩ hstep
  exact ⟨valid_step hs hstep, (allRight_step_iff hs hright hstep).mpr (hfirst s hs action)⟩

/-- With two bindings a reply can leave by the wrong one: the second is asked, and the first
answers. -/
theorem not_right_of_two {first second : ChannelEntry} {rest : List ChannelEntry}
    (hentries : m.entries = first :: second :: rest) :
    ∃ t, StepMachine.run (step m echo) (start oneCell () { file := [] } 0) (oneReply 1 hi) =
      some t ∧ ¬ t.AllRight := by
  obtain ⟨entries, nodup⟩ := m
  obtain rfl : entries = _ := hentries
  obtain ⟨agentName, channelId⟩ := first
  cases channelId
  refine ⟨_, rfl, fun hright => ?_⟩
  exact Nat.zero_ne_one (hright _ (List.mem_singleton_self _) _ rfl).binding

/-- **The managers all of whose runs send only what is right are those with at most one
binding.** -/
theorem single_iff_always_right :
    m.entries.length ≤ 1 ↔ ∀ (σ ε : Type) (source : RunnerSource σ ε) (buffer : Buffer Arrival)
      (runner : σ) (sender : Sender) (idCounter : UInt32) (as : List (Action ε)) (t : Exchange σ),
      StepMachine.run (step m source) (start buffer runner sender idCounter) as = some t →
        t.AllRight := by
  constructor
  · intro hsingle σ ε source buffer runner sender idCounter as t h
    exact sent_right_of_single hsingle h
  · intro hall
    by_contra hmany
    match hentries : m.entries with
    | [] => simp [hentries] at hmany
    | [first] => simp [hentries] at hmany
    | first :: second :: rest =>
      obtain ⟨t, hrun, hnot⟩ := not_right_of_two hentries
      exact hnot (hall _ _ echo oneCell () { file := [] } 0 _ t hrun)

end Exchange

end Channels
end TigerClaw
