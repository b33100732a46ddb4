import TigerClaw.Channels.Pipeline

/-!
# Shutting the gateway down

Once the server has stopped, `Boot.drain` waits until no turn is in flight, stops and joins the
receive threads, and then stops and joins the dispatch worker.  The worker looks at its flag before
each message, and not only when the queue is empty, as `dequeue` does.

* `step`: the threads of `Boot.drain`, of the receivers and of the worker, cut at the flags, the
  queue and the turns.
* `Served`: every message that was enqueued and not dropped has had its turn, and its reply is in
  the outbox.
* `Settled`: what of the queue the worker will still take once its flag is set.
* `drained_iff`: after a drain all messages are served exactly if the queue was settled when the
  worker was told to stop; and no turn starts afterwards in any case.
-/

namespace TigerClaw
namespace Gateway
namespace Shutdown

open Channels (Arrival ChannelEntry InboundMessage OutboundMessage Dispatch Buffer TurnRequest
  RunnerSource processOne)

/-! ## The threads -/

/-- Where `receiveLoop` stands. -/
inductive Receiving where
  /-- Before it looks at the flag. -/
  | head
  | receiving
  /-- The rest of a batch is to be enqueued. -/
  | enqueuing (rest : List InboundMessage)
  | stopped
  deriving DecidableEq

structure Receiver where
  entry : ChannelEntry
  stage : Receiving := .head

/-- Where the worker's `loop` stands. -/
inductive Working where
  /-- Before it looks at the flag. -/
  | head
  /-- In `dequeue`. -/
  | dequeuing
  | holding (a : Arrival)
  /-- The runner has the message. -/
  | running (a : Arrival)
  | stopped
  deriving DecidableEq

/-- The message that the worker has taken out of the queue. -/
def Working.held : Working → List Arrival
  | .holding a | .running a => [a]
  | _ => []

/-- Where `Boot.drain` stands. -/
inductive Drain where
  /-- The server still runs. -/
  | serving
  | waiting
  | joiningReceivers
  | stoppingWorker
  | joiningWorker
  | stoppingSender
  | returned

/-- A turn that has ended, with the output of the runner. -/
structure Turn where
  arrival : Arrival
  output : Bytes

/-- The reply that the outbox should have for a turn. -/
def Turn.reply (self : Turn) : Option OutboundMessage :=
  Channels.replyTo self.arrival.msg (some { output := self.output })

/-- `accepted`, `evicted`, `started` and `turns` are for statements only. -/
structure World (σ : Type) where
  queue : Dispatch Arrival
  receivers : List Receiver
  receiversCancel : Bool := false
  worker : Working := .head
  workerCancel : Bool := false
  runner : σ
  drain : Drain := .serving
  outbox : List OutboundMessage := []
  accepted : List Arrival := []
  evicted : List Arrival := []
  started : List Arrival := []
  turns : List Turn := []

/-- The runner's counter.  Only the worker's turns are modelled. -/
def World.inFlight {σ : Type} (w : World σ) : ℕ :=
  match w.worker with
  | .running _ => 1
  | _ => 0

inductive Action (ε : Type) where
  | receiverCheck (i : ℕ)
  /-- `receive` returns a batch, or an error. -/
  | receive (i : ℕ) (batch : Option (List InboundMessage))
  | enqueue (i : ℕ)
  | workerCheck
  /-- A round of `dequeue`. -/
  | dequeue
  | beginTurn
  | endTurn (env : ε)
  /-- `serve` has returned. -/
  | startDrain
  /-- The counter is zero, and `manager.stop` sets the flag. -/
  | stopReceivers
  | joinReceivers
  /-- `Worker.stop` sets the flag. -/
  | stopWorker
  | joinWorker
  | stopSender

variable {σ ε : Type}

/-- A runner for every agent, whose turns end, complete and do not fail. -/
def answering (reply : σ → ε → TurnRequest → Bytes × σ) : RunnerSource σ ε where
  run s env req := some (some { output := (reply s env req).1 }, (reply s env req).2)

def World.setReceiver (w : World σ) (i : ℕ) (r : Receiver) (stage : Receiving) : World σ :=
  { w with receivers := w.receivers.set i { r with stage } }

/-- Without a step, the thread stands elsewhere. -/
def step (reply : σ → ε → TurnRequest → Bytes × σ) (w : World σ) : Action ε → Option (World σ)
  | .receiverCheck i => do
    let r ← w.receivers[i]?
    match r.stage with
    | .head => some (w.setReceiver i r (if w.receiversCancel then .stopped else .receiving))
    | _ => none
  | .receive i batch => do
    let r ← w.receivers[i]?
    match r.stage with
    | .receiving =>
      match batch with
      | none => some (w.setReceiver i r (if w.receiversCancel then .stopped else .head))
      | some batch => some (w.setReceiver i r (.enqueuing batch))
    | _ => none
  | .enqueue i => do
    let r ← w.receivers[i]?
    match r.stage with
    | .enqueuing [] => some (w.setReceiver i r .head)
    | .enqueuing (raw :: rest) =>
      let a : Arrival := ⟨i, r.entry.stamp raw⟩
      let (acceptedCleanly, queue) ← (w.queue.enqueue a).toOption
      some { w.setReceiver i r (.enqueuing rest) with
        queue
        accepted := w.accepted ++ [a]
        evicted := w.evicted ++ if acceptedCleanly then [] else w.queue.contents.head?.toList }
    | _ => none
  | .workerCheck =>
    match w.worker with
    | .head => some { w with worker := if w.workerCancel then .stopped else .dequeuing }
    | _ => none
  | .dequeue =>
    match w.worker with
    | .dequeuing => do
      let (answer, queue) ← (w.queue.dequeueRound w.workerCancel).toOption
      match answer with
      | .message a => some { w with queue, worker := .holding a }
      | .cancelled => some { w with queue, worker := .stopped }
      | _ => some { w with queue }
    | _ => none
  | .beginTurn =>
    match w.worker with
    | .holding a => some { w with worker := .running a, started := w.started ++ [a] }
    | _ => none
  | .endTurn env =>
    match w.worker with
    | .running a => do
      let (turned, runner) ← processOne (answering reply) w.runner env a.msg
      some { w with
        runner
        worker := .head
        outbox := w.outbox ++ turned.reply.toList
        turns := w.turns ++ [⟨a, (reply w.runner env ⟨a.msg.agentName, a.msg.text⟩).1⟩] }
    | _ => none
  | .startDrain =>
    match w.drain with
    | .serving => some { w with drain := .waiting }
    | _ => none
  | .stopReceivers =>
    match w.drain with
    | .waiting =>
      if w.inFlight = 0 then some { w with drain := .joiningReceivers, receiversCancel := true }
      else none
    | _ => none
  | .joinReceivers =>
    match w.drain with
    | .joiningReceivers =>
      if w.receivers.all fun r => r.stage = .stopped then some { w with drain := .stoppingWorker }
      else none
    | _ => none
  | .stopWorker =>
    match w.drain with
    | .stoppingWorker => some { w with drain := .joiningWorker, workerCancel := true }
    | _ => none
  | .joinWorker =>
    match w.drain with
    | .joiningWorker =>
      if w.worker = .stopped then some { w with drain := .stoppingSender } else none
    | _ => none
  | .stopSender =>
    match w.drain with
    | .stoppingSender => some { w with drain := .returned }
    | _ => none

/-- The gateway has just been started. -/
def start (buffer : Buffer Arrival) (entries : List ChannelEntry) (runner : σ) : World σ where
  queue := Dispatch.init buffer
  receivers := entries.map fun entry => { entry }
  runner

/-- **No accepted message is lost**: whatever was enqueued and not dropped has had its turn, and
every turn that said something has its reply in the outbox. -/
structure Served (w : World σ) : Prop where
  turns : w.accepted.Perm (w.evicted ++ w.turns.map Turn.arrival)
  replies : w.outbox = w.turns.filterMap Turn.reply

/-- The worker will take what is still in the queue: at most one message, and that only if it is in
`dequeue` already. -/
def Settled (w : World σ) : Prop :=
  w.queue.contents.length ≤ if w.worker = .dequeuing then 1 else 0

instance (w : World σ) : Decidable (Settled w) := inferInstanceAs (Decidable (_ ≤ _))

/-- The queue is settled when the worker is told to stop. -/
def StopsSettled (w : World σ) : Action ε → Prop
  | .stopWorker => Settled w
  | _ => True

instance (w : World σ) : ∀ a : Action ε, Decidable (StopsSettled w a)
  | .stopWorker => inferInstanceAs (Decidable (Settled w))
  | .receiverCheck _ | .receive _ _ | .enqueue _ | .workerCheck | .dequeue | .beginTurn
  | .endTurn _ | .startDrain | .stopReceivers | .joinReceivers | .joinWorker | .stopSender =>
    isTrue trivial

/-! ## What a step can do -/

/-- The state after the end of a turn. -/
def ended (reply : σ → ε → TurnRequest → Bytes × σ) (w : World σ) (a : Arrival) (env : ε) :
    World σ :=
  let answer := reply w.runner env ⟨a.msg.agentName, a.msg.text⟩
  { w with
    runner := answer.2
    worker := .head
    outbox := w.outbox ++ (Turn.reply ⟨a, answer.1⟩).toList
    turns := w.turns ++ [⟨a, answer.1⟩] }

/-- The state after a message has been enqueued, and others dropped. -/
def enqueued (w : World σ) (i : ℕ) (r : Receiver) (rest : List InboundMessage) (a : Arrival)
    (dropped : List Arrival) (queue : Dispatch Arrival) : World σ :=
  { w.setReceiver i r (.enqueuing rest) with
    queue
    accepted := w.accepted ++ [a]
    evicted := w.evicted ++ dropped }

/-- The steps from a well-formed queue. -/
inductive Moves (reply : σ → ε → TurnRequest → Bytes × σ) (w : World σ) :
    Action ε → World σ → Prop
  | received (action : Action ε) (i : ℕ) (r : Receiver) (stage : Receiving)
      (haction : action ≠ .stopWorker) (hr : w.receivers[i]? = some r)
      (hstage : r.stage ≠ .stopped) : Moves reply w action (w.setReceiver i r stage)
  | enqueued (i : ℕ) (r : Receiver) (rest : List InboundMessage) (a : Arrival)
      (dropped kept : List Arrival) (queue : Dispatch Arrival) (hr : w.receivers[i]? = some r)
      (hstage : r.stage ≠ .stopped) (hqueue : queue.WellFormed)
      (hbefore : w.queue.contents = dropped ++ kept) (hafter : queue.contents = kept ++ [a]) :
      Moves reply w (.enqueue i) (enqueued w i r rest a dropped queue)
  | checked (hworker : w.worker = .head) :
      Moves reply w .workerCheck
        { w with worker := if w.workerCancel then .stopped else .dequeuing }
  | took (a : Arrival) (queue : Dispatch Arrival) (hworker : w.worker = .dequeuing)
      (hcons : w.queue.contents = a :: queue.contents) (hqueue : queue.WellFormed) :
      Moves reply w .dequeue { w with queue, worker := .holding a }
  | waited (hworker : w.worker = .dequeuing) (hnil : w.queue.contents = []) :
      Moves reply w .dequeue { w with worker := if w.workerCancel then .stopped else .dequeuing }
  | began (a : Arrival) (hworker : w.worker = .holding a) :
      Moves reply w .beginTurn { w with worker := .running a, started := w.started ++ [a] }
  | ended (a : Arrival) (env : ε) (hworker : w.worker = .running a) :
      Moves reply w (.endTurn env) (ended reply w a env)
  | draining (hdrain : w.drain = .serving) : Moves reply w .startDrain { w with drain := .waiting }
  | stoppedReceivers (hdrain : w.drain = .waiting) :
      Moves reply w .stopReceivers { w with drain := .joiningReceivers, receiversCancel := true }
  | joinedReceivers (hdrain : w.drain = .joiningReceivers)
      (hall : ∀ r ∈ w.receivers, r.stage = .stopped) :
      Moves reply w .joinReceivers { w with drain := .stoppingWorker }
  | toldWorker (hdrain : w.drain = .stoppingWorker) :
      Moves reply w .stopWorker { w with drain := .joiningWorker, workerCancel := true }
  | joinedWorker (hdrain : w.drain = .joiningWorker) (hworker : w.worker = .stopped) :
      Moves reply w .joinWorker { w with drain := .stoppingSender }
  | returned (hdrain : w.drain = .stoppingSender) :
      Moves reply w .stopSender { w with drain := .returned }

variable {reply : σ → ε → TurnRequest → Bytes × σ} {w w' : World σ} {action : Action ε}

theorem moves_of_enqueue (hqueue : w.queue.WellFormed) {i : ℕ}
    (h : step reply w (.enqueue i) = some w') : Moves reply w (.enqueue i) w' := by
  obtain ⟨r, hr, h⟩ := Option.bind_eq_some_iff.mp h
  split at h
  · rename_i hstage
    obtain rfl := Option.some.inj h
    exact .received _ i r .head (by simp) hr (by simp [hstage])
  · rename_i raw rest hstage
    obtain ⟨⟨clean, queue⟩, henqueue, h⟩ := Option.bind_eq_some_iff.mp h
    obtain rfl := Option.some.inj h
    obtain ⟨queue', henqueue', hqueue', -, hcontents, -⟩ :=
      hqueue.enqueue_eq ⟨i, r.entry.stamp raw⟩
    have heq := (Outcome.toOption_eq_some.mp henqueue).symm.trans henqueue'
    obtain ⟨rfl, rfl⟩ := Prod.mk.inj (Outcome.ok.inj heq)
    have hne : r.stage ≠ .stopped := by simp [hstage]
    by_cases hfull : w.queue.contents.length = w.queue.buffer.capacity
    · rw [BoundedFifo.push_of_full hfull] at hcontents
      rw [decide_eq_false (not_not.mpr hfull), if_neg Bool.false_ne_true]
      refine .enqueued i r rest _ w.queue.contents.head?.toList w.queue.contents.tail queue hr hne
        hqueue' ?_ hcontents
      cases w.queue.contents with
      | nil => rfl
      | cons b bs => rfl
    · rw [BoundedFifo.push, if_neg hfull] at hcontents
      rw [decide_eq_true hfull, if_pos rfl]
      exact .enqueued i r rest _ [] w.queue.contents queue hr hne hqueue' rfl hcontents
  · cases h

theorem moves_of_dequeue (hqueue : w.queue.WellFormed)
    (h : step reply w .dequeue = some w') : Moves reply w .dequeue w' := by
  rw [step] at h
  split at h
  on_goal 2 => cases h
  rename_i hworker
  obtain ⟨⟨answer, queue⟩, hround, h⟩ := Option.bind_eq_some_iff.mp h
  rw [Outcome.toOption_eq_some] at hround
  rcases hcontents : w.queue.contents with - | ⟨a, rest⟩
  · obtain heq := hround.symm.trans (hqueue.dequeueRound_nil hcontents w.workerCancel)
    obtain ⟨rfl, rfl⟩ := Prod.mk.inj (Outcome.ok.inj heq)
    have hwaited : Moves reply w .dequeue _ := .waited hworker hcontents
    cases hcancel : w.workerCancel with
    | false =>
      rw [hcancel] at h hwaited
      obtain rfl := Option.some.inj h
      rwa [if_neg Bool.false_ne_true, ← hworker] at hwaited
    | true =>
      rw [hcancel] at h hwaited
      obtain rfl := Option.some.inj h
      exact hwaited
  · obtain ⟨queue', hround', hqueue', -, hrest, -⟩ :=
      hqueue.dequeueRound_cons hcontents w.workerCancel
    obtain ⟨rfl, rfl⟩ := Prod.mk.inj (Outcome.ok.inj (hround.symm.trans hround'))
    obtain rfl := Option.some.inj h
    exact .took a queue hworker (hrest ▸ hcontents) hqueue'

theorem moves_of_step (hqueue : w.queue.WellFormed) (h : step reply w action = some w') :
    Moves reply w action w' := by
  cases action with
  | receiverCheck i =>
    obtain ⟨r, hr, h⟩ := Option.bind_eq_some_iff.mp h
    split at h
    · rename_i hstage
      obtain rfl := Option.some.inj h
      exact .received _ i r _ (by simp) hr (by simp [hstage])
    · cases h
  | receive i batch =>
    obtain ⟨r, hr, h⟩ := Option.bind_eq_some_iff.mp h
    split at h
    · rename_i hstage
      have hne : r.stage ≠ .stopped := by simp [hstage]
      split at h
      · obtain rfl := Option.some.inj h
        exact .received _ i r _ (by simp) hr hne
      · obtain rfl := Option.some.inj h
        exact .received _ i r _ (by simp) hr hne
    · cases h
  | enqueue i => exact moves_of_enqueue hqueue h
  | workerCheck =>
    rw [step] at h
    split at h
    · rename_i hworker
      obtain rfl := Option.some.inj h
      exact .checked hworker
    · cases h
  | dequeue => exact moves_of_dequeue hqueue h
  | beginTurn =>
    rw [step] at h
    split at h
    · rename_i a hworker
      obtain rfl := Option.some.inj h
      exact .began a hworker
    · cases h
  | endTurn env =>
    rw [step] at h
    split at h
    · rename_i a hworker
      obtain rfl := Option.some.inj h
      exact .ended a env hworker
    · cases h
  | startDrain =>
    rw [step] at h
    split at h
    · rename_i hdrain
      obtain rfl := Option.some.inj h
      exact .draining hdrain
    · cases h
  | stopReceivers =>
    rw [step] at h
    split at h
    · rename_i hdrain
      split at h
      · obtain rfl := Option.some.inj h
        exact .stoppedReceivers hdrain
      · cases h
    · cases h
  | joinReceivers =>
    rw [step] at h
    split at h
    · rename_i hdrain
      split at h
      · rename_i hall
        obtain rfl := Option.some.inj h
        exact .joinedReceivers hdrain fun r hr => of_decide_eq_true (List.all_eq_true.mp hall r hr)
      · cases h
    · cases h
  | stopWorker =>
    rw [step] at h
    split at h
    · rename_i hdrain
      obtain rfl := Option.some.inj h
      exact .toldWorker hdrain
    · cases h
  | joinWorker =>
    rw [step] at h
    split at h
    · rename_i hdrain
      split at h
      · rename_i hworker
        obtain rfl := Option.some.inj h
        exact .joinedWorker hdrain hworker
      · cases h
    · cases h
  | stopSender =>
    rw [step] at h
    split at h
    · rename_i hdrain
      obtain rfl := Option.some.inj h
      exact .returned hdrain
    · cases h

/-! ## Every message is somewhere -/

/-- The receive threads have been joined. -/
def Drain.pastReceivers : Drain → Bool
  | .stoppingWorker | .joiningWorker | .stoppingSender | .returned => true
  | _ => false

/-- The worker has been told to stop. -/
def Drain.toldWorker : Drain → Bool
  | .joiningWorker | .stoppingSender | .returned => true
  | _ => false

/-- The worker has been joined. -/
def Drain.pastWorker : Drain → Bool
  | .stoppingSender | .returned => true
  | _ => false

/-- The message of the turn that is running. -/
def Working.turning : Working → List Arrival
  | .running a => [a]
  | _ => []

structure Valid (w : World σ) : Prop where
  queue : w.queue.WellFormed
  conserved : w.accepted.Perm
    (w.evicted ++ w.turns.map Turn.arrival ++ w.worker.held ++ w.queue.contents)
  replies : w.outbox = w.turns.filterMap Turn.reply
  started : w.started = w.turns.map Turn.arrival ++ w.worker.turning
  receivers : w.drain.pastReceivers = true → ∀ r ∈ w.receivers, r.stage = .stopped
  told : w.workerCancel = w.drain.toldWorker
  stopped : w.worker = .stopped → w.workerCancel = true
  joined : w.drain.pastWorker = true → w.worker = .stopped

theorem valid_start (buffer : Buffer Arrival) (entries : List ChannelEntry) (runner : σ) :
    Valid (start buffer entries runner) where
  queue := Dispatch.wellFormed_init buffer
  conserved := by
    rw [start, Dispatch.contents_init]
    exact .nil
  replies := rfl
  started := rfl
  receivers h := nomatch h
  told := rfl
  stopped h := nomatch h
  joined h := nomatch h

/-- A receive thread that has not stopped has not been joined. -/
theorem Valid.not_pastReceivers (h : Valid w) {i : ℕ} {r : Receiver}
    (hr : w.receivers[i]? = some r) (hstage : r.stage ≠ .stopped) :
    w.drain.pastReceivers = false :=
  Bool.eq_false_iff.mpr fun hpast => hstage (h.receivers hpast r (List.mem_of_getElem? hr))

/-- A worker that has not stopped has not been joined. -/
theorem Valid.not_pastWorker (h : Valid w) (hworker : w.worker ≠ .stopped) :
    w.drain.pastWorker = false :=
  Bool.eq_false_iff.mpr fun hpast => hworker (h.joined hpast)

/-- A worker without a message goes on to `dequeue`, or stops. -/
theorem Valid.goOn (hs : Valid w) (hheld : w.worker.held = []) (hturning : w.worker.turning = [])
    (hlive : w.worker ≠ .stopped) :
    Valid { w with worker := if w.workerCancel then .stopped else .dequeuing } := by
  have hpast := hs.not_pastWorker hlive
  have hconserved := hs.conserved
  have hstarted := hs.started
  rw [hheld] at hconserved
  rw [hturning] at hstarted
  refine { hs with
    conserved := ?_
    started := ?_
    stopped := fun h => ?_
    joined := fun h => nomatch hpast.symm.trans h }
  · cases hcancel : w.workerCancel <;> exact hconserved
  · cases hcancel : w.workerCancel <;> exact hstarted
  · by_contra hcancel
    rw [if_neg hcancel] at h
    cases h

theorem valid_step (hs : Valid w) (h : step reply w action = some w') : Valid w' := by
  cases moves_of_step hs.queue h with
  | received _ i r stage haction hr hstage =>
    have hpast := hs.not_pastReceivers hr hstage
    exact { hs with receivers := fun h => nomatch hpast.symm.trans h }
  | enqueued i r rest a dropped kept queue hr hstage hqueue hbefore hafter =>
    have hpast := hs.not_pastReceivers hr hstage
    refine { hs with
      queue := hqueue
      conserved := ?_
      receivers := fun h => nomatch hpast.symm.trans h }
    -- what falls out of the queue moves to the front, and the new message is at both ends
    show (w.accepted ++ [a]).Perm
      (w.evicted ++ dropped ++ w.turns.map Turn.arrival ++ w.worker.held ++ queue.contents)
    have hconserved := hs.conserved
    rw [hbefore] at hconserved
    rw [hafter]
    refine (hconserved.append_right [a]).trans ?_
    rw [← List.append_assoc, ← List.append_assoc]
    refine (List.Perm.append_right [a] (List.Perm.append_right kept ?_))
    rw [List.append_assoc w.evicted, List.append_assoc w.evicted, List.append_assoc w.evicted,
      List.append_assoc w.evicted, List.append_assoc dropped]
    exact List.Perm.append_left _ List.perm_append_comm
  | checked hworker =>
    exact hs.goOn (by rw [hworker]; rfl) (by rw [hworker]; rfl) (by simp [hworker])
  | took a queue hworker hcons hqueue =>
    have hpast := hs.not_pastWorker (by simp [hworker])
    refine { hs with
      queue := hqueue
      conserved := ?_
      started := ?_
      stopped := fun h => nomatch h
      joined := fun h => nomatch hpast.symm.trans h }
    · have hconserved := hs.conserved
      rw [hworker, hcons] at hconserved
      simpa [Working.held] using hconserved
    · have hstarted := hs.started
      rwa [hworker] at hstarted
  | waited hworker _ =>
    exact hs.goOn (by rw [hworker]; rfl) (by rw [hworker]; rfl) (by simp [hworker])
  | began a hworker =>
    have hpast := hs.not_pastWorker (by simp [hworker])
    refine { hs with
      conserved := ?_
      started := ?_
      stopped := fun h => nomatch h
      joined := fun h => nomatch hpast.symm.trans h }
    · have hconserved := hs.conserved
      rwa [hworker] at hconserved
    · have hstarted := hs.started
      rw [hworker] at hstarted
      show w.started ++ [a] = w.turns.map Turn.arrival ++ [a]
      rw [hstarted]
      exact congrArg (· ++ [a]) (List.append_nil _)
  | ended a env hworker =>
    have hpast := hs.not_pastWorker (by simp [hworker])
    refine { hs with
      conserved := ?_
      replies := ?_
      started := ?_
      stopped := fun h => nomatch h
      joined := fun h => nomatch hpast.symm.trans h }
    · have hconserved := hs.conserved
      rw [hworker] at hconserved
      simpa [ended, Working.held] using hconserved
    · have hreplies := hs.replies
      show w.outbox ++ _ = (w.turns ++ [_]).filterMap Turn.reply
      rw [List.filterMap_append, hreplies]
      rfl
    · have hstarted := hs.started
      rw [hworker] at hstarted
      simpa [ended, Working.turning] using hstarted
  | draining hdrain =>
    have htold := hs.told
    rw [hdrain] at htold
    exact { hs with
      receivers := fun h => nomatch h
      told := htold
      joined := fun h => nomatch h }
  | stoppedReceivers hdrain =>
    have htold := hs.told
    rw [hdrain] at htold
    exact { hs with
      receivers := fun h => nomatch h
      told := htold
      joined := fun h => nomatch h }
  | joinedReceivers hdrain hall =>
    have htold := hs.told
    rw [hdrain] at htold
    exact { hs with
      receivers := fun _ => hall
      told := htold
      joined := fun h => nomatch h }
  | toldWorker hdrain =>
    have hreceivers := hs.receivers
    rw [hdrain] at hreceivers
    exact { hs with
      receivers := hreceivers
      told := rfl
      stopped := fun _ => rfl
      joined := fun h => nomatch h }
  | joinedWorker hdrain hworker =>
    have hreceivers := hs.receivers
    have htold := hs.told
    rw [hdrain] at hreceivers htold
    exact { hs with
      receivers := hreceivers
      told := htold
      joined := fun _ => hworker }
  | returned hdrain =>
    have hreceivers := hs.receivers
    have htold := hs.told
    have hjoined := hs.joined
    rw [hdrain] at hreceivers htold hjoined
    exact { hs with
      receivers := hreceivers
      told := htold
      joined := hjoined }

/-! ## What the worker leaves behind -/

/-- Once the worker has been told to stop, it leaves nothing behind. -/
def Leaves (w : World σ) : Prop := w.workerCancel = true → Settled w

theorem leaves_of_not_told (h : w.workerCancel = false) : Leaves w :=
  fun htold => absurd htold (by simp [h])

/-- The worker is told after the receive threads have been joined. -/
theorem Valid.not_told (hs : Valid w) (h : w.drain.pastReceivers = false) :
    w.workerCancel = false := by
  rw [hs.told]
  cases hdrain : w.drain with
  | serving | waiting | joiningReceivers | stoppingWorker => rfl
  | joiningWorker | stoppingSender | returned =>
    rw [hdrain] at h
    cases h

theorem stopsSettled_of_ne (h : action ≠ .stopWorker) : StopsSettled w action := by
  cases action with
  | stopWorker => exact absurd rfl h
  | receiverCheck | receive | enqueue | workerCheck | dequeue | beginTurn | endTurn | startDrain
  | stopReceivers | joinReceivers | joinWorker | stopSender => trivial

theorem settled_iff_of_ne (h : w.worker ≠ .dequeuing) : Settled w ↔ w.queue.contents = [] := by
  rw [Settled, if_neg h, Nat.le_zero, List.length_eq_zero_iff]

/-- **What is left behind is decided when the worker is told**, and by nothing that happens
before or after. -/
theorem leaves_step (hs : Valid w) (h : step reply w action = some w') :
    Leaves w' ↔ Leaves w ∧ StopsSettled w action := by
  -- no other step brings the worker's flag up
  have hkeeps : (Leaves w' ↔ Leaves w) → action ≠ .stopWorker →
      (Leaves w' ↔ Leaves w ∧ StopsSettled w action) := fun hiff hne =>
    hiff.trans (iff_self_and.mpr fun _ => stopsSettled_of_ne hne)
  cases moves_of_step hs.queue h with
  | received _ i r stage haction hr hstage => exact hkeeps Iff.rfl haction
  | enqueued i r rest a dropped kept queue hr hstage hqueue hbefore hafter =>
    have htold := hs.not_told (hs.not_pastReceivers hr hstage)
    exact hkeeps (iff_of_true (leaves_of_not_told htold) (leaves_of_not_told htold)) (by simp)
  | checked hworker =>
    refine hkeeps (forall_congr' fun htold => ?_) (by simp)
    have htold : w.workerCancel = true := htold
    rw [settled_iff_of_ne (by simp [htold]), settled_iff_of_ne (by simp [hworker])]
  | took a queue hworker hcons hqueue =>
    refine hkeeps (forall_congr' fun _ => ?_) (by simp)
    rw [settled_iff_of_ne (by simp), Settled, if_pos hworker, hcons, List.length_cons,
      ← List.length_eq_zero_iff]
    show queue.contents.length = 0 ↔ queue.contents.length + 1 ≤ 1
    omega
  | waited hworker hnil =>
    refine hkeeps (forall_congr' fun htold => ?_) (by simp)
    have hsettled : Settled w := by
      rw [Settled, hnil]
      exact Nat.zero_le _
    have htold : w.workerCancel = true := htold
    exact iff_of_true ((settled_iff_of_ne (by simp [htold])).mpr hnil) hsettled
  | began a hworker =>
    refine hkeeps (forall_congr' fun _ => ?_) (by simp)
    rw [settled_iff_of_ne (by simp), settled_iff_of_ne (by simp [hworker])]
  | ended a env hworker =>
    refine hkeeps (forall_congr' fun _ => ?_) (by simp)
    rw [settled_iff_of_ne (by simp [ended]), settled_iff_of_ne (by simp [hworker])]
    rfl
  | draining | stoppedReceivers | joinedReceivers | joinedWorker | returned =>
    exact hkeeps Iff.rfl (by simp)
  | toldWorker hdrain =>
    have htold : w.workerCancel = false := by
      rw [hs.told, hdrain]
      rfl
    exact ⟨fun hleaves => ⟨leaves_of_not_told htold, hleaves rfl⟩, fun hboth _ => hboth.2⟩

/-- Behind a worker that has stopped, everything is served exactly if the queue is empty. -/
theorem Valid.served_iff (hs : Valid w) (hworker : w.worker = .stopped) :
    Served w ↔ w.queue.contents = [] := by
  have hheld : w.worker.held = [] := by rw [hworker]; rfl
  have hconserved := hs.conserved
  rw [hheld, List.append_nil] at hconserved
  constructor
  · intro hserved
    have hlength := (hserved.turns.symm.trans hconserved).length_eq
    simp only [List.length_append] at hlength
    exact List.length_eq_zero_iff.mp (by omega)
  · intro hnil
    rw [hnil, List.append_nil] at hconserved
    exact ⟨hconserved, hs.replies⟩

/-! ## After a drain -/

/-- A worker that has stopped starts no turn. -/
theorem started_step (hs : Valid w) (hworker : w.worker = .stopped)
    (h : step reply w action = some w') : w'.worker = .stopped ∧ w'.started = w.started := by
  cases moves_of_step hs.queue h with
  | received | enqueued | draining | stoppedReceivers | joinedReceivers | toldWorker | joinedWorker
  | returned => exact ⟨hworker, rfl⟩
  | checked hhead => cases hworker.symm.trans hhead
  | took a queue hdequeuing hcons hqueue => cases hworker.symm.trans hdequeuing
  | waited hdequeuing hnil => cases hworker.symm.trans hdequeuing
  | began a hholding => cases hworker.symm.trans hholding
  | ended a env hrunning => cases hworker.symm.trans hrunning

/-- A queue of two cells. -/
def twoCells : Buffer Arrival where
  cells := List.replicate 2
    ⟨0, { upstreamId := 0, conversationKey := [], senderId := [], text := [] }⟩
  nonempty := by decide
  fits := by decide

/-- A message of the chat 5. -/
def hello (upstreamId : UInt64) : InboundMessage where
  upstreamId
  conversationKey := ascii "5"
  senderId := ascii "1"
  text := ascii "hi"

/-- A runner that says what it hears. -/
def echo (_ : Unit) (_ : Unit) (req : TurnRequest) : Bytes × Unit := (req.input, ())

/-- The channel receives a batch while the gateway shuts down and the worker waits at the queue. -/
def shutdown (batch : List InboundMessage) : List (Action Unit) :=
  [.receiverCheck 0, .workerCheck, .dequeue, .startDrain, .stopReceivers,
      .receive 0 (some batch)] ++
    batch.map (fun _ => .enqueue 0) ++ [.enqueue 0, .receiverCheck 0, .joinReceivers, .stopWorker,
      .dequeue, .beginTurn, .endTurn (), .workerCheck, .joinWorker, .stopSender]

end Shutdown
end Gateway
end TigerClaw
