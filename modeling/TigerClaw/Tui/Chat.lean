import TigerClaw.Library.StepMachine
import TigerClaw.Tui.Book

/-!
# The widget and its workers

The thread of the widget takes what the user does, and the events at the head of its queue.  Every
worker has a thread that posts events until its turn is done; the timeout of a sub-turn has one of
its own.

* `step`: the threads, cut at the events.
* `Moves`, `moves_of_step`: what a step does to the sub-turns.
-/

namespace TigerClaw
namespace Tui
namespace Chat

/-- What a worker posts while its turn runs. -/
inductive WorkerEvent where
  | chunk (text : Bytes)
  | toolStart (id name argsSummary : Bytes)
  | toolProgress (id chunk : Bytes)
  | toolDone (id name output : Bytes) (isError : Bool)
  | usage (ctxUsed : UInt64)
  | error (message : Bytes)
  /-- `askUserPost`. -/
  | askUser (question : Bytes)
  /-- `askUserCancel`. -/
  | askUserCancel

/-- The payload: stamped by the worker, but for a question, which reads the widget's epoch. -/
def WorkerEvent.payload (ctx : WorkerCtx) (turnEpoch : UInt64) : WorkerEvent → UserEvent
  | .chunk text => .chunk ctx.epoch ctx.sessionId text
  | .toolStart id name argsSummary => .toolStart ctx.epoch ctx.sessionId id name argsSummary
  | .toolProgress id bytes => .toolProgress ctx.epoch ctx.sessionId id bytes
  | .toolDone id name output isError => .toolDone ctx.epoch ctx.sessionId id name output isError
  | .usage ctxUsed => .usage ctx.epoch ctxUsed
  | .error message => .error ctx.epoch message
  | .askUser question => .askUser turnEpoch question
  | .askUserCancel => .askUserCancel

/-- `postDone`: the worker's own metadata come back from the runner. -/
def donePayload (ctx : WorkerCtx) (output : Bytes) : DonePayload where
  epoch := ctx.epoch
  dispatchKind := ctx.dispatchKind
  invoker := ctx.invoker
  targetAgent := ctx.sessionId
  mentionIdx := ctx.mentionOrderIdx
  output := output

/-- The payload of the timeout of a sub-turn. -/
def timeoutPayload (ctx : WorkerCtx) : UserEvent :=
  .subturnTimeout ctx.epoch (ctx.invoker.getD []) ctx.sessionId ctx.mentionOrderIdx

/-- An event in the queue, and the worker that it comes from, for statements only. -/
structure Posted where
  event : UserEvent
  ctx : WorkerCtx

/-- `watchdogs` are the sub-turns whose time runs.  `outputs` says what the workers have returned,
and `subturns` how many sub-turns have been started since the last turn began; both are for
statements only. -/
structure World where
  root : Root
  workers : List WorkerCtx := []
  watchdogs : List WorkerCtx := []
  queue : List Posted := []
  outputs : List (ℕ × Bytes) := []
  subturns : ℕ := 0

inductive Action where
  /-- The user submits a line. -/
  | submit (now : ℤ) (spawnError : Option Bytes) (text : Bytes)
  | escape
  /-- Ctrl-B. -/
  | toggle
  /-- The `i`th worker posts an event. -/
  | post (i : ℕ) (event : WorkerEvent)
  /-- Its turn is done; a turn that has failed has an empty output. -/
  | finish (i : ℕ) (output : Bytes)
  /-- It takes the reply of the user. -/
  | takeReply (i : ℕ)
  /-- The time of the `i`th sub-turn is over. -/
  | expire (i : ℕ)
  /-- The event at the head of the queue is handled. -/
  | handle (now : ℤ) (faults : List (Option DispatchFault))

def step (host : Host) (w : World) : Action → Option World
  | .submit now spawnError text =>
    let (root, started) := w.root.onSubmit host now spawnError text
    some { w with
      root
      workers := w.workers ++ started
      subturns := if root.turns = w.root.turns then w.subturns else 0 }
  | .escape => if w.root.turnStartedMs = 0 then none else some { w with root := w.root.escape }
  | .toggle => some { w with root := w.root.toggleAllToolExpand host.toFormat }
  | .post i event =>
    match w.workers[i]? with
    | none => none
    | some ctx => some { w with queue := w.queue ++ [⟨event.payload ctx w.root.turnEpoch, ctx⟩] }
  | .finish i output =>
    match w.workers[i]? with
    | none => none
    | some ctx => some { w with
        workers := w.workers.eraseIdx i
        queue := w.queue ++ [⟨.done (donePayload ctx output), ctx⟩]
        outputs := w.outputs ++ [(ctx.serial, output)] }
  | .takeReply i =>
    match w.workers[i]? with
    | none => none
    | some _ => some { w with root := { w.root with pendingReply := none } }
  | .expire i =>
    match w.watchdogs[i]? with
    | none => none
    | some ctx => some { w with
        watchdogs := w.watchdogs.eraseIdx i
        queue := w.queue ++ [⟨timeoutPayload ctx, ctx⟩] }
  | .handle now faults =>
    match w.queue with
    | [] => none
    | posted :: queue =>
      let (root, started) := w.root.handleUserEvent host now faults posted.event
      some { w with
        root
        queue
        workers := w.workers ++ started.map Prod.fst
        watchdogs := w.watchdogs ++ (started.filter Prod.snd).map Prod.fst
        subturns := w.subturns + started.length }

/-- The widget before the first line of the user. -/
def start (agentNames : List Bytes) (sessionId userName : Bytes) (maxCalls : UInt8)
    (timeoutSecs : UInt32) (history : List Line) : World where
  root := { history, sessionId, userName, agentNames, autoDispatchMaxCalls := maxCalls,
            autoDispatchSubturnTimeoutSecs := timeoutSecs }

/-- For text without markup, quick tools and no commands. -/
def plain : Host where
  seconds _ := []
  markdown text := some text
  command _ _ := {}

/-! ## What a step can do -/

/-- A turn begins, and nothing of the last one counts; or the user does something else. -/
def turnsCounted (w : World) (root : Root) : ℕ :=
  if root.turns = w.root.turns then w.subturns else 0

/-- **A step, as far as the sub-turns go.** -/
inductive Moves (w : World) : Action → World → Prop
  | submitted (now : ℤ) (spawnError : Option Bytes) (text : Bytes) (root : Root)
      (started : List WorkerCtx) (hsubmitted : Submitted w.root.book root.book started) :
      Moves w (.submit now spawnError text) { w with
        root, workers := w.workers ++ started, subturns := turnsCounted w root }
  /-- The user or a worker does something to the lines or the reply. -/
  | touched (a : Action) (root : Root) (hbook : root.book = w.root.book) : Moves w a { w with root }
  | posted (i : ℕ) (event : WorkerEvent) (ctx : WorkerCtx) (hctx : w.workers[i]? = some ctx) :
      Moves w (.post i event)
        { w with queue := w.queue ++ [⟨event.payload ctx w.root.turnEpoch, ctx⟩] }
  | finished (i : ℕ) (output : Bytes) (ctx : WorkerCtx) (hctx : w.workers[i]? = some ctx) :
      Moves w (.finish i output) { w with
        workers := w.workers.eraseIdx i
        queue := w.queue ++ [⟨.done (donePayload ctx output), ctx⟩]
        outputs := w.outputs ++ [(ctx.serial, output)] }
  | expired (i : ℕ) (ctx : WorkerCtx) (hctx : w.watchdogs[i]? = some ctx) :
      Moves w (.expire i) { w with
        watchdogs := w.watchdogs.eraseIdx i
        queue := w.queue ++ [⟨timeoutPayload ctx, ctx⟩] }
  | handled (now : ℤ) (faults : List (Option DispatchFault)) (event : Posted) (queue : List Posted)
      (root : Root) (started : List (WorkerCtx × Bool)) (hqueue : w.queue = event :: queue)
      (hhandled : Handled w.root.book faults event.event root.book started) :
      Moves w (.handle now faults) { w with
        root
        queue
        workers := w.workers ++ started.map Prod.fst
        watchdogs := w.watchdogs ++ (started.filter Prod.snd).map Prod.fst
        subturns := w.subturns + started.length }

theorem moves_of_step {host : Host} {w w' : World} {a : Action} (h : step host w a = some w') :
    Moves w a w' := by
  cases a with
  | submit now spawnError text =>
    obtain rfl := Option.some.inj h
    exact .submitted now spawnError text _ _
      (submitted_onSubmit host w.root now spawnError text)
  | escape =>
    rw [step] at h
    split at h
    · cases h
    · obtain rfl := Option.some.inj h
      exact .touched _ _ (Root.book_escape w.root)
  | toggle =>
    obtain rfl := Option.some.inj h
    exact .touched _ _ rfl
  | post i event =>
    rw [step] at h
    split at h
    · cases h
    · rename_i ctx hctx
      obtain rfl := Option.some.inj h
      exact .posted i event ctx hctx
  | finish i output =>
    rw [step] at h
    split at h
    · cases h
    · rename_i ctx hctx
      obtain rfl := Option.some.inj h
      exact .finished i output ctx hctx
  | takeReply i =>
    rw [step] at h
    split at h
    · cases h
    · obtain rfl := Option.some.inj h
      exact .touched _ { w.root with pendingReply := none } rfl
  | expire i =>
    rw [step] at h
    split at h
    · cases h
    · rename_i ctx hctx
      obtain rfl := Option.some.inj h
      exact .expired i ctx hctx
  | handle now faults =>
    rw [step] at h
    split at h
    · cases h
    · rename_i event queue hqueue
      obtain rfl := Option.some.inj h
      exact .handled now faults event queue _ _ hqueue
        (handled_handleUserEvent host w.root now faults event.event)

end Chat
end Tui
end TigerClaw
