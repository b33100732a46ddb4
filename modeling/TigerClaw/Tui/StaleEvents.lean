import Mathlib.Algebra.Group.Nat.Defs
import TigerClaw.Tui.Chat

/-!
# Events of an earlier turn

A worker that outlives its turn goes on posting events.  Their payloads have the epoch that the
worker was started with, by which the widget drops them; but a question is stamped with the epoch of
the widget when it is posted, and the cancel of a question has no payload.

* `Untouched`: what an event of an earlier turn is to leave as it is.
* `Stamped`: which epoch the events in the queue have.
* `untouched_of_current`: such events are harmless, if only workers of the current turn ask.
-/

namespace TigerClaw
namespace Tui
namespace Chat

/-- What the user sees of a turn, and what the turn depends on. -/
structure Untouched (r r' : Root) : Prop where
  history : r'.history = r.history
  pending : r'.pending = r.pending
  subturnSlots : r'.subturnSlots = r.subturnSlots
  askUserPending : r'.askUserPending = r.askUserPending
  pendingReply : r'.pendingReply = r.pendingReply

theorem Untouched.refl (r : Root) : Untouched r r := ⟨rfl, rfl, rfl, rfl, rfl⟩

/-- The epochs do not come round, a question is of the current turn, and where the cancel of an
earlier one is handled there is nothing to cancel. -/
def Current (w : World) : Action → Prop
  | .submit .. => w.root.turns + 1 < 2 ^ 64
  | .post i (.askUser _) => ∀ ctx ∈ w.workers[i]?, ctx.turn = w.root.turns
  | .handle .. => ∀ posted ∈ w.queue.head?, posted.event = .askUserCancel →
      posted.ctx.turn < w.root.turns → w.root.askUserPending = false ∧ w.root.pendingReply = none
  | _ => True

instance (w : World) : ∀ a, Decidable (Current w a)
  | .submit .. => inferInstanceAs (Decidable (_ < _))
  | .post i (.askUser _) =>
    inferInstanceAs (Decidable (∀ ctx ∈ w.workers[i]?, ctx.turn = w.root.turns))
  | .handle .. => inferInstanceAs (Decidable (∀ posted ∈ w.queue.head?,
      posted.event = .askUserCancel → posted.ctx.turn < w.root.turns →
        w.root.askUserPending = false ∧ w.root.pendingReply = none))
  | .post _ (.chunk _) | .post _ (.toolStart ..) | .post _ (.toolProgress ..)
  | .post _ (.toolDone ..) | .post _ (.usage _) | .post _ (.error _) | .post _ .askUserCancel
  | .escape | .toggle | .finish .. | .takeReply _ | .expire _ => isTrue trivial

/-! ## Which epoch an event has -/

/-- The worker has the epoch of its turn, which has begun. -/
def WorkerOf (turns : ℕ) (ctx : WorkerCtx) : Prop :=
  ctx.turn ≤ turns ∧ ctx.epoch = UInt64.ofNat ctx.turn

/-- What every state of the run satisfies. -/
structure Stamped (w : World) : Prop where
  bound : w.root.turns < 2 ^ 64
  epoch : w.root.turnEpoch = UInt64.ofNat w.root.turns
  workers : ∀ ctx ∈ w.workers, WorkerOf w.root.turns ctx
  watchdogs : ∀ ctx ∈ w.watchdogs, WorkerOf w.root.turns ctx
  queue : ∀ posted ∈ w.queue, WorkerOf w.root.turns posted.ctx ∧
    posted.event.epoch.all (· = posted.ctx.epoch)

theorem WorkerOf.mono {turns turns' : ℕ} {ctx : WorkerCtx} (h : WorkerOf turns ctx)
    (hle : turns ≤ turns') : WorkerOf turns' ctx :=
  ⟨h.1.trans hle, h.2⟩

/-- A fan-out stays in its turn, and so do those that it starts. -/
structure SameTurn (b b' : Book) (started : List (WorkerCtx × Bool)) : Prop where
  epoch : b'.turnEpoch = b.turnEpoch
  turns : b'.turns = b.turns
  started : ∀ entry ∈ started, entry.1.epoch = b.turnEpoch ∧ entry.1.turn = b.turns

theorem sameTurn_fansOut {invoker : Bytes} {names : List (Bytes × ℕ)} {b b' : Book}
    {faults : List (Option DispatchFault)} {started : List (WorkerCtx × Bool)}
    (h : FansOut invoker b names faults b' started) : SameTurn b b' started := by
  induction h with
  | nil => exact ⟨rfl, rfl, fun _ hentry => absurd hentry List.not_mem_nil⟩
  | refused name idx hfault hrest ih => exact ih
  | failed name idx errorName hfault hrest ih => exact ⟨ih.epoch, ih.turns, ih.started⟩
  | started name idx watched hfault hrest ih =>
    refine ⟨ih.epoch, ih.turns, fun entry hentry => ?_⟩
    rcases List.mem_cons.mp hentry with rfl | hentry
    · exact ⟨rfl, rfl⟩
    · exact ih.started entry hentry

theorem sameTurn_handled {b b' : Book} {faults : List (Option DispatchFault)} {ue : UserEvent}
    {started : List (WorkerCtx × Bool)} (h : Handled b faults ue b' started) :
    SameTurn b b' started := by
  have hresume : ∀ i f, (b.settle i f).maybeResume.turnEpoch = b.turnEpoch ∧
      (b.settle i f).maybeResume.turns = b.turns := by
    intro i f
    rw [maybeResume_frame]
    exact ⟨rfl, rfl⟩
  cases h with
  | quiet => exact ⟨rfl, rfl, fun _ hentry => absurd hentry List.not_mem_nil⟩
  | scanned p invoker hepoch hkind hfans =>
    obtain ⟨hsame, hturns, hstarted⟩ := sameTurn_fansOut hfans
    exact ⟨hsame, hturns, hstarted⟩
  | completed p i invoker hepoch hkind hfind hfans =>
    obtain ⟨hsame, hturns, hstarted⟩ := sameTurn_fansOut hfans
    obtain ⟨hkeepEpoch, hkeepTurns⟩ := hresume i (.complete p.output)
    refine ⟨hsame.trans hkeepEpoch, hturns.trans hkeepTurns, fun entry hentry => ?_⟩
    obtain ⟨hepoch, hturn⟩ := hstarted entry hentry
    exact ⟨hepoch.trans hkeepEpoch, hturn.trans hkeepTurns⟩
  | timedOut epoch invoker target mentionIdx i hfind =>
    exact ⟨(hresume i _).1, (hresume i _).2, fun _ hentry => absurd hentry List.not_mem_nil⟩

/-- The epoch of a payload, where it has one. -/
theorem epoch_payload (ctx : WorkerCtx) (turnEpoch : UInt64) (event : WorkerEvent)
    (hevent : ∀ question, event ≠ .askUser question) :
    (event.payload ctx turnEpoch).epoch.all (· = ctx.epoch) := by
  cases event with
  | askUser question => exact absurd rfl (hevent question)
  | askUserCancel => rfl
  | _ => exact decide_eq_true rfl

/-- An event is posted by a worker or the timeout of one. -/
theorem Stamped.post {w : World} (hs : Stamped w) {posted : Posted}
    (hctx : WorkerOf w.root.turns posted.ctx)
    (hepoch : posted.event.epoch.all (· = posted.ctx.epoch)) :
    ∀ other ∈ w.queue ++ [posted], WorkerOf w.root.turns other.ctx ∧
      other.event.epoch.all (· = other.ctx.epoch) := by
  intro other hother
  rcases List.mem_append.mp hother with hother | hother
  · exact hs.queue other hother
  · obtain rfl := List.mem_singleton.mp hother
    exact ⟨hctx, hepoch⟩

/-- A turn begins. -/
theorem Stamped.begin {w : World} (hs : Stamped w) {root : Root} (started : List WorkerCtx)
    (hlt : w.root.turns + 1 < 2 ^ 64) (hturns : root.turns = w.root.turns + 1)
    (hepoch : root.turnEpoch = w.root.turnEpoch + 1)
    (hstarted : ∀ ctx ∈ started, ctx.turn = w.root.turns + 1 ∧ ctx.epoch = w.root.turnEpoch + 1)
    (subturns : ℕ) : Stamped { w with root, workers := w.workers ++ started, subturns } := by
  have hnext : w.root.turnEpoch + 1 = UInt64.ofNat (w.root.turns + 1) := by
    rw [hs.epoch, UInt64.ofNat_add]
    rfl
  have hle : w.root.turns ≤ root.turns := hturns ▸ Nat.le_succ _
  refine ⟨hturns ▸ hlt, ?_, fun ctx hctx => ?_, fun ctx hctx => ?_, fun posted hposted => ?_⟩
  · show root.turnEpoch = UInt64.ofNat root.turns
    rw [hepoch, hturns, hnext]
  · rcases List.mem_append.mp hctx with hctx | hctx
    · exact (hs.workers ctx hctx).mono hle
    · obtain ⟨hturn, hctxEpoch⟩ := hstarted ctx hctx
      exact ⟨(hturn.trans hturns.symm).le, by rw [hctxEpoch, hnext, hturn]⟩
  · exact (hs.watchdogs ctx hctx).mono hle
  · obtain ⟨hworker, hstamp⟩ := hs.queue posted hposted
    exact ⟨hworker.mono hle, hstamp⟩

theorem stamped_step {w w' : World} {a : Action} (hs : Stamped w) (ha : Current w a)
    (h : Moves w a w') : Stamped w' := by
  cases h with
  | submitted now spawnError text root started hsubmitted =>
    generalize hb : root.book = b at hsubmitted
    cases hsubmitted with
    | kept =>
      have hturns : root.turns = w.root.turns := congrArg Book.turns hb
      have hepoch : root.turnEpoch = w.root.turnEpoch := congrArg Book.turnEpoch hb
      rw [List.append_nil]
      refine ⟨hturns ▸ hs.bound, ?_, ?_, ?_, ?_⟩
      · exact hepoch.trans (hturns ▸ hs.epoch)
      · exact hturns ▸ hs.workers
      · exact hturns ▸ hs.watchdogs
      · exact hturns ▸ hs.queue
    | failed =>
      exact hs.begin [] ha (congrArg Book.turns hb) (congrArg Book.turnEpoch hb)
        (fun _ hctx => nomatch hctx) _
    | begun sessionId =>
      refine hs.begin [_] ha (congrArg Book.turns hb) (congrArg Book.turnEpoch hb)
        (fun ctx hctx => ?_) _
      obtain rfl := List.mem_singleton.mp hctx
      exact ⟨rfl, rfl⟩
  | touched _ root hbook =>
    have hturns : root.turns = w.root.turns := congrArg Book.turns hbook
    have hepoch : root.turnEpoch = w.root.turnEpoch := congrArg Book.turnEpoch hbook
    refine ⟨hturns ▸ hs.bound, ?_, ?_, ?_, ?_⟩
    · exact hepoch.trans (hturns ▸ hs.epoch)
    · exact hturns ▸ hs.workers
    · exact hturns ▸ hs.watchdogs
    · exact hturns ▸ hs.queue
  | posted i event ctx hctx =>
    have hworker := hs.workers ctx (List.mem_of_getElem? hctx)
    refine ⟨hs.bound, hs.epoch, hs.workers, hs.watchdogs, hs.post hworker ?_⟩
    by_cases hask : ∃ question, event = .askUser question
    · -- the worker is one of the current turn, whose epoch it has
      obtain ⟨question, rfl⟩ := hask
      have hturn : ctx.turn = w.root.turns := ha ctx hctx
      refine decide_eq_true ?_
      show w.root.turnEpoch = ctx.epoch
      rw [hs.epoch, hworker.2, hturn]
    · exact epoch_payload ctx w.root.turnEpoch event (not_exists.mp hask)
  | finished i output ctx hctx =>
    have hworker := hs.workers ctx (List.mem_of_getElem? hctx)
    exact ⟨hs.bound, hs.epoch,
      fun other hother => hs.workers other (List.mem_of_mem_eraseIdx hother),
      hs.watchdogs, hs.post hworker (decide_eq_true rfl)⟩
  | expired i ctx hctx =>
    have hworker := hs.watchdogs ctx (List.mem_of_getElem? hctx)
    exact ⟨hs.bound, hs.epoch, hs.workers,
      fun other hother => hs.watchdogs other (List.mem_of_mem_eraseIdx hother),
      hs.post hworker (decide_eq_true rfl)⟩
  | handled now faults event queue root started hqueue hhandled =>
    obtain ⟨hsame, hturns, hstarted⟩ := sameTurn_handled hhandled
    have hsame : root.turnEpoch = w.root.turnEpoch := hsame
    have hturns : root.turns = w.root.turns := hturns
    have hworker : ∀ entry ∈ started, WorkerOf root.turns entry.1 := by
      intro entry hentry
      obtain ⟨hepoch, hturn⟩ := hstarted entry hentry
      have hturn : entry.1.turn = w.root.turns := hturn
      refine ⟨(hturn.trans hturns.symm).le, ?_⟩
      rw [hturn]
      exact hepoch.trans hs.epoch
    have hold : ∀ ctx, WorkerOf w.root.turns ctx → WorkerOf root.turns ctx :=
      fun ctx hctx => hctx.mono hturns.ge
    refine ⟨hturns ▸ hs.bound, ?_, fun ctx hctx => ?_, fun ctx hctx => ?_, fun posted hposted => ?_⟩
    · exact hsame.trans (hturns ▸ hs.epoch)
    · rcases List.mem_append.mp hctx with hctx | hctx
      · exact hold ctx (hs.workers ctx hctx)
      · obtain ⟨entry, hentry, rfl⟩ := List.mem_map.mp hctx
        exact hworker entry hentry
    · rcases List.mem_append.mp hctx with hctx | hctx
      · exact hold ctx (hs.watchdogs ctx hctx)
      · obtain ⟨entry, hentry, rfl⟩ := List.mem_map.mp hctx
        exact hworker entry (List.mem_filter.mp hentry).1
    · obtain ⟨hctx, hstamp⟩ := hs.queue posted (hqueue ▸ List.mem_cons_of_mem _ hposted)
      exact ⟨hold _ hctx, hstamp⟩

/-! ## Events of an earlier turn are harmless -/

/-- Two turns have two epochs. -/
theorem epoch_ne {m n : ℕ} (hlt : m < n) (hn : n < 2 ^ 64) : UInt64.ofNat m ≠ UInt64.ofNat n := by
  intro heq
  have heq := congrArg UInt64.toNat heq
  rw [UInt64.toNat_ofNat_of_lt' (hlt.trans hn), UInt64.toNat_ofNat_of_lt' hn] at heq
  exact Nat.ne_of_lt hlt heq

/-- The only event without an epoch. -/
theorem eq_askUserCancel {ue : UserEvent} (h : ue.epoch = none) : ue = .askUserCancel := by
  cases ue with
  | askUserCancel => rfl
  | _ => cases h

/-- An event that is dropped. -/
theorem handleUserEvent_stale {host : Host} {r : Root} {now : ℤ}
    {faults : List (Option DispatchFault)} {ue : UserEvent} (h : r.dropStaleIfNeeded ue = true) :
    r.handleUserEvent host now faults ue = (r, []) := by
  unfold Root.handleUserEvent
  rw [if_pos h]

theorem handleUserEvent_askUserCancel (host : Host) (r : Root) (now : ℤ)
    (faults : List (Option DispatchFault)) :
    r.handleUserEvent host now faults .askUserCancel = (r.onAskUserCancel, []) := by
  unfold Root.handleUserEvent
  exact if_neg (by simp [Root.dropStaleIfNeeded, UserEvent.epoch])

/-- **The handling of an event of an earlier turn.** -/
theorem untouched_handle {host : Host} {w w' : World} {now : ℤ}
    {faults : List (Option DispatchFault)} {posted : Posted} (hs : Stamped w)
    (ha : Current w (.handle now faults)) (h : step host w (.handle now faults) = some w')
    (hhead : w.queue.head? = some posted) (hstale : posted.ctx.turn < w.root.turns) :
    Untouched w.root w'.root ∧ w'.workers = w.workers := by
  obtain ⟨queue, hqueue⟩ := List.head?_eq_some_iff.mp hhead
  obtain ⟨hctx, hstamp⟩ := hs.queue posted (hqueue ▸ List.mem_cons_self)
  rw [step, hqueue] at h
  dsimp only at h
  cases hepoch : posted.event.epoch with
  | some epoch =>
    rw [hepoch] at hstamp
    have hstamp : epoch = posted.ctx.epoch := of_decide_eq_true hstamp
    have hne := epoch_ne hstale hs.bound
    rw [← hctx.2, ← hs.epoch, ← hstamp] at hne
    have hdrop : w.root.dropStaleIfNeeded posted.event = true := by
      rw [Root.dropStaleIfNeeded, hepoch, Option.any_some, decide_eq_true hne]
    rw [handleUserEvent_stale hdrop] at h
    obtain rfl := Option.some.inj h
    exact ⟨.refl _, List.append_nil _⟩
  | none =>
    have hcancel := eq_askUserCancel hepoch
    obtain ⟨hasking, hreply⟩ := ha posted hhead hcancel hstale
    rw [hcancel, handleUserEvent_askUserCancel] at h
    obtain rfl := Option.some.inj h
    exact ⟨⟨rfl, rfl, rfl, hasking.symm, hreply.symm⟩, List.append_nil _⟩

/-- **Events of an earlier turn never touch a new one**, in a run in which only workers of the
current turn ask, and no cancel of an earlier question finds one to cancel. -/
theorem untouched_of_current (host : Host) (agentNames : List Bytes) (sessionId userName : Bytes)
    (maxCalls : UInt8) (timeoutSecs : UInt32) (history : List Line) {as : List Action}
    (hcurrent : StepMachine.Along (step host) Current
      (start agentNames sessionId userName maxCalls timeoutSecs history) as) :
    ∀ before now faults w w', before ++ [.handle now faults] <+: as →
      StepMachine.run (step host)
        (start agentNames sessionId userName maxCalls timeoutSecs history) before = some w →
      step host w (.handle now faults) = some w' →
      ∀ posted, w.queue.head? = some posted → posted.ctx.turn < w.root.turns →
        Untouched w.root w'.root ∧ w'.workers = w.workers := by
  intro before now faults w w' hbefore hrun hstep posted hhead hstale
  have hstart : Stamped (start agentNames sessionId userName maxCalls timeoutSecs history) :=
    ⟨Nat.two_pow_pos 64, rfl, fun _ h => (nomatch h), fun _ h => (nomatch h),
      fun _ h => (nomatch h)⟩
  have hs := StepMachine.invariant_along (fun w a w' hw ha hstep =>
    stamped_step hw ha (moves_of_step hstep)) hstart hcurrent before w
      ((List.prefix_append _ _).trans hbefore) hrun
  exact untouched_handle hs (StepMachine.along_at hcurrent hbefore hrun) hstep hhead hstale

/-- A sub-turn outlives its turn: its chunk, its error and its completion come late. -/
def outlived : List Action :=
  [.submit 1 none (ascii "hi"), .finish 0 (ascii "@b"), .handle 2 [], .post 0 (.chunk (ascii "x")),
    .submit 3 none (ascii "next"), .handle 4 [], .post 0 (.error (ascii "late")), .handle 5 [],
    .finish 0 (ascii "@a"), .handle 6 []]

theorem untouched_outlived : ∃ w w', StepMachine.run (step plain)
      (start [ascii "a", ascii "b"] (ascii "a") [] 8 0 []) outlived.dropLast = some w ∧
    step plain w (.handle 6 []) = some w' ∧ w.root.turns = 2 ∧
    w.queue.map (fun posted => posted.ctx.turn) = [1] ∧
    Untouched w.root w'.root ∧ w'.workers = w.workers := by
  have hcurrent : StepMachine.Along (step plain) Current
      (start [ascii "a", ascii "b"] (ascii "a") [] 8 0 []) outlived := by decide
  refine ⟨_, _, rfl, rfl, by decide, by decide, ?_⟩
  exact untouched_of_current plain _ _ _ _ _ _ hcurrent outlived.dropLast 6 [] _ _
    (List.prefix_refl _) rfl rfl _ rfl (by decide)

/-- A sub-turn that has outlived its turn asks. -/
def lateQuestion : List Action :=
  [.submit 1 none (ascii "hi"), .finish 0 (ascii "@b"), .handle 2 [],
    .submit 3 none (ascii "next"), .post 0 (.askUser (ascii "why?"))]

/-- It gives up waiting for an answer, when the worker of the new turn has asked. -/
def lateCancel : List Action :=
  [.submit 1 none (ascii "hi"), .finish 0 (ascii "@b"), .handle 2 [],
    .submit 3 none (ascii "next"), .post 1 (.askUser (ascii "who?")), .handle 4 [],
    .post 0 .askUserCancel]

theorem not_untouched_late :
    (∃ w w', StepMachine.run (step plain) (start [ascii "a", ascii "b"] (ascii "a") [] 8 0 [])
        lateQuestion = some w ∧ step plain w (.handle 5 []) = some w' ∧ w.root.turns = 2 ∧
      w.queue.map (fun posted => posted.ctx.turn) = [1] ∧
      w'.root.history.length = w.root.history.length + 1 ∧
      w.root.askUserPending = false ∧ w'.root.askUserPending = true ∧ ¬ Untouched w.root w'.root) ∧
    ∃ w w', StepMachine.run (step plain) (start [ascii "a", ascii "b"] (ascii "a") [] 8 0 [])
        lateCancel = some w ∧ step plain w (.handle 5 []) = some w' ∧ w.root.turns = 2 ∧
      w.queue.map (fun posted => posted.ctx.turn) = [1] ∧
      w.root.askUserPending = true ∧ w'.root.askUserPending = false ∧
      ¬ Untouched w.root w'.root := by
  refine ⟨⟨_, _, rfl, rfl, by decide, by decide, by decide, by decide, by decide, fun h => ?_⟩,
    ⟨_, _, rfl, rfl, by decide, by decide, by decide, by decide, fun h => ?_⟩⟩
  · exact absurd h.askUserPending (by decide)
  · exact absurd h.askUserPending (by decide)

end Chat
end Tui
end TigerClaw
