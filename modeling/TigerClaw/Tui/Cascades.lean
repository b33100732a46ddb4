import TigerClaw.Tui.Chat

/-!
# The end of a cascade

A sub-turn's reply may mention agents, whose sub-turns mention agents.  Every dispatch is counted
against `auto_dispatch_max_calls`, and one call is kept back, so that the sub-turns of a turn of the
user are fewer than that, whatever the replies are.

* `budget_fansOut`: a fan-out counts what it starts.
* `cascade_bounded`: the bound, in every state of every run.
-/

namespace TigerClaw
namespace Tui
namespace Chat

/-- The sub-turns of the turn are counted, and are within the budget. -/
structure WithinBudget (maxCalls : UInt8) (w : World) : Prop where
  budget : w.root.autoDispatchMaxCalls = maxCalls
  counted : w.subturns = w.root.autoDispatchCalls.toNat
  bounded : w.root.autoDispatchCalls.toNat + 1 ≤ max maxCalls.toNat 1

theorem toNat_add_one_u8 {n : UInt8} (h : n.toNat + 1 < 256) : (n + 1).toNat = n.toNat + 1 := by
  rw [UInt8.toNat_add, UInt8.toNat_one, Nat.mod_eq_of_lt h]

/-- **A fan-out counts what it starts**, and starts no more than it was to. -/
theorem budget_fansOut {invoker : Bytes} {b b' : Book} {names : List (Bytes × ℕ)}
    {faults : List (Option DispatchFault)} {started : List (WorkerCtx × Bool)}
    (h : FansOut invoker b names faults b' started)
    (hlt : b.autoDispatchCalls.toNat + names.length < 256) :
    b'.autoDispatchMaxCalls = b.autoDispatchMaxCalls ∧
      b'.autoDispatchCalls.toNat = b.autoDispatchCalls.toNat + started.length ∧
      started.length ≤ names.length := by
  induction h with
  | nil => exact ⟨rfl, rfl, Nat.le_refl _⟩
  | refused name idx hfault hrest ih =>
    rw [List.length_cons] at hlt ⊢
    obtain ⟨hmax, hcalls, hle⟩ := ih (by omega)
    exact ⟨hmax, hcalls, by omega⟩
  | @failed b _ rest _ _ name idx errorName hfault hrest ih =>
    rw [List.length_cons] at hlt ⊢
    have hslot : b.autoDispatchCalls.toNat + rest.length < 256 := by omega
    obtain ⟨hmax, hcalls, hle⟩ := ih hslot
    exact ⟨hmax, hcalls, by omega⟩
  | @started b _ rest _ _ name idx watched hfault hrest ih =>
    rw [List.length_cons] at hlt
    have hone := toNat_add_one_u8 (n := b.autoDispatchCalls) (by omega)
    have hcount : (b.autoDispatchCalls + 1).toNat + rest.length < 256 := by omega
    obtain ⟨hmax, hcalls, hle⟩ := ih hcount
    have hcalls : _ = (b.autoDispatchCalls + 1).toNat + _ := hcalls
    rw [List.length_cons, List.length_cons]
    exact ⟨hmax, by omega, by omega⟩

/-- What is planned fits into the budget. -/
theorem length_plan_le (b : Book) (p : DonePayload) :
    (b.plan p).length ≤ b.autoDispatchMaxCalls.toNat - b.autoDispatchCalls.toNat - 1 := by
  rw [Book.plan]
  split
  · exact Nat.zero_le _
  · rw [List.length_zipIdx, List.length_take]
    omega

/-- **What the handling of an event starts** is counted and fits into the budget. -/
theorem budget_handled {b b' : Book} {faults : List (Option DispatchFault)} {ue : UserEvent}
    {started : List (WorkerCtx × Bool)} (h : Handled b faults ue b' started) :
    b'.autoDispatchMaxCalls = b.autoDispatchMaxCalls ∧
      b'.autoDispatchCalls.toNat = b.autoDispatchCalls.toNat + started.length ∧
      started.length ≤ b.autoDispatchMaxCalls.toNat - b.autoDispatchCalls.toNat - 1 := by
  have hmax256 := b.autoDispatchMaxCalls.toNat_lt
  have hcalls256 := b.autoDispatchCalls.toNat_lt
  -- of what is planned, when the sub-turns have been settled
  have hfans : ∀ (p : DonePayload) (b₁ : Book),
      b₁.autoDispatchMaxCalls = b.autoDispatchMaxCalls →
      b₁.autoDispatchCalls = b.autoDispatchCalls →
      FansOut p.targetAgent b₁ (b.plan p) faults b' started →
      b'.autoDispatchMaxCalls = b.autoDispatchMaxCalls ∧
        b'.autoDispatchCalls.toNat = b.autoDispatchCalls.toNat + started.length ∧
        started.length ≤ b.autoDispatchMaxCalls.toNat - b.autoDispatchCalls.toNat - 1 := by
    intro p b₁ hmax₁ hcalls₁ hfans
    have hle := length_plan_le b p
    have hlt : b₁.autoDispatchCalls.toNat + (b.plan p).length < 256 := by
      rw [hcalls₁]
      omega
    obtain ⟨hmax, hcalls, hstarted⟩ := budget_fansOut hfans hlt
    rw [hmax₁] at hmax
    rw [hcalls₁] at hcalls
    exact ⟨hmax, hcalls, Nat.le_trans hstarted hle⟩
  have hresume : ∀ i f, (b.settle i f).maybeResume.autoDispatchMaxCalls = b.autoDispatchMaxCalls ∧
      (b.settle i f).maybeResume.autoDispatchCalls = b.autoDispatchCalls := by
    intro i f
    rw [maybeResume_frame]
    exact ⟨rfl, rfl⟩
  cases h with
  | quiet => exact ⟨rfl, rfl, Nat.zero_le _⟩
  | scanned p invoker hepoch hkind hfan =>
    exact hfans p { b with invokerToResume := invoker } rfl rfl hfan
  | completed p i invoker hepoch hkind hfind hfan =>
    obtain ⟨hmax, hcalls⟩ := hresume i (.complete p.output)
    exact hfans p { (b.settle i (.complete p.output)).maybeResume with invokerToResume := invoker }
      hmax hcalls hfan
  | timedOut epoch invoker target mentionIdx i hfind =>
    obtain ⟨hmax, hcalls⟩ := hresume i SubturnSlot.timeOut
    refine ⟨hmax, ?_, Nat.zero_le _⟩
    rw [hcalls]
    rfl

/-- A step that starts no sub-turn and begins no turn. -/
theorem WithinBudget.keep {maxCalls : UInt8} {w w' : World} (hs : WithinBudget maxCalls w)
    (hbook : w'.root.book = w.root.book) (hsubturns : w'.subturns = w.subturns) :
    WithinBudget maxCalls w' := by
  have hmax : w'.root.autoDispatchMaxCalls = w.root.autoDispatchMaxCalls :=
    congrArg Book.autoDispatchMaxCalls hbook
  have hcalls : w'.root.autoDispatchCalls = w.root.autoDispatchCalls :=
    congrArg Book.autoDispatchCalls hbook
  refine ⟨hmax.trans hs.budget, ?_, ?_⟩
  · rw [hsubturns, hcalls]
    exact hs.counted
  · rw [hcalls]
    exact hs.bounded

/-- A turn begins, and nothing is counted yet. -/
theorem WithinBudget.begin {maxCalls : UInt8} {w : World} {root : Root} {started : List WorkerCtx}
    (hs : WithinBudget maxCalls w) (hmax : root.autoDispatchMaxCalls = w.root.autoDispatchMaxCalls)
    (hcalls : root.autoDispatchCalls = 0) (hturns : root.turns = w.root.turns + 1) :
    WithinBudget maxCalls { w with
      root, workers := w.workers ++ started, subturns := turnsCounted w root } := by
  refine ⟨hmax.trans hs.budget, ?_, ?_⟩
  · show turnsCounted w root = root.autoDispatchCalls.toNat
    rw [turnsCounted, if_neg (by omega), hcalls]
    rfl
  · show root.autoDispatchCalls.toNat + 1 ≤ _
    rw [hcalls]
    exact Nat.le_max_right _ _

/-- **A step stays within the budget.** -/
theorem withinBudget_step {w w' : World} {a : Action} {maxCalls : UInt8}
    (hs : WithinBudget maxCalls w) (h : Moves w a w') : WithinBudget maxCalls w' := by
  cases h with
  | submitted now spawnError text root started hsubmitted =>
    generalize hb : root.book = b at hsubmitted
    cases hsubmitted with
    | kept =>
      have hturns : root.turns = w.root.turns := congrArg Book.turns hb
      exact hs.keep hb (if_pos hturns)
    | failed =>
      exact hs.begin (congrArg Book.autoDispatchMaxCalls hb) (congrArg Book.autoDispatchCalls hb)
        (congrArg Book.turns hb)
    | begun sessionId =>
      exact hs.begin (congrArg Book.autoDispatchMaxCalls hb) (congrArg Book.autoDispatchCalls hb)
        (congrArg Book.turns hb)
  | touched _ root hbook => exact hs.keep hbook rfl
  | posted i event ctx hctx => exact hs.keep rfl rfl
  | finished i output ctx hctx => exact hs.keep rfl rfl
  | expired i ctx hctx => exact hs.keep rfl rfl
  | handled now faults event queue root started hqueue hhandled =>
    obtain ⟨hmax, hcalls, hle⟩ := budget_handled hhandled
    have hmax : root.autoDispatchMaxCalls = w.root.autoDispatchMaxCalls := hmax
    have hcalls : root.autoDispatchCalls.toNat = w.root.autoDispatchCalls.toNat + _ := hcalls
    have hle : started.length ≤
      w.root.autoDispatchMaxCalls.toNat - w.root.autoDispatchCalls.toNat - 1 := hle
    have hbounded := hs.bounded
    have hcounted := hs.counted
    rw [hs.budget] at hle
    refine ⟨hmax.trans hs.budget, ?_, ?_⟩
    · show w.subturns + started.length = root.autoDispatchCalls.toNat
      omega
    · show root.autoDispatchCalls.toNat + 1 ≤ _
      omega

/-- **Cascades end.**  In every run, whatever the replies mention and in whatever order the
sub-turns complete, fewer sub-turns have been started since the last turn began than the budget
allows; and once it is spent, no event starts another one. -/
theorem cascade_bounded (host : Host) (agentNames : List Bytes) (sessionId userName : Bytes)
    (maxCalls : UInt8) (timeoutSecs : UInt32) (history : List Line) (as : List Action) {w : World}
    (h : StepMachine.run (step host)
      (start agentNames sessionId userName maxCalls timeoutSecs history) as = some w) :
    w.subturns ≤ max maxCalls.toNat 1 - 1 ∧
    (max maxCalls.toNat 1 - 1 ≤ w.subturns → ∀ now faults w',
      step host w (.handle now faults) = some w' →
        w'.subturns = w.subturns ∧ w'.workers = w.workers) := by
  have hstart : WithinBudget maxCalls
      (start agentNames sessionId userName maxCalls timeoutSecs history) :=
    ⟨rfl, rfl, Nat.le_max_right _ _⟩
  have hs := StepMachine.invariant_run (I := WithinBudget maxCalls)
    (fun w a w' hw hstep => withinBudget_step hw (moves_of_step hstep)) hstart h
  have hbounded := hs.bounded
  have hcounted := hs.counted
  refine ⟨by omega, fun hspent now faults w' hstep => ?_⟩
  have hs' := withinBudget_step hs (moves_of_step hstep)
  have hbounded' := hs'.bounded
  have hcounted' := hs'.counted
  cases moves_of_step hstep with
  | touched _ root hbook => exact ⟨rfl, rfl⟩
  | handled _ _ event queue root started hqueue hhandled =>
    have hcounted' : w.subturns + started.length = root.autoDispatchCalls.toNat := hcounted'
    have hbounded' : root.autoDispatchCalls.toNat + 1 ≤ _ := hbounded'
    have hnone : started = [] := List.eq_nil_of_length_eq_zero (by omega)
    rw [hnone]
    exact ⟨rfl, List.append_nil w.workers⟩

/-- Two agents that mention one another, with a budget of three calls. -/
def pingPong : List Action :=
  [.submit 1 none (ascii "hi"), .finish 0 (ascii "@b"), .handle 2 [], .finish 0 (ascii "@a"),
    .handle 3 [], .finish 0 (ascii "@b")]

theorem cascade_bounded_mutual : ∃ w, StepMachine.run (step plain)
      (start [ascii "a", ascii "b"] (ascii "a") [] 3 0 []) pingPong = some w ∧
    w.subturns = 2 ∧ ∀ now faults w', step plain w (.handle now faults) = some w' →
      w'.subturns = 2 ∧ w'.workers = w.workers := by
  refine ⟨_, rfl, by decide, ?_⟩
  exact (cascade_bounded plain [ascii "a", ascii "b"] (ascii "a") [] 3 0 [] pingPong rfl).2
    (by decide)

end Chat
end Tui
end TigerClaw
