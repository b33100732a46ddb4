import TigerClaw.Harness.RealRunner

/-!
# One transcript for all sessions

The agent of a runner keeps its transcript across every turn that the runner serves.  The swap of
the sessions does not touch it, so that a turn asks the provider with what all earlier turns have
left, whatever their sessions were.

* `afterTurns`: what the turns that reach the agent make of it, one after another.
* `Sound.agent_after`: that is the agent after a run.
* `requests_eq_iff`: whether what other sessions did can be told from the requests of a turn.
-/

namespace TigerClaw
namespace Harness
namespace RealRunner

open Agent (ChatResponse)

/-- Two runs that differ in the turns of one session only. -/
def DifferOnlyIn (sessionId : Bytes) (calls₁ calls₂ : List Call) : Prop :=
  calls₁.filter (fun c => c.req.sessionId ≠ sessionId) =
    calls₂.filter (fun c => c.req.sessionId ≠ sessionId)

instance (sessionId : Bytes) (calls₁ calls₂ : List Call) :
    Decidable (DifferOnlyIn sessionId calls₁ calls₂) := inferInstanceAs (Decidable (_ = _))

/-- The transcript that a turn starts from: what the memory has for the input is pushed, and the
context engine may compact it. -/
def opening (memoryManager : Manager) (agent : Agent) (input : Bytes) : List Agent.Message :=
  Agent.prepare agent.contextEngine (withRecall memoryManager agent input).state.history

/-- The turns of a run that reach the agent, without their sessions. -/
def admittedTurns (dir : StateDir) (calls : List Call) : List (Bytes × List ChatResponse) :=
  (calls.filter (Admitted dir)).map fun c => (c.req.input, c.replies)

/-- The agent after some turns. -/
def afterTurns (memoryManager : Manager) (agent : Agent)
    (turns : List (Bytes × List ChatResponse)) : Agent :=
  turns.foldl (fun a turn => afterTurn memoryManager a turn.1 turn.2) agent

/-! ## The agent of a run -/

theorem Sound.agent_after {dir : StateDir} {r : RealRunner} (h : Sound dir r)
    (calls : List Call) :
    (r.after calls).memoryManager = r.memoryManager ∧
      (r.after calls).agent = afterTurns r.memoryManager r.agent (admittedTurns dir calls) := by
  induction calls generalizing r with
  | nil => exact ⟨rfl, rfl⟩
  | cons call calls ih =>
    obtain ⟨hmemory, hagent⟩ := ih (h.run call)
    obtain ⟨hmemory', ⟨hout, -, hsame⟩ | ⟨hin, -, hturn⟩⟩ := h.run_agent call
    · have hturns : admittedTurns dir (call :: calls) = admittedTurns dir calls := by
        rw [admittedTurns, List.filter_cons_of_neg (by rw [hout]; exact Bool.false_ne_true)]
        rfl
      rw [hmemory'] at hmemory hagent
      rw [hsame] at hagent
      rw [hturns]
      exact ⟨hmemory, hagent⟩
    · have hturns : admittedTurns dir (call :: calls) =
          (call.req.input, call.replies) :: admittedTurns dir calls := by
        rw [admittedTurns, List.filter_cons_of_pos hin]
        rfl
      rw [hmemory'] at hmemory hagent
      rw [hturn] at hagent
      rw [hturns]
      exact ⟨hmemory, hagent⟩

/-- What does not change in an agent. -/
structure SameSetup (a b : Agent) : Prop where
  executor : a.executor = b.executor
  maxIterations : a.maxIterations = b.maxIterations
  contextEngine : a.contextEngine = b.contextEngine

theorem sameSetup_withRecall (memoryManager : Manager) (agent : Agent) (input : Bytes) :
    SameSetup (withRecall memoryManager agent input) agent := by
  unfold withRecall
  split <;> exact ⟨rfl, rfl, rfl⟩

theorem sameSetup_afterTurns (memoryManager : Manager) (agent : Agent)
    (turns : List (Bytes × List ChatResponse)) :
    SameSetup (afterTurns memoryManager agent turns) agent := by
  induction turns generalizing agent with
  | nil => exact ⟨rfl, rfl, rfl⟩
  | cons turn turns ih =>
    obtain ⟨h₁, h₂, h₃⟩ := ih (afterTurn memoryManager agent turn.1 turn.2)
    obtain ⟨h₁', h₂', h₃'⟩ := sameSetup_withRecall memoryManager agent turn.1
    exact ⟨h₁.trans h₁', h₂.trans h₂', h₃.trans h₃'⟩

/-- A turn leaves its own messages behind the transcript that it starts from. -/
theorem messages_afterTurn (memoryManager : Manager) (agent : Agent) (input : Bytes)
    (replies : List ChatResponse) :
    (afterTurn memoryManager agent input replies).state.messages =
      opening memoryManager agent input ++ (agent.turn input replies).2.state.messages := by
  obtain ⟨h₁, h₂, h₃⟩ := sameSetup_withRecall memoryManager agent input
  have hturn : (withRecall memoryManager agent input).turn input replies =
      agent.turn input replies := by
    rw [Agent.turn, Agent.turn, h₁, h₂]
  rw [afterTurn, turnOf, Agent.runTurn_eq, hturn, opening, ← h₃]
  rfl

/-! ## Two runs -/

/-- Two agents of one setup ask the same in a turn exactly if it starts from the same transcript,
once the loop gets to ask at all. -/
theorem requests_turnOf_eq_iff (memoryManager : Manager) {a b : Agent} (h : SameSetup a b)
    (input : Bytes) (replies : List ChatResponse) :
    (turnOf memoryManager a input replies).2.requests =
        (turnOf memoryManager b input replies).2.requests ↔
      (0 < a.maxIterations.toNat →
        opening memoryManager a input = opening memoryManager b input) := by
  have ha := sameSetup_withRecall memoryManager a input
  have hb := sameSetup_withRecall memoryManager b input
  have hexecutor := ha.executor.trans (h.executor.trans hb.executor.symm)
  have hcap := ha.maxIterations.trans (h.maxIterations.trans hb.maxIterations.symm)
  by_cases hpos : 0 < a.maxIterations.toNat
  · have hiff := Agent.requests_runTurn_eq_iff hexecutor hcap
      (by rwa [ha.maxIterations]) input replies
    rw [ha.contextEngine, hb.contextEngine] at hiff
    rw [turnOf, turnOf, hiff, opening, opening]
    exact ⟨fun hopening _ => hopening, fun hopening => hopening hpos⟩
  · have hzero : a.maxIterations.toNat = 0 := Nat.eq_zero_of_not_pos hpos
    have hnone : ∀ c : Agent, c.maxIterations = a.maxIterations →
        (c.runTurn input replies).2.requests = [] := by
      intro c hc
      rw [Agent.runTurn, Agent.run, hc, hzero]
      rfl
    rw [turnOf, turnOf, hnone _ ha.maxIterations, hnone _ (hcap.symm.trans ha.maxIterations)]
    exact iff_of_true rfl fun hlt => absurd hlt hpos

theorem filter_admitted_eq {dir : StateDir} {sessionId : Bytes} {calls : List Call}
    (h : ∀ c ∈ calls, c.req.sessionId = sessionId → Admitted dir c = false) :
    (calls.filter fun c => c.req.sessionId ≠ sessionId).filter (Admitted dir) =
      calls.filter (Admitted dir) := by
  rw [List.filter_filter]
  refine List.filter_congr fun c hc => ?_
  by_cases hsession : c.req.sessionId = sessionId
  · rw [h c hc hsession, Bool.false_and]
  · simp [hsession]

/-- **What a turn asks depends on all the turns before it that reached the agent.**  Two runs that
differ in the turns of one session only have the agent that their admitted turns make, with no
regard to the sessions; a turn asks the same in both exactly if it starts from the same transcript,
and so it does if no turn of that session has reached the agent. -/
theorem requests_eq_iff (agent : Agent) (memoryManager : Manager) (dir : StateDir)
    {sessionId : Bytes} {calls₁ calls₂ : List Call} (h : DifferOnlyIn sessionId calls₁ calls₂)
    (call : Call) :
    (∀ calls, ((init agent memoryManager dir).after calls).agent =
        afterTurns memoryManager agent (admittedTurns dir calls)) ∧
      ((((init agent memoryManager dir).after calls₁).run call).1.requests =
          (((init agent memoryManager dir).after calls₂).run call).1.requests ↔
        (Admitted dir call = true → 0 < agent.maxIterations.toNat →
          opening memoryManager ((init agent memoryManager dir).after calls₁).agent
              call.req.input =
            opening memoryManager ((init agent memoryManager dir).after calls₂).agent
              call.req.input)) ∧
      ((∀ c ∈ calls₁ ++ calls₂, c.req.sessionId = sessionId → Admitted dir c = false) →
        (((init agent memoryManager dir).after calls₁).run call).1.requests =
          (((init agent memoryManager dir).after calls₂).run call).1.requests) := by
  have hinit := Sound.init agent memoryManager dir
  have hagent : ∀ calls, ((init agent memoryManager dir).after calls).agent =
      afterTurns memoryManager agent (admittedTurns dir calls) :=
    fun calls => (hinit.agent_after calls).2
  have hmemory : ∀ calls, ((init agent memoryManager dir).after calls).memoryManager =
      memoryManager := fun calls => (hinit.agent_after calls).1
  have hiff : (((init agent memoryManager dir).after calls₁).run call).1.requests =
      (((init agent memoryManager dir).after calls₂).run call).1.requests ↔
      (Admitted dir call = true → 0 < agent.maxIterations.toNat →
        opening memoryManager ((init agent memoryManager dir).after calls₁).agent call.req.input =
          opening memoryManager ((init agent memoryManager dir).after calls₂).agent
            call.req.input) := by
    obtain ⟨-, ⟨hout, hnone₁, -⟩ | ⟨hin, hrequests₁, -⟩⟩ := (hinit.after calls₁).run_agent call
    · obtain ⟨-, ⟨-, hnone₂, -⟩ | ⟨hin, -⟩⟩ := (hinit.after calls₂).run_agent call
      · rw [hnone₁, hnone₂]
        exact iff_of_true rfl fun hin => absurd (hout.symm.trans hin) Bool.false_ne_true
      · exact absurd (hout.symm.trans hin) Bool.false_ne_true
    · obtain ⟨-, ⟨hout, -⟩ | ⟨-, hrequests₂, -⟩⟩ := (hinit.after calls₂).run_agent call
      · exact absurd (hout.symm.trans hin) Bool.false_ne_true
      have hsame₁ := sameSetup_afterTurns memoryManager agent (admittedTurns dir calls₁)
      have hsame₂ := sameSetup_afterTurns memoryManager agent (admittedTurns dir calls₂)
      rw [← hagent] at hsame₁ hsame₂
      have hsame : SameSetup ((init agent memoryManager dir).after calls₁).agent
          ((init agent memoryManager dir).after calls₂).agent :=
        ⟨hsame₁.executor.trans hsame₂.executor.symm,
          hsame₁.maxIterations.trans hsame₂.maxIterations.symm,
          hsame₁.contextEngine.trans hsame₂.contextEngine.symm⟩
      rw [hrequests₁, hrequests₂, hmemory, hmemory, requests_turnOf_eq_iff _ hsame,
        hsame₁.maxIterations]
      exact ⟨fun hopening _ => hopening, fun hopening => hopening hin⟩
  refine ⟨hagent, hiff, fun hnone => hiff.mpr fun _ _ => ?_⟩
  -- the admitted turns are then those of the other sessions, and these are the same
  have hturns : admittedTurns dir calls₁ = admittedTurns dir calls₂ := by
    rw [admittedTurns, admittedTurns,
      ← filter_admitted_eq fun c hc => hnone c (List.mem_append_left _ hc), h,
      filter_admitted_eq fun c hc => hnone c (List.mem_append_right _ hc)]
  rw [hagent, hagent, hturns]

/-- An agent with no tools, and a memory with nothing in it. -/
def plain : RealRunner :=
  init { executor := Agent.denyExecutor } { builtin := fun _ => some [] } StateDir.empty

/-- A turn with one reply. -/
def say (sessionId input reply : String) : Call :=
  { req := { sessionId := ascii sessionId, input := ascii input }
    replies := [{ text := some (ascii reply) }] }

def tellCode : Call := say "A" "my code is 1234" "noted"

def tellNothing : Call := say "A" "hello" "hi"

def ask : Call := say "B" "who are you" "a tiger"

/-- A turn that is cancelled before it gets to the agent is not seen. -/
theorem requests_eq_cancelled :
    ((plain.after [{ tellCode with cancelled := true }]).run ask).1.requests =
      ((plain.after []).run ask).1.requests := by
  have hdiffer : DifferOnlyIn (ascii "A") [{ tellCode with cancelled := true }] [] := by decide
  exact (requests_eq_iff { executor := Agent.denyExecutor } { builtin := fun _ => some [] }
    StateDir.empty hdiffer ask).2.2 (by decide)

/-- **The provider reads in a turn of one session what was said in another.** -/
theorem sees_other_session :
    DifferOnlyIn (ascii "A") [tellCode] [tellNothing] ∧
      ((plain.after [tellCode]).run ask).1.requests =
        [[.allocText .user (ascii "my code is 1234"), .allocText .assistant (ascii "noted"),
          .allocText .user (ascii "who are you")]] ∧
      ((plain.after [tellNothing]).run ask).1.requests =
        [[.allocText .user (ascii "hello"), .allocText .assistant (ascii "hi"),
          .allocText .user (ascii "who are you")]] ∧
      ((plain.after [tellCode]).run ask).1.requests ≠
        ((plain.after [tellNothing]).run ask).1.requests :=
  ⟨by decide, by decide, by decide, by decide⟩

end RealRunner
end Harness
end TigerClaw
