import TigerClaw.Harness.RealRunner
import TigerClaw.Library.StepMachine

/-!
# What the provider asserts

`buildRequestBody` of `src/extensions/provider-anthropic/root.zig` asserts of every message it is
given that its role is not `system`; the system prompt goes in a field of its own.  The runner
pushes what the memory has for an input into the transcript, under that role.

* `buildMessages`: the messages of the body, if the assertion holds.
* `Turn`, `Conversation`: the calls of a runner, each with what the memory has at its time, and
  everything that is handed to the provider.
* `Trimmed`: the compaction in front of a turn keeps nothing of the end of the transcript.
* `buildMessages_asked_iff`: the assertion holds of everything handed to the provider exactly if
  the memory has nothing for any turn, or what it has is trimmed.
-/

namespace TigerClaw
namespace Harness

open Agent (Message Engine Exchange AgentState RunOutcome ToolExecutor Role)
open Context (ContentBlock)

/-! ## The body -/

/-- `allBlocksEmpty`. -/
def allBlocksEmpty (blocks : List ContentBlock) : Bool :=
  blocks.all fun
    | .text t => t.length = 0
    | .toolUse .. | .toolResult .. => false

/-- The loop over the messages in `buildRequestBody`: those that are written, or nothing where the
assertion fails. -/
def buildMessages : List Message → Option (List Message)
  | [] => some []
  | msg :: messages =>
    if msg.role = .system then none
    else if msg.content.length = 0 ∨ allBlocksEmpty msg.content then buildMessages messages
    else (buildMessages messages).map (msg :: ·)

/-- No message has the role `system`. -/
def SystemFree (messages : List Message) : Prop := ∀ m ∈ messages, m.role ≠ .system

theorem systemFree_append {as bs : List Message} :
    SystemFree (as ++ bs) ↔ SystemFree as ∧ SystemFree bs := List.forall_mem_append

/-- **The assertion holds exactly if no message has the role `system`.** -/
theorem isSome_buildMessages_iff (messages : List Message) :
    (buildMessages messages).isSome ↔ SystemFree messages := by
  induction messages with
  | nil => exact iff_of_true rfl fun _ h => absurd h List.not_mem_nil
  | cons msg messages ih =>
    rw [SystemFree, List.forall_mem_cons, ← SystemFree, ← ih, buildMessages]
    by_cases hsystem : msg.role = .system
    · rw [if_pos hsystem]
      exact iff_of_false Bool.false_ne_true fun h => h.1 hsystem
    · rw [if_neg hsystem, and_iff_right hsystem]
      split
      · exact Iff.rfl
      · rw [Option.isSome_map]

/-! ## A turn of the agent -/

namespace Preconditions

/-- Neither the transcript nor what has been asked has the role. -/
def Clear (x : Exchange) : Prop :=
  SystemFree x.state.messages ∧ ∀ messages ∈ x.requests, SystemFree messages

/-- A turn by itself brings the role nowhere. -/
theorem clear_turn (agent : Agent) (userInput : Bytes) (replies : List Agent.ChatResponse) :
    Clear (agent.turn userInput replies).2 :=
  Agent.everywhere_turn (P := fun m => m.role ≠ .system) (fun _ _ hrole => hrole) agent userInput
    replies

/-- **A turn asks with the role exactly if the transcript it starts from has it**, unless it does
not ask at all. -/
theorem requests_runTurn_iff (agent : Agent) (userInput : Bytes) (replies : List Agent.ChatResponse)
    (hpos : 0 < agent.maxIterations.toNat) :
    (∀ messages ∈ (agent.runTurn userInput replies).2.requests, SystemFree messages) ↔
      SystemFree (Agent.prepare agent.contextEngine agent.state.history) := by
  have hclear := clear_turn agent userInput replies
  rw [Agent.runTurn_eq, Exchange.behind]
  constructor
  · intro h
    obtain ⟨first, hfirst⟩ :=
      List.exists_mem_of_ne_nil _ (Agent.requests_turn_ne_nil agent userInput replies hpos)
    exact (systemFree_append.mp (h _ (List.mem_map_of_mem hfirst))).1
  · intro h messages hmessages
    obtain ⟨own, hown, rfl⟩ := List.mem_map.mp hmessages
    exact systemFree_append.mpr ⟨h, hclear.2 own hown⟩

theorem messages_runTurn (agent : Agent) (userInput : Bytes) (replies : List Agent.ChatResponse)
    (h : SystemFree (Agent.prepare agent.contextEngine agent.state.history)) :
    SystemFree (agent.runTurn userInput replies).2.state.messages := by
  rw [Agent.runTurn_eq, Exchange.behind]
  exact systemFree_append.mpr ⟨h, (clear_turn agent userInput replies).1⟩

/-! ## What the compaction keeps -/

/-- The transcript is compacted, and nothing is kept of its end. -/
def Trimmed (engine : Option Engine) (history : List Message) : Prop :=
  ∃ e, engine = some e ∧ e.shouldCompress history = true ∧ e.policy.keepTail = 0 ∧
    e.policy.keepHead < history.length

theorem systemFree_map_allocText (messages : List Message) :
    SystemFree (messages.map fun m => Message.allocText m.role m.flatText) ↔
      SystemFree messages := List.forall_mem_map

/-- Compacting removes messages only. -/
theorem systemFree_compact {history : List Message} (h : SystemFree history)
    (policy : Agent.Policy) : SystemFree (Agent.compact history policy) := by
  rw [Agent.compact, systemFree_map_allocText, systemFree_append]
  exact ⟨fun m hm => h m (List.mem_of_mem_take hm), fun m hm => h m (List.mem_of_mem_drop hm)⟩

theorem systemFree_prepare {engine : Option Engine} {history : List Message}
    (h : SystemFree history) : SystemFree (Agent.prepare engine history) := by
  cases engine with
  | none => exact h
  | some e =>
    by_cases hcompress : e.shouldCompress history = true
    · rw [Agent.prepare, if_pos hcompress, Engine.prepareForSend, if_pos hcompress]
      exact systemFree_compact h _
    · rw [Agent.prepare, if_neg hcompress]
      exact h

/-- The last message survives the compaction unless none of the tail is kept. -/
theorem systemFree_compact_concat {history : List Message} (h : SystemFree history)
    {block : Message} (hblock : block.role = .system) (policy : Agent.Policy) :
    SystemFree (Agent.compact (history ++ [block]) policy) ↔
      policy.keepTail = 0 ∧ policy.keepHead < (history ++ [block]).length := by
  have hlength : (history ++ [block]).length = history.length + 1 := List.length_append
  rw [Agent.compact, systemFree_map_allocText, systemFree_append, hlength]
  constructor
  · rintro ⟨hhead, htail⟩
    have hcut : policy.keepHead < history.length + 1 := by
      by_contra hall
      rw [Nat.min_eq_right (Nat.not_lt.mp hall), ← hlength, List.take_length] at hhead
      exact hhead block (List.mem_append_right _ List.mem_cons_self) hblock
    refine ⟨?_, hcut⟩
    by_contra hkeep
    have hstart : max (min policy.keepHead (history.length + 1))
        (if policy.keepTail < history.length + 1 then history.length + 1 - policy.keepTail
          else min policy.keepHead (history.length + 1)) ≤ history.length := by
      split <;> omega
    rw [List.drop_append_of_le_length hstart] at htail
    exact htail block (List.mem_append_right _ List.mem_cons_self) hblock
  · rintro ⟨htail, hhead⟩
    rw [htail, if_pos (Nat.succ_pos _), Nat.sub_zero, Nat.min_eq_left (Nat.le_of_lt hhead),
      Nat.max_eq_right (Nat.le_of_lt hhead), ← hlength, List.drop_length,
      List.take_append_of_le_length (Nat.le_of_lt_succ hhead)]
    exact ⟨fun m hm => h m (List.mem_of_mem_take hm), fun _ hm => absurd hm List.not_mem_nil⟩

theorem systemFree_prepare_concat (engine : Option Engine) {history : List Message}
    (h : SystemFree history) {block : Message} (hblock : block.role = .system) :
    SystemFree (Agent.prepare engine (history ++ [block])) ↔
      Trimmed engine (history ++ [block]) := by
  have hwhole : ¬ SystemFree (history ++ [block]) := fun hfree =>
    hfree block (List.mem_append_right _ List.mem_cons_self) hblock
  cases engine with
  | none => exact iff_of_false hwhole fun ⟨e, he, _⟩ => nomatch he
  | some e =>
    by_cases hcompress : e.shouldCompress (history ++ [block]) = true
    · rw [Agent.prepare, if_pos hcompress, Engine.prepareForSend, if_pos hcompress,
        systemFree_compact_concat h hblock]
      exact ⟨fun hcut => ⟨e, rfl, hcompress, hcut⟩, fun ⟨_, he, _, hcut⟩ =>
        Option.some.inj he ▸ hcut⟩
    · rw [Agent.prepare, if_neg hcompress]
      exact iff_of_false hwhole fun ⟨_, he, hdoes, _⟩ =>
        hcompress (Option.some.inj he ▸ hdoes)

/-! ## Conversations -/

/-- A call of `run`, and what the memory has at its time. -/
structure Turn where
  memoryManager : Manager
  call : Call

/-- The runner, and everything it has handed to the provider. -/
structure Conversation where
  runner : RealRunner
  asked : List (List Message) := []

namespace Conversation

/-- The runner as a turn finds it. -/
def facing (c : Conversation) (t : Turn) : RealRunner :=
  { c.runner with memoryManager := t.memoryManager }

def serve (c : Conversation) (t : Turn) : Conversation where
  runner := ((c.facing t).run t.call).2
  asked := c.asked ++ ((c.facing t).run t.call).1.requests

def step (c : Conversation) (t : Turn) : Option Conversation := some (c.serve t)

end Conversation

open RealRunner Conversation

/-- **What a turn may bring**: nothing if it reaches the agent and the agent asks at all, unless it
is trimmed before. -/
def Quiet (dir : StateDir) (c : Conversation) (t : Turn) : Prop :=
  Admitted dir t.call = true → 0 < c.runner.agent.maxIterations.toNat →
    gatherPrefetch t.memoryManager t.call.req.input = none ∨
      Trimmed c.runner.agent.contextEngine
        (withRecall t.memoryManager c.runner.agent t.call.req.input).state.history

/-- The assertion holds of everything that has been asked. -/
def Asserted (c : Conversation) : Prop :=
  ∀ messages ∈ c.asked, (buildMessages messages).isSome

/-- As long as the assertion has held, the role is not in the transcript. -/
structure Fair (dir : StateDir) (c : Conversation) : Prop where
  sound : Sound dir c.runner
  transcript : 0 < c.runner.agent.maxIterations.toNat → Asserted c →
    SystemFree c.runner.agent.state.messages

theorem isSome_buildMessages_all {asked : List (List Message)} :
    (∀ messages ∈ asked, (buildMessages messages).isSome) ↔
      ∀ messages ∈ asked, SystemFree messages :=
  forall₂_congr fun messages _ => isSome_buildMessages_iff messages

theorem asserted_serve {c : Conversation} {t : Turn} :
    Asserted (c.serve t) ↔ Asserted c ∧
      ∀ messages ∈ ((c.facing t).run t.call).1.requests, SystemFree messages := by
  rw [Asserted, Conversation.serve, List.forall_mem_append, ← Asserted, isSome_buildMessages_all]

@[simp] theorem withRecall_maxIterations (memoryManager : Manager) (agent : Agent)
    (input : Bytes) :
    (withRecall memoryManager agent input).maxIterations = agent.maxIterations := by
  unfold withRecall
  split <;> rfl

@[simp] theorem withRecall_contextEngine (memoryManager : Manager) (agent : Agent)
    (input : Bytes) :
    (withRecall memoryManager agent input).contextEngine = agent.contextEngine := by
  unfold withRecall
  split <;> rfl

/-- **What a turn starts from**: a transcript with the role exactly if the memory has something and
it is not trimmed. -/
theorem systemFree_recall_iff (memoryManager : Manager) (agent : Agent) (input : Bytes)
    (h : SystemFree agent.state.messages) :
    SystemFree (Agent.prepare agent.contextEngine
        (withRecall memoryManager agent input).state.history) ↔
      gatherPrefetch memoryManager input = none ∨
        Trimmed agent.contextEngine (withRecall memoryManager agent input).state.history := by
  unfold withRecall
  cases hpieces : gatherPrefetch memoryManager input with
  | none => exact iff_of_true (systemFree_prepare h) (.inl rfl)
  | some ctxBlock =>
    rw [or_iff_right (Option.some_ne_none _)]
    exact systemFree_prepare_concat agent.contextEngine h rfl

/-- A turn that is allowed no step asks nothing. -/
theorem requests_runTurn_zero (agent : Agent) (userInput : Bytes)
    (replies : List Agent.ChatResponse) (hzero : agent.maxIterations.toNat = 0) :
    (agent.runTurn userInput replies).2.requests = [] := by
  rw [Agent.runTurn, Agent.run, hzero]
  rfl

/-- **What a turn hands over** passes the assertion exactly if the turn is quiet. -/
theorem requests_run_iff {dir : StateDir} {c : Conversation} {t : Turn} (h : Fair dir c)
    (hasserted : Asserted c) :
    (∀ messages ∈ ((c.facing t).run t.call).1.requests, SystemFree messages) ↔ Quiet dir c t := by
  have hsound : Sound dir (c.facing t) := ⟨h.sound.agree, h.sound.current⟩
  rcases (hsound.run_agent t.call).2 with ⟨hout, hnone, -⟩ | ⟨hin, hrequests, -⟩
  · rw [hnone]
    exact iff_of_true (fun _ hm => absurd hm List.not_mem_nil) fun hin =>
      absurd (hout.symm.trans hin) Bool.false_ne_true
  · rw [hrequests, turnOf]
    by_cases hpos : 0 < c.runner.agent.maxIterations.toNat
    · have hpos' : 0 < (withRecall t.memoryManager c.runner.agent
          t.call.req.input).maxIterations.toNat := by rwa [withRecall_maxIterations]
      have hiff := requests_runTurn_iff _ t.call.req.input t.call.replies hpos'
      rw [withRecall_contextEngine,
        systemFree_recall_iff _ _ _ (h.transcript hpos hasserted)] at hiff
      exact hiff.trans ⟨fun hquiet _ _ => hquiet, fun hquiet => hquiet hin hpos⟩
    · have hzero : (withRecall t.memoryManager c.runner.agent
          t.call.req.input).maxIterations.toNat = 0 := by
        rw [withRecall_maxIterations]
        exact Nat.eq_zero_of_not_pos hpos
      refine iff_of_true (fun messages hm => ?_) fun _ h => absurd h hpos
      rw [facing, requests_runTurn_zero _ _ _ hzero] at hm
      exact absurd hm List.not_mem_nil

theorem fair_serve {dir : StateDir} {c : Conversation} (t : Turn) (h : Fair dir c) :
    Fair dir (c.serve t) := by
  have hsound : Sound dir (c.facing t) := ⟨h.sound.agree, h.sound.current⟩
  refine ⟨hsound.run t.call, fun hpos hasserted => ?_⟩
  obtain ⟨hbefore, hnow⟩ := asserted_serve.mp hasserted
  rcases (hsound.run_agent t.call).2 with ⟨-, -, hagent⟩ | ⟨-, hrequests, hagent⟩
  · rw [Conversation.serve, hagent] at hpos ⊢
    exact h.transcript hpos hbefore
  · rw [Conversation.serve, hagent] at hpos ⊢
    rw [hrequests] at hnow
    have hprepared := requests_runTurn_iff (withRecall t.memoryManager c.runner.agent
      t.call.req.input) t.call.req.input t.call.replies hpos
    exact messages_runTurn _ _ _ (hprepared.mp hnow)

/-- A runner before its first turn. -/
def Conversation.start (agent : Agent) (memoryManager : Manager) (dir : StateDir) :
    Conversation where
  runner := RealRunner.init { agent with state := {} } memoryManager dir

theorem fair_start (agent : Agent) (memoryManager : Manager) (dir : StateDir) :
    Fair dir (Conversation.start agent memoryManager dir) where
  sound := Sound.init _ _ _
  transcript := fun _ _ _ hm => absurd hm List.not_mem_nil

/-- What has been asked stays asked. -/
theorem prefix_asked (turns : List Turn) (c : Conversation) :
    c.asked <+: (turns.foldl Conversation.serve c).asked := by
  induction turns generalizing c with
  | nil => exact List.prefix_refl _
  | cons t turns ih => exact (List.prefix_append _ _).trans (ih (c.serve t))

/-- **When the assertion of the provider is never reached**: everything a runner hands over in a
run, whatever the memory has at each turn, passes it exactly if every turn is quiet. -/
theorem buildMessages_asked_iff (agent : Agent) (memoryManager : Manager) (dir : StateDir)
    (turns : List Turn) :
    (∀ messages ∈ (turns.foldl Conversation.serve
        (Conversation.start agent memoryManager dir)).asked, (buildMessages messages).isSome) ↔
      StepMachine.Along Conversation.step (Quiet dir)
        (Conversation.start agent memoryManager dir) turns := by
  have halways := StepMachine.always_iff_along_total (f := Conversation.serve) (Q := Asserted)
    (fun c t h => fair_serve t h)
    (fun c t h hasserted => by
      rw [asserted_serve, and_iff_right hasserted, requests_run_iff h hasserted])
    (fair_start agent memoryManager dir) (fun _ hm => absurd hm List.not_mem_nil) turns
  refine Iff.trans ?_ halways
  constructor
  · rintro hall before ⟨later, rfl⟩
    rw [List.foldl_append] at hall
    exact fun messages hm => hall messages ((prefix_asked later _).subset hm)
  · exact fun hall => hall turns (List.prefix_refl _)

/-- **A memory that has something for an input**: the first request has the block in it, under the
role `system`. -/
theorem not_buildMessages_prefetch :
    ¬ ∀ (agent : Agent) (memoryManager : Manager) (dir : StateDir) (turns : List Turn),
      ∀ messages ∈ (turns.foldl Conversation.serve
        (Conversation.start agent memoryManager dir)).asked, (buildMessages messages).isSome := by
  intro h
  have hfails := h { executor := Agent.denyExecutor } { builtin := fun _ => none }
    StateDir.empty [{
      memoryManager := {
        builtin := fun _ => some [], external := some fun _ => some (ascii "likes tea") }
      call := { req := { sessionId := ascii "sess-1", input := ascii "hi" }
                replies := [{ text := some (ascii "hello back") }] } }]
  revert hfails
  decide

end Preconditions
end Harness
end TigerClaw
