import TigerClaw.Channels.Pipeline
import TigerClaw.Cli.LiveRunner

/-!
# Conversations that share an agent

The worker runs every message of an agent in one session, whichever chat it came from.  Two runs of
the pipeline are compared, which differ in the texts of one conversation only.

* `Agents`: the live runners behind the worker, each with its provider and its budget.
* `Variant`: the same step, but for the text of a message of the conversation.
* `Apart`: no message is run in a session that has seen a message of the conversation.
* `Alike`: what the two runs have in common; `Alike.step` keeps it.
* `replies_eq_of_apart`: under every other conversation the two runs post the same replies.
* `apart_of_owns`: a conversation with agents of its own is apart.
-/

namespace TigerClaw
namespace Channels
namespace Conversations

open Agent (Message ChatResponse StopReason)
open Cli (openTurn messagesOf record Plain)
open Context (ContentBlock LiveAgentRunner StoredMsg FitResult)

/-! ## The runners -/

/-- A response of the provider that calls no tools. -/
abbrev Response := { resp : ChatResponse // resp.toolCalls = [] }

def tagName : StopReason → Bytes
  | .endTurn => ascii "end_turn"
  | .maxTokens => ascii "max_tokens"
  | .toolUse => ascii "tool_use"
  | .stopSequence => ascii "stop_sequence"
  | .refusal => ascii "refusal"
  | .cancelled => ascii "cancelled"

/-- The dash of the message below. -/
def emDash : Bytes := [0xE2, 0x80, 0x94]

/-- `final_text` at the end of the dispatch loop. -/
def finalText (resp : ChatResponse) : Bytes :=
  let text := resp.text.getD []
  match resp.stopReason with
  | .endTurn => text
  | .cancelled =>
    if 0 < text.length then text ++ ascii "\n[cancelled]" else ascii "[cancelled]"
  | stop =>
    if text = [] then ascii "(no reply " ++ emDash ++ ascii " provider stop_reason=" ++
      tagName stop ++
      ascii "; the transcript may be corrupted, try /clear or restart the gateway)"
    else text

/-- `liveRun`, when the provider is a function of the messages and calls no tools; its failures are
errors of the turn. -/
def runTurn (provider : List Message → Option Response) (tokenBudget : UInt32)
    (self : LiveAgentRunner) (req : TurnRequest) : Option (Option TurnResult × LiveAgentRunner) :=
  if req.sessionId = [] then some (none, self)
  else do
    let (self, assembled) ← (openTurn self
      { sessionId := req.sessionId, input := req.input, tokenBudget }).toOption
    match provider (messagesOf assembled) with
    | none => some (none, self)
    | some resp =>
      let self ← (record self req.sessionId (resp.val.text.getD []) []).toOption
      some (some {
        output := finalText resp.val
        completed := resp.val.stopReason ≠ .refusal }, self)

/-- Such a turn is one of `Cli.liveRun`, with the provider's answer as its only reply. -/
theorem liveRun_of_runTurn {provider : List Message → Option Response} {tokenBudget : UInt32}
    {self self' : LiveAgentRunner} {req : TurnRequest} {result : Option TurnResult}
    (h : runTurn provider tokenBudget self req = some (result, self')) :
    ∃ replies : List ChatResponse, (Cli.liveRun self
      { sessionId := req.sessionId, input := req.input, tokenBudget, replies }).2 = some self' := by
  rw [runTurn] at h
  split at h
  · rename_i hmissing
    obtain ⟨-, rfl⟩ := Prod.mk.inj (Option.some.inj h)
    exact ⟨[], by rw [Cli.liveRun, if_pos hmissing]⟩
  rename_i hsession
  obtain ⟨⟨runner, assembled⟩, hopen, h⟩ := Option.bind_eq_some_iff.mp h
  have hlive : ∀ replies : List ChatResponse, Cli.liveRun self
      { sessionId := req.sessionId, input := req.input, tokenBudget, replies } =
        Cli.dispatchLoop req.sessionId (fun _ _ => { outcome := .ok [] }) 0 replies false runner
          (messagesOf assembled) := by
    intro replies
    have hopen' : (openTurn self
        { sessionId := req.sessionId, input := req.input, tokenBudget, replies }).toOption =
          some (runner, assembled) := hopen
    rw [Cli.liveRun, if_neg hsession, hopen']
  dsimp only at h
  cases hprovider : provider (messagesOf assembled) with
  | none =>
    rw [hprovider] at h
    obtain ⟨-, rfl⟩ := Prod.mk.inj (Option.some.inj h)
    exact ⟨[], by rw [hlive, Cli.dispatchLoop]⟩
  | some resp =>
    rw [hprovider] at h
    obtain ⟨runner₁, hrecord, h⟩ := Option.bind_eq_some_iff.mp h
    obtain ⟨-, rfl⟩ := Prod.mk.inj (Option.some.inj h)
    refine ⟨[resp.val], ?_⟩
    rw [hlive, Cli.dispatchLoop, resp.property, Cli.playRound,
      Outcome.toOption_eq_some.mp hrecord]
    rfl

/-- The runners of a registry, or the single one: which of them has the turns of an agent, what its
provider answers, and how much of a session it sends. -/
structure Agents (κ : Type) where
  resolve : Bytes → Option κ
  provider : κ → List Message → Option Response
  tokenBudget : κ → UInt32

variable {κ : Type} [DecidableEq κ]

/-- The session of a request is the agent that the worker has resolved. -/
def Agents.source (agents : Agents κ) : RunnerSource (κ → LiveAgentRunner) Unit where
  resolve agentName := (agents.resolve agentName).isSome
  run runners _ req := do
    let k ← agents.resolve req.sessionId
    let (result, runner) ← runTurn (agents.provider k) (agents.tokenBudget k) (runners k) req
    some (result, Function.update runners k runner)

/-! ## Two runs -/

/-- The same message, but for its text if it is one of the conversation `A`. -/
def Varies (A : Bytes) (raw raw' : InboundMessage) : Prop :=
  raw = raw' ∨ raw.conversationKey = A ∧ raw' = { raw with text := raw'.text }

/-- The same step, but for the text of a message of the conversation. -/
inductive Variant (A : Bytes) : Pipeline.Action Unit → Pipeline.Action Unit → Prop
  | receive (binding : ℕ) {raw raw' : InboundMessage} (h : Varies A raw raw') :
    Variant A (.receive binding raw) (.receive binding raw')
  | dequeue (cancel : Bool) : Variant A (.dequeue cancel) (.dequeue cancel)
  | work (nowMs : Int64) (appendFails : Bool) :
    Variant A (.work nowMs () appendFails) (.work nowMs () appendFails)

/-- The replies that have been posted under a conversation, in order. -/
def repliesUnder {σ : Type} (s : Pipeline σ) (B : Bytes) : List OutboundMessage :=
  (s.posted.map Posted.out).filter fun out => out.conversationKey = B

/-- A message of the conversation has been run in the session. -/
def Mixed (A : Bytes) (handled : List Handled) (sessionId : Bytes) : Prop :=
  ∃ h ∈ handled, h.ran ∧ h.arrival.msg.conversationKey = A ∧ h.arrival.msg.agentName = sessionId

/-- The worker processes no message of another conversation in such a session. -/
def Apart {σ : Type} (A : Bytes) (s : Pipeline σ) : Pipeline.Action Unit → Prop
  | .work .. => ∀ a, s.worker = .holding a → a.msg.conversationKey ≠ A →
      ¬ Mixed A s.handled a.msg.agentName
  | _ => True

/-! ## Runners -/

/-- What a session tells the provider: a message without its ids. -/
def view (m : StoredMsg) : Context.Role × Bytes × Option (List ContentBlock) :=
  (m.role, m.content, m.blocks)

def views (self : LiveAgentRunner) (sessionId : Bytes) :
    List (Context.Role × Bytes × Option (List ContentBlock)) :=
  (self.contextEngine.history sessionId).map view

/-- **An ingested message is the last of its session**, and no other session changes. -/
theorem views_ingest {self self' : LiveAgentRunner} (h : Plain self) {sessionId content : Bytes}
    {role : Context.Role} {blocks : Option (List ContentBlock)}
    (hcall : self.call (.ingest sessionId role content blocks false) = .ok self') (s : Bytes) :
    views self' s = views self s ++ if s = sessionId then [(role, content, blocks)] else [] := by
  obtain ⟨hmessages, -, -⟩ := LiveAgentRunner.call_ingest h.fresh hcall
  rw [views, (h.ingest hcall).1.history, hmessages, List.filter_append, List.map_append,
    ← h.history, ← views, List.filter_singleton]
  congr 1
  by_cases hs : s = sessionId
  · rw [if_pos hs, hs, beq_self_eq_true]
    rfl
  · rw [if_neg hs, beq_false_of_ne (Ne.symm hs)]
    rfl

/-- Two runners say the same in every session that is not mixed. -/
structure AlikeRunners (mixed : Bytes → Prop) (runner runner' : LiveAgentRunner) : Prop where
  plain : Plain runner
  plain' : Plain runner'
  views : ∀ s, ¬ mixed s → views runner s = views runner' s

namespace AlikeRunners

variable {mixed mixed' : Bytes → Prop} {runner runner' self self' : LiveAgentRunner}

theorem symm (h : AlikeRunners mixed runner runner') : AlikeRunners mixed runner' runner :=
  ⟨h.plain', h.plain, fun s hs => (h.views s hs).symm⟩

theorem mono (h : AlikeRunners mixed runner runner') (hmixed : ∀ s, mixed s → mixed' s) :
    AlikeRunners mixed' runner runner' :=
  ⟨h.plain, h.plain', fun s hs => h.views s fun hs' => hs (hmixed s hs')⟩

/-- Both ingest the same. -/
theorem ingest (h : AlikeRunners mixed runner runner') {sessionId content : Bytes}
    {role : Context.Role} {blocks : Option (List ContentBlock)}
    (hcall : runner.call (.ingest sessionId role content blocks false) = .ok self)
    (hcall' : runner'.call (.ingest sessionId role content blocks false) = .ok self') :
    AlikeRunners mixed self self' :=
  ⟨(h.plain.ingest hcall).1, (h.plain'.ingest hcall').1, fun s hs => by
    rw [views_ingest h.plain hcall, views_ingest h.plain' hcall', h.views s hs]⟩

/-- One of them ingests something in a mixed session. -/
theorem ingest_left (h : AlikeRunners mixed runner runner') {sessionId content : Bytes}
    {role : Context.Role} {blocks : Option (List ContentBlock)} (hmixed : mixed sessionId)
    (hcall : runner.call (.ingest sessionId role content blocks false) = .ok self) :
    AlikeRunners mixed self runner' := by
  refine ⟨(h.plain.ingest hcall).1, h.plain', fun s hs => ?_⟩
  have hne : s ≠ sessionId := by
    rintro rfl
    exact hs hmixed
  rw [views_ingest h.plain hcall, if_neg hne, List.append_nil, h.views s hs]

/-- What is recorded of an answer, if anything is. -/
theorem record_left (h : AlikeRunners mixed runner runner') {sessionId text : Bytes}
    (hmixed : mixed sessionId) (hrecord : record runner sessionId text [] = .ok self) :
    AlikeRunners mixed self runner' := by
  rw [Cli.record] at hrecord
  split at hrecord
  · exact h.ingest_left hmixed hrecord
  · exact Outcome.ok.inj hrecord ▸ h

theorem record (h : AlikeRunners mixed runner runner') {sessionId text : Bytes}
    (hrecord : record runner sessionId text [] = .ok self)
    (hrecord' : Cli.record runner' sessionId text [] = .ok self') :
    AlikeRunners mixed self self' := by
  rw [Cli.record] at hrecord hrecord'
  split at hrecord
  · rename_i hsays
    rw [if_pos hsays] at hrecord'
    exact h.ingest hrecord hrecord'
  · rename_i hsilent
    rw [if_neg hsilent] at hrecord'
    exact Outcome.ok.inj hrecord ▸ Outcome.ok.inj hrecord' ▸ h

end AlikeRunners

/-- Only what a session says is assembled. -/
theorem mapM'_historySection_congr {l l' : List StoredMsg} (h : l.map view = l'.map view) :
    l.mapM' Context.DefaultEngine.historySection =
      l'.mapM' Context.DefaultEngine.historySection := by
  have hsection : ∀ m m' : StoredMsg, view m = view m' →
      Context.DefaultEngine.historySection m = Context.DefaultEngine.historySection m' := by
    intro m m' hview
    obtain ⟨hrole, hcontent, hblocks⟩ : m.role = m'.role ∧ m.content = m'.content ∧
        m.blocks = m'.blocks := by
      simpa [view] using hview
    rw [Context.DefaultEngine.historySection, Context.DefaultEngine.historySection, hrole,
      hcontent, hblocks]
  induction l generalizing l' with
  | nil =>
    obtain rfl := List.map_eq_nil_iff.mp h.symm
    rfl
  | cons m l ih =>
    cases l' with
    | nil => cases h
    | cons m' l' =>
      obtain ⟨hm, hl⟩ := List.cons.inj h
      rw [List.mapM'_cons, List.mapM'_cons, hsection m m' hm, ih hl]

/-- Plain runners that say the same in a session assemble the same. -/
theorem assemble_congr {runner runner' : LiveAgentRunner} (h : Plain runner) (h' : Plain runner')
    {sessionId : Bytes} (hviews : views runner sessionId = views runner' sessionId)
    (prompt : Bytes) (tokenBudget : UInt32) :
    runner.contextEngine.assemble sessionId prompt tokenBudget =
      runner'.contextEngine.assemble sessionId prompt tokenBudget := by
  have hmarkers : runner.contextEngine.markersOf sessionId =
      runner'.contextEngine.markersOf sessionId := by
    rw [Context.DefaultEngine.markersOf, Context.DefaultEngine.markersOf, h.unmarked, h'.unmarked]
  rw [Context.DefaultEngine.assemble, Context.DefaultEngine.assemble,
    Context.DefaultEngine.sections, Context.DefaultEngine.sections,
    mapM'_historySection_congr hviews, hmarkers]

namespace AlikeRunners

variable {mixed : Bytes → Prop} {runner runner' self self' : LiveAgentRunner}
  {provider : List Message → Option Response} {tokenBudget : UInt32} {req : TurnRequest}
  {result result' : Option TurnResult}

/-- **A turn in a session that is not mixed answers the same.** -/
theorem runTurn_eq (h : AlikeRunners mixed runner runner') (hnot : ¬ mixed req.sessionId)
    (hturn : runTurn provider tokenBudget runner req = some (result, self))
    (hturn' : runTurn provider tokenBudget runner' req = some (result', self')) :
    result = result' ∧ AlikeRunners mixed self self' := by
  rw [runTurn] at hturn hturn'
  split at hturn
  · rename_i hmissing
    rw [if_pos hmissing] at hturn'
    obtain ⟨rfl, rfl⟩ := Prod.mk.inj (Option.some.inj hturn)
    obtain ⟨rfl, rfl⟩ := Prod.mk.inj (Option.some.inj hturn')
    exact ⟨rfl, h⟩
  rename_i hsession
  rw [if_neg hsession] at hturn'
  obtain ⟨⟨runner₁, assembled⟩, hopen, hturn⟩ := Option.bind_eq_some_iff.mp hturn
  obtain ⟨⟨runner₁', assembled'⟩, hopen', hturn'⟩ := Option.bind_eq_some_iff.mp hturn'
  obtain ⟨ingested, hcall, hopen⟩ := Outcome.bind_eq_ok.mp (Outcome.toOption_eq_some.mp hopen)
  obtain ⟨fitted, hassemble, hopen⟩ := Outcome.bind_eq_ok.mp hopen
  obtain ⟨rfl, rfl⟩ := Prod.mk.inj (Outcome.ok.inj hopen)
  obtain ⟨ingested', hcall', hopen'⟩ := Outcome.bind_eq_ok.mp (Outcome.toOption_eq_some.mp hopen')
  obtain ⟨fitted', hassemble', hopen'⟩ := Outcome.bind_eq_ok.mp hopen'
  obtain ⟨rfl, rfl⟩ := Prod.mk.inj (Outcome.ok.inj hopen')
  have h₁ := h.ingest hcall hcall'
  have hsame := assemble_congr h₁.plain h₁.plain' (h₁.views _ hnot) req.input tokenBudget
  obtain rfl := Outcome.ok.inj (hassemble.symm.trans (hsame.trans hassemble'))
  dsimp only at hturn hturn'
  cases hprovider : provider (messagesOf fitted) with
  | none =>
    rw [hprovider] at hturn hturn'
    obtain ⟨rfl, rfl⟩ := Prod.mk.inj (Option.some.inj hturn)
    obtain ⟨rfl, rfl⟩ := Prod.mk.inj (Option.some.inj hturn')
    exact ⟨rfl, h₁⟩
  | some resp =>
    rw [hprovider] at hturn hturn'
    obtain ⟨runner₂, hrecord, hturn⟩ := Option.bind_eq_some_iff.mp hturn
    obtain ⟨runner₂', hrecord', hturn'⟩ := Option.bind_eq_some_iff.mp hturn'
    obtain ⟨rfl, rfl⟩ := Prod.mk.inj (Option.some.inj hturn)
    obtain ⟨rfl, rfl⟩ := Prod.mk.inj (Option.some.inj hturn')
    exact ⟨rfl, h₁.record (Outcome.toOption_eq_some.mp hrecord)
      (Outcome.toOption_eq_some.mp hrecord')⟩

/-- A turn of one of them in a mixed session. -/
theorem runTurn_left (h : AlikeRunners mixed runner runner') (hmixed : mixed req.sessionId)
    (hturn : runTurn provider tokenBudget runner req = some (result, self)) :
    AlikeRunners mixed self runner' := by
  rw [runTurn] at hturn
  split at hturn
  · obtain ⟨-, rfl⟩ := Prod.mk.inj (Option.some.inj hturn)
    exact h
  obtain ⟨⟨runner₁, assembled⟩, hopen, hturn⟩ := Option.bind_eq_some_iff.mp hturn
  obtain ⟨ingested, hcall, hopen⟩ := Outcome.bind_eq_ok.mp (Outcome.toOption_eq_some.mp hopen)
  obtain ⟨fitted, -, hopen⟩ := Outcome.bind_eq_ok.mp hopen
  obtain ⟨rfl, rfl⟩ := Prod.mk.inj (Outcome.ok.inj hopen)
  have h₁ := h.ingest_left hmixed hcall
  dsimp only at hturn
  cases hprovider : provider (messagesOf fitted) with
  | none =>
    rw [hprovider] at hturn
    obtain ⟨-, rfl⟩ := Prod.mk.inj (Option.some.inj hturn)
    exact h₁
  | some resp =>
    rw [hprovider] at hturn
    obtain ⟨runner₂, hrecord, hturn⟩ := Option.bind_eq_some_iff.mp hturn
    obtain ⟨-, rfl⟩ := Prod.mk.inj (Option.some.inj hturn)
    exact h₁.record_left hmixed (Outcome.toOption_eq_some.mp hrecord)

end AlikeRunners

/-! ## What the two runs have in common -/

/-- The same message of the same binding, but for its text if it is one of the conversation. -/
def VariesArrival (A : Bytes) (a a' : Arrival) : Prop :=
  a.binding = a'.binding ∧ Varies A a.msg a'.msg

theorem varies_stamp {A : Bytes} {raw raw' : InboundMessage} (h : Varies A raw raw')
    (entry : ChannelEntry) : Varies A (entry.stamp raw) (entry.stamp raw') := by
  rcases h with rfl | ⟨hkey, heq⟩
  · exact .inl rfl
  · refine .inr ⟨hkey, ?_⟩
    rw [heq]
    rfl

theorem Varies.agentName {A : Bytes} {raw raw' : InboundMessage} (h : Varies A raw raw') :
    raw.agentName = raw'.agentName ∧ raw.conversationKey = raw'.conversationKey := by
  rcases h with rfl | ⟨-, heq⟩
  · exact ⟨rfl, rfl⟩
  · rw [heq]
    exact ⟨rfl, rfl⟩

/-- Where the worker stands in the two runs. -/
inductive AlikeWorkers (A : Bytes) : Worker → Worker → Prop
  | idle : AlikeWorkers A .idle .idle
  | holding {a a' : Arrival} (h : VariesArrival A a a') : AlikeWorkers A (.holding a) (.holding a')
  | stopped : AlikeWorkers A .stopped .stopped

/-- **What the two runs have in common.** -/
structure Alike (A : Bytes) (s s' : Pipeline (κ → LiveAgentRunner)) : Prop where
  queue : s.queue.WellFormed
  queue' : s'.queue.WellFormed
  capacity : s.queue.buffer.capacity = s'.queue.buffer.capacity
  contents : List.Forall₂ (VariesArrival A) s.queue.contents s'.queue.contents
  worker : AlikeWorkers A s.worker s'.worker
  runner : ∀ k, AlikeRunners (Mixed A s.handled) (s.runner k) (s'.runner k)
  replies : ∀ B, B ≠ A → repliesUnder s B = repliesUnder s' B

theorem forall₂_push {α β : Type} {R : α → β → Prop} {l : List α} {l' : List β} {a : α} {b : β}
    (cap : ℕ) (h : List.Forall₂ R l l') (hab : R a b) :
    List.Forall₂ R (BoundedFifo.push cap l a) (BoundedFifo.push cap l' b) := by
  rw [BoundedFifo.push, BoundedFifo.push, ← h.length_eq]
  have hlast : List.Forall₂ R [a] [b] := .cons hab .nil
  split
  · refine List.rel_append ?_ hlast
    cases h with
    | nil => exact .nil
    | cons _ htail => exact htail
  · exact List.rel_append h hlast

/-! ## The worker in the two runs -/

section

variable {agents : Agents κ} {mixed : Bytes → Prop}
  {runners runners' after after' : κ → LiveAgentRunner} {msg : InboundMessage}
  {turned turned' : Turned}

/-- What a processed message is to the runners: nothing, or a turn of the agent's one. -/
theorem processOne_cases
    (h : processOne agents.source runners () msg = some (turned, after)) :
    (turned = ⟨false, none⟩ ∧ after = runners ∧ agents.resolve msg.agentName = none) ∨
      ∃ k result runner, agents.resolve msg.agentName = some k ∧
        runTurn (agents.provider k) (agents.tokenBudget k) (runners k) ⟨msg.agentName, msg.text⟩ =
          some (result, runner) ∧
        turned = ⟨true, replyTo msg result⟩ ∧ after = Function.update runners k runner := by
  rw [processOne] at h
  split at h
  · rename_i hresolve
    obtain ⟨rfl, rfl⟩ := Prod.mk.inj (Option.some.inj h)
    exact .inl ⟨rfl, rfl, Option.isNone_iff_eq_none.mp (Option.isSome_eq_false_iff.mp hresolve)⟩
  · obtain ⟨⟨result, runners₁⟩, hrun, h⟩ := Option.bind_eq_some_iff.mp h
    obtain ⟨rfl, rfl⟩ := Prod.mk.inj (Option.some.inj h)
    obtain ⟨k, hk, hrun⟩ := Option.bind_eq_some_iff.mp hrun
    obtain ⟨⟨result₁, runner⟩, hturn, hrun⟩ := Option.bind_eq_some_iff.mp hrun
    obtain ⟨rfl, rfl⟩ := Prod.mk.inj (Option.some.inj hrun)
    exact .inr ⟨k, result₁, runner, hk, hturn, rfl, rfl⟩

/-- A message in a session that is not mixed is answered the same. -/
theorem processOne_eq (halike : ∀ k, AlikeRunners mixed (runners k) (runners' k))
    (hnot : ¬ mixed msg.agentName)
    (h : processOne agents.source runners () msg = some (turned, after))
    (h' : processOne agents.source runners' () msg = some (turned', after')) :
    turned = turned' ∧ ∀ k, AlikeRunners mixed (after k) (after' k) := by
  rcases processOne_cases h with ⟨rfl, rfl, hnone⟩ | ⟨k, result, runner, hk, hturn, rfl, rfl⟩
  · rcases processOne_cases h' with ⟨rfl, rfl, -⟩ | ⟨k, result, runner, hk, -⟩
    · exact ⟨rfl, halike⟩
    · exact nomatch hnone.symm.trans hk
  · rcases processOne_cases h' with ⟨-, -, hnone⟩ | ⟨k', result', runner', hk', hturn', rfl, rfl⟩
    · exact nomatch hnone.symm.trans hk
    · obtain rfl := Option.some.inj (hk.symm.trans hk')
      obtain ⟨rfl, hrunner⟩ := (halike k).runTurn_eq hnot hturn hturn'
      refine ⟨rfl, fun l => ?_⟩
      by_cases hl : l = k
      · rw [hl, Function.update_self, Function.update_self]
        exact hrunner
      · rw [Function.update_of_ne hl, Function.update_of_ne hl]
        exact halike l

/-- A message that is run in a mixed session leaves the others as they are. -/
theorem processOne_left (halike : ∀ k, AlikeRunners mixed (runners k) (runners' k))
    (hmixed : turned.ran → mixed msg.agentName)
    (h : processOne agents.source runners () msg = some (turned, after)) (k : κ) :
    AlikeRunners mixed (after k) (runners' k) := by
  rcases processOne_cases h with ⟨-, rfl, -⟩ | ⟨l, result, runner, -, hturn, rfl, rfl⟩
  · exact halike k
  · by_cases hk : k = l
    · rw [hk, Function.update_self]
      exact (halike l).runTurn_left (hmixed rfl) hturn
    · rw [Function.update_of_ne hk]
      exact halike k

end

theorem mixed_append {A : Bytes} {handled : List Handled} {h : Handled} {sessionId : Bytes} :
    Mixed A (handled ++ [h]) sessionId ↔ Mixed A handled sessionId ∨
      (h.ran ∧ h.arrival.msg.conversationKey = A ∧ h.arrival.msg.agentName = sessionId) := by
  simp only [Mixed, List.mem_append, List.mem_singleton, or_and_right, exists_or, exists_eq_left]

/-- What a step of the worker adds under a conversation. -/
theorem repliesUnder_worked {σ : Type} (s : Pipeline σ) (a : Arrival) (nowMs : Int64)
    (appendFails : Bool) (turned : Turned) (runner : σ) (B : Bytes) :
    repliesUnder (s.worked a nowMs appendFails turned runner) B = repliesUnder s B ++
      ((if appendFails then none else turned.reply).toList.filter
        fun out => out.conversationKey = B) := by
  rw [repliesUnder, Pipeline.worked, List.map_append, List.filter_append, ← repliesUnder]
  congr 1
  cases (if appendFails then none else turned.reply) <;> rfl

/-- **A step that keeps the conversations apart keeps the runs alike.** -/
theorem Alike.step {A : Bytes} {m : Manager} {agents : Agents κ}
    {s s' t t' : Pipeline (κ → LiveAgentRunner)} {a b : Pipeline.Action Unit} (h : Alike A s t)
    (hvariant : Variant A a b) (hapart : Apart A s a)
    (hstep : Pipeline.step m agents.source s a = some s')
    (hstep' : Pipeline.step m agents.source t b = some t') : Alike A s' t' := by
  have hmoves := Pipeline.moves_of_step h.queue hstep
  have hmoves' := Pipeline.moves_of_step h.queue' hstep'
  cases hvariant with
  | receive binding hraw =>
    cases hmoves with
    | received _ raw entry queue hentry hqueue hcapacity hcontents =>
    cases hmoves' with
    | received _ raw' entry' queue' hentry' hqueue' hcapacity' hcontents' =>
    obtain rfl := Option.some.inj (hentry.symm.trans hentry')
    refine { h with
      queue := hqueue
      queue' := hqueue'
      capacity := hcapacity.trans (h.capacity.trans hcapacity'.symm)
      contents := ?_ }
    rw [hcontents, hcontents', h.capacity]
    exact forall₂_push _ h.contents ⟨rfl, varies_stamp hraw entry⟩
  | dequeue cancel =>
    have hlength := h.contents.length_eq
    cases hmoves with
    | took _ a queue hidle hcons hqueue hcapacity =>
      cases hmoves' with
      | took _ a' queue' hidle' hcons' hqueue' hcapacity' =>
        have hcontents := h.contents
        rw [hcons, hcons', List.forall₂_cons] at hcontents
        exact { h with
          queue := hqueue
          queue' := hqueue'
          capacity := hcapacity.trans (h.capacity.trans hcapacity'.symm)
          contents := hcontents.2
          worker := .holding hcontents.1 }
      | waited _ hidle' hnil' =>
        rw [hcons, hnil'] at hlength
        exact nomatch hlength
    | waited _ hidle hnil =>
      cases hmoves' with
      | took _ a' queue' hidle' hcons' hqueue' hcapacity' =>
        rw [hnil, hcons'] at hlength
        exact nomatch hlength
      | waited _ hidle' hnil' =>
        refine { h with worker := ?_ }
        cases cancel
        · exact .idle
        · exact .stopped
  | work nowMs appendFails =>
    cases hmoves with
    | processed _ _ _ a turned runner hholding hprocess =>
    cases hmoves' with
    | processed _ _ _ a' turned' runner' hholding' hprocess' =>
    have harrival : VariesArrival A a a' := by
      have hworker := h.worker
      rw [hholding, hholding'] at hworker
      cases hworker with
      | holding harrival => exact harrival
    obtain ⟨hagent, hkey⟩ := harrival.2.agentName
    have hran : turned'.ran = turned.ran := by
      rw [(processOne_ran hprocess').1, (processOne_ran hprocess).1, hagent]
    by_cases hA : a.msg.conversationKey = A
    · -- both sessions take in a message of the conversation, whatever it says
      have halike : ∀ k, AlikeRunners (Mixed A (s.handled ++ [⟨a, nowMs, turned.ran⟩]))
          (s.runner k) (t.runner k) := fun k =>
        (h.runner k).mono fun _ hs => mixed_append.mpr (.inl hs)
      have hmixed : turned.ran → Mixed A (s.handled ++ [⟨a, nowMs, turned.ran⟩]) a.msg.agentName :=
        fun hr => mixed_append.mpr (.inr ⟨hr, hA, rfl⟩)
      have hleft := processOne_left halike hmixed hprocess
      have hright := processOne_left (fun k => (hleft k).symm)
        (fun hr => hagent ▸ hmixed (hran ▸ hr)) hprocess'
      refine { h with
        worker := .idle
        runner := fun k => (hright k).symm
        replies := fun B hB => ?_ }
      have hnone : ∀ (turned : Turned) (msg : InboundMessage), msg.conversationKey = A →
          (∀ out, turned.reply = some out → out.conversationKey = msg.conversationKey) →
          (if appendFails then none else turned.reply).toList.filter
            (fun out => out.conversationKey = B) = [] := by
        intro turned msg hmsg hreply
        rw [List.filter_eq_nil_iff]
        intro out hout
        rw [Option.mem_toList] at hout
        split at hout
        · exact nomatch hout
        · rw [hreply out hout, hmsg]
          simpa using Ne.symm hB
      rw [repliesUnder_worked, repliesUnder_worked, h.replies B hB,
        hnone turned a.msg hA fun out hout => (processOne_reply hprocess hout).1,
        hnone turned' a'.msg (hkey ▸ hA) fun out hout => (processOne_reply hprocess' hout).1]
    · -- the same message, in a session that is not mixed
      obtain hmsg : a.msg = a'.msg := harrival.2.resolve_right fun hvaries => hA hvaries.1
      rw [← hmsg] at hprocess'
      obtain ⟨rfl, hrunner⟩ :=
        processOne_eq h.runner (hapart a hholding hA) hprocess hprocess'
      refine { h with
        worker := .idle
        runner := fun k => (hrunner k).mono fun _ hs => mixed_append.mpr (.inl hs)
        replies := fun B hB => ?_ }
      rw [repliesUnder_worked, repliesUnder_worked, h.replies B hB]

omit [DecidableEq κ] in
/-- Fresh runners, and an empty queue. -/
theorem alike_start (A : Bytes) (buffer : Buffer Arrival) :
    Alike A (Pipeline.start buffer fun _ : κ => {}) (Pipeline.start buffer fun _ : κ => {}) where
  queue := Dispatch.wellFormed_init buffer
  queue' := Dispatch.wellFormed_init buffer
  capacity := rfl
  contents := by
    rw [Pipeline.start, Dispatch.contents_init]
    exact .nil
  worker := .idle
  runner _ := ⟨Plain.init, Plain.init, fun _ _ => rfl⟩
  replies _ _ := rfl

/-- **Conversations that share no session do not influence each other**: two runs that differ in
the texts of one conversation post the same replies under every other. -/
theorem replies_eq_of_apart {A : Bytes} {m : Manager} {agents : Agents κ}
    {buffer : Buffer Arrival} {as bs : List (Pipeline.Action Unit)}
    {s t : Pipeline (κ → LiveAgentRunner)} (hvariant : List.Forall₂ (Variant A) as bs)
    (hapart : StepMachine.Along (Pipeline.step m agents.source) (Apart A)
      (Pipeline.start buffer fun _ => {}) as)
    (hs : StepMachine.run (Pipeline.step m agents.source) (Pipeline.start buffer fun _ => {}) as =
      some s)
    (ht : StepMachine.run (Pipeline.step m agents.source) (Pipeline.start buffer fun _ => {}) bs =
      some t) (B : Bytes) (hB : B ≠ A) : repliesUnder s B = repliesUnder t B :=
  (StepMachine.related_run (fun _ _ _ _ _ _ h hv hp hstep hstep' => h.step hv hp hstep hstep')
    (alike_start A buffer) hvariant hapart hs ht).replies B hB

/-! ## Agents of their own -/

/-- The conversation is with agents that nobody else is with. -/
def Owns (A : Bytes) (owned : Bytes → Prop) (m : Manager) : Pipeline.Action Unit → Prop
  | .receive binding raw => ∀ entry, m.entries[binding]? = some entry →
      (raw.conversationKey = A ↔ owned entry.agentName)
  | _ => True

/-- So it is with this message. -/
def Owned (A : Bytes) (owned : Bytes → Prop) (a : Arrival) : Prop :=
  a.msg.conversationKey = A ↔ owned a.msg.agentName

structure Separated {σ : Type} (A : Bytes) (owned : Bytes → Prop) (s : Pipeline σ) : Prop where
  queue : s.queue.WellFormed
  queued : ∀ a ∈ s.queue.contents, Owned A owned a
  held : ∀ a, s.worker = .holding a → Owned A owned a
  handled : ∀ h ∈ s.handled, Owned A owned h.arrival

theorem separated_start {σ : Type} (A : Bytes) (owned : Bytes → Prop) (buffer : Buffer Arrival)
    (runner : σ) : Separated A owned (Pipeline.start buffer runner) where
  queue := Dispatch.wellFormed_init buffer
  queued a ha := by
    rw [Pipeline.start, Dispatch.contents_init] at ha
    cases ha
  held _ ha := by cases ha
  handled _ he := by cases he

theorem separated_step {σ : Type} {A : Bytes} {owned : Bytes → Prop} {m : Manager}
    {source : RunnerSource σ Unit} {s s' : Pipeline σ} {a : Pipeline.Action Unit}
    (h : Separated A owned s) (ha : Owns A owned m a)
    (hstep : Pipeline.step m source s a = some s') : Separated A owned s' := by
  cases Pipeline.moves_of_step h.queue hstep with
  | received binding raw entry queue hentry hqueue hcapacity hcontents =>
    refine ⟨hqueue, fun b hb => ?_, h.held, h.handled⟩
    rw [hcontents] at hb
    rcases List.mem_append.mp ((BoundedFifo.push_sublist _ _ _).subset hb) with hb | hb
    · exact h.queued b hb
    · obtain rfl := List.mem_singleton.mp hb
      exact ha entry hentry
  | took cancel a queue hidle hcons hqueue hcapacity =>
    refine ⟨hqueue, fun b hb => h.queued b (hcons ▸ List.mem_cons_of_mem a hb), fun b hb => ?_,
      h.handled⟩
    obtain rfl := Worker.holding.inj hb
    exact h.queued a (hcons ▸ List.mem_cons_self)
  | waited cancel hidle hnil =>
    refine ⟨h.queue, h.queued, fun b hb => ?_, h.handled⟩
    cases cancel <;> exact nomatch hb
  | processed nowMs env appendFails a turned runner hholding hprocess =>
    refine ⟨h.queue, h.queued, fun _ hb => (nomatch hb), fun e he => ?_⟩
    rcases List.mem_append.mp he with he | he
    · exact h.handled e he
    · obtain rfl := List.mem_singleton.mp he
      exact h.held a hholding

/-- **A conversation with agents of its own is apart in every run.** -/
theorem apart_of_owns {σ : Type} {A : Bytes} {owned : Bytes → Prop} {m : Manager}
    {source : RunnerSource σ Unit} {buffer : Buffer Arrival} {runner : σ}
    {as : List (Pipeline.Action Unit)} (h : ∀ a ∈ as, Owns A owned m a) :
    StepMachine.Along (Pipeline.step m source) (Apart A) (Pipeline.start buffer runner) as := by
  refine StepMachine.along_imp (I := Separated A owned) (P := fun _ a => Owns A owned m a)
    (fun s a s' hs ha hstep => separated_step hs ha hstep) ?_ ?_
    (StepMachine.along_of_forall fun a ha _ => h a ha)
  · rintro s (_ | _ | ⟨nowMs, -, appendFails⟩) hs -
    · trivial
    · trivial
    · rintro a hholding hne ⟨e, he, -, hkey, hagent⟩
      exact hne ((hs.held a hholding).mpr (hagent ▸ (hs.handled e he).mp hkey))
  · exact separated_start A owned buffer runner

/-! ## Two chats -/

/-- A runner whose provider repeats all that it is told. -/
def parrot : Agents Unit where
  resolve _ := some ()
  provider _ messages := some ⟨{ text := some (messages.flatMap Message.flatText) }, rfl⟩
  tokenBudget _ := 1000

/-- A message of the chat `1`, and then one of the chat `2`, each received and answered. -/
def twoChats (first second : ℕ) (text : Bytes) : List (Pipeline.Action Unit) :=
  [.receive first { upstreamId := 1, conversationKey := ascii "1", senderId := ascii "a", text },
    .dequeue false, .work 0 () false,
    .receive second
      { upstreamId := 2, conversationKey := ascii "2", senderId := ascii "b", text := ascii "hi" },
    .dequeue false, .work 0 () false]

theorem variant_twoChats (first second : ℕ) (text text' : Bytes) :
    List.Forall₂ (Variant (ascii "1")) (twoChats first second text)
      (twoChats first second text') := by
  refine .cons (.receive first (.inr ⟨rfl, rfl⟩)) (.cons (.dequeue false)
    (.cons (.work 0 false) ?_))
  exact .cons (.receive second (.inl rfl)) (.cons (.dequeue false) (.cons (.work 0 false) .nil))

/-- What the second chat is told when both are with this agent. -/
def toldSecond (m : Manager) (agents : Agents κ) (actions : List (Pipeline.Action Unit)) :
    Option (List Bytes) :=
  (StepMachine.run (Pipeline.step m agents.source) (Pipeline.start oneCell fun _ => {})
    actions).map fun s => (repliesUnder s (ascii "2")).map OutboundMessage.text

/-- With an agent for each, the second chat is told the same. -/
theorem replies_eq_on_two_agents : ∃ s t,
    StepMachine.run (Pipeline.step twoAgents parrot.source) (Pipeline.start oneCell fun _ => {})
        (twoChats 0 1 (ascii "red")) = some s ∧
      StepMachine.run (Pipeline.step twoAgents parrot.source) (Pipeline.start oneCell fun _ => {})
        (twoChats 0 1 (ascii "blue")) = some t ∧
      (repliesUnder s (ascii "2")).map OutboundMessage.text = [ascii "hi"] ∧
      repliesUnder s (ascii "2") = repliesUnder t (ascii "2") := by
  have hred : toldSecond twoAgents parrot (twoChats 0 1 (ascii "red")) = some [ascii "hi"] := by
    decide +kernel
  have hblue : toldSecond twoAgents parrot (twoChats 0 1 (ascii "blue")) = some [ascii "hi"] := by
    decide +kernel
  obtain ⟨s, hs, hred⟩ := Option.map_eq_some_iff.mp hred
  obtain ⟨t, ht, -⟩ := Option.map_eq_some_iff.mp hblue
  have howns : ∀ a ∈ twoChats 0 1 (ascii "red"),
      Owns (ascii "1") (· = ascii "tiger") twoAgents a := by
    intro a ha
    simp only [twoChats, List.mem_cons, List.not_mem_nil, or_false] at ha
    rcases ha with rfl | rfl | rfl | rfl | rfl | rfl
    · rintro entry hentry
      obtain rfl := Option.some.inj hentry
      exact iff_of_true rfl rfl
    · trivial
    · trivial
    · rintro entry hentry
      obtain rfl := Option.some.inj hentry
      exact iff_of_false (by decide) (by decide)
    · trivial
    · trivial
  exact ⟨s, t, hs, ht, hred, replies_eq_of_apart (variant_twoChats 0 1 _ _) (apart_of_owns howns)
    hs ht (ascii "2") (by decide)⟩

/-- On one agent the second chat is told what was said in the first. -/
theorem replies_differ_on_one_agent : ∃ s t,
    StepMachine.run (Pipeline.step oneAgent parrot.source) (Pipeline.start oneCell fun _ => {})
        (twoChats 0 0 (ascii "red")) = some s ∧
      StepMachine.run (Pipeline.step oneAgent parrot.source) (Pipeline.start oneCell fun _ => {})
        (twoChats 0 0 (ascii "blue")) = some t ∧
      List.Forall₂ (Variant (ascii "1")) (twoChats 0 0 (ascii "red"))
        (twoChats 0 0 (ascii "blue")) ∧
      repliesUnder s (ascii "2") ≠ repliesUnder t (ascii "2") := by
  have hred : toldSecond oneAgent parrot (twoChats 0 0 (ascii "red")) =
      some [ascii "redredhi"] := by decide +kernel
  have hblue : toldSecond oneAgent parrot (twoChats 0 0 (ascii "blue")) =
      some [ascii "bluebluehi"] := by decide +kernel
  obtain ⟨s, hs, hred⟩ := Option.map_eq_some_iff.mp hred
  obtain ⟨t, ht, hblue⟩ := Option.map_eq_some_iff.mp hblue
  refine ⟨s, t, hs, ht, variant_twoChats 0 0 _ _, fun heq => ?_⟩
  rw [heq, hblue] at hred
  exact absurd hred (by decide)

end Conversations
end Channels
end TigerClaw
