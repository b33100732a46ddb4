import TigerClaw.Llm.StreamPumps

/-!
# The streamed reply of the other endpoint

`extensions/provider-openrouter/root.zig`: a body that has been read whole, as events whose payloads
are chunks of the reply, up to one that is `[DONE]`.

* `absorbChunk`, `parseStream`: the code.
* `SaneChunk`, `chunksOf`: the payloads that can be absorbed, and those that come.
* `not_traps_parseStream`: a check trips just if a chunk that comes is not sane.
* `streams_trap_iff`: what takes the readers of both endpoints down.
-/

namespace TigerClaw
namespace Llm
namespace OpenRouter

open Agent (TokenUsage StopReason ChatResponse)
open Anthropic (parseValue absorbCount SaneCount not_traps_absorbCount eventsOf)
open Json (Tree)

/-- The locals of `parseStream`. -/
structure Locals where
  text : Bytes := []
  usage : TokenUsage := {}
  stop : StopReason := .endTurn

def mapFinishReason (reason : Bytes) : StopReason :=
  if reason = ascii "stop" then .endTurn
  else if reason = ascii "length" then .maxTokens
  else if reason = ascii "tool_calls" then .toolUse
  else if reason = ascii "content_filter" then .refusal
  else .endTurn

/-- The first of the choices. -/
def firstChoice (root : Tree) : Option Tree :=
  ((root.field? (ascii "choices")).bind Tree.elems?).bind List.head?

/-- The `delta` of a choice that is taken for an object, as that is itself. -/
def absorbDelta (l : Locals) : Option Tree → Outcome Empty Locals
  | none => .ok l
  | some delta => do
    let content ← delta.field (ascii "content")
    return { l with text := l.text ++ (content.bind Tree.string?).getD [] }

def absorbChoice (l : Locals) : Option Tree → Outcome Empty Locals
  | none => .ok l
  | some first => do
    let l ← absorbDelta l (← first.field (ascii "delta"))
    let reason ← first.field (ascii "finish_reason")
    return match reason.bind Tree.string? with
      | none => l
      | some reason => { l with stop := mapFinishReason reason }

def absorbUsage (l : Locals) : Option Tree → Outcome Empty Locals
  | none => .ok l
  | some u => do
    let input ← absorbCount u (ascii "prompt_tokens") l.usage.input
    let output ← absorbCount u (ascii "completion_tokens") l.usage.output
    return { l with usage := { l.usage with input, output } }

/-- `absorbChunk`.  Only what the payload itself is and what its choices are is asked. -/
def absorbChunk (l : Locals) (data : Bytes) : Outcome Empty Locals :=
  match parseValue data with
  | none => .ok l
  | some root => do
    let l ← absorbChoice l (firstChoice root)
    absorbUsage l (root.field? (ascii "usage"))

/-- The body of the loop, which leaves it at the end of the reply or when a check trips. -/
def absorbEvent (l : Locals) (ev : Event) : Locals × Option (Option Trap) :=
  if ev.data = ascii "[DONE]" then (l, some none)
  else
    match absorbChunk l ev.data with
    | .ok l => (l, none)
    | .trap t => (l, some (some t))

def Locals.response (self : Locals) : ChatResponse :=
  { text := some self.text, usage := self.usage, stopReason := self.stop }

def parseStream (bytes : Bytes) : Outcome SseError ChatResponse :=
  match Parser.pull.whileNext absorbEvent (({} : Parser).feed bytes) {} with
  | (.dry _, l) => .ok l.response
  | (.left none, l) => .ok l.response
  | (.left (some t), _) => .trap t
  | (.failed e, _) => .error e

/-! ## Chunks that can be absorbed -/

/-- The first choice and its delta are objects, and the counts fit 32 bits. -/
structure SaneChunk (data : Bytes) : Prop where
  choice : ∀ root, parseValue data = some root → ∀ first, firstChoice root = some first →
    first.IsObject ∧ ∀ delta, first.field? (ascii "delta") = some delta → delta.IsObject
  usage : ∀ root, parseValue data = some root → ∀ u, root.field? (ascii "usage") = some u →
    SaneCount u (ascii "prompt_tokens") ∧ SaneCount u (ascii "completion_tokens")

/-- The chunks that come. -/
def chunksOf (bytes : Bytes) : List Event :=
  (eventsOf bytes).takeWhile fun ev => ev.data ≠ ascii "[DONE]"

theorem not_traps_absorbDelta {l : Locals} {delta : Option Tree} :
    ¬ (absorbDelta l delta).Traps ↔ ∀ w, delta = some w → w.IsObject := by
  match delta with
  | none => simp [absorbDelta]
  | some w =>
    rw [absorbDelta, Tree.not_traps_field_bind]
    simp

theorem not_traps_absorbChoice {l : Locals} {choice : Option Tree} :
    ¬ (absorbChoice l choice).Traps ↔ ∀ first, choice = some first →
      first.IsObject ∧ ∀ delta, first.field? (ascii "delta") = some delta → delta.IsObject := by
  match choice with
  | none => simp [absorbChoice]
  | some first =>
    simp only [Option.some.injEq, forall_eq']
    rw [absorbChoice, Tree.not_traps_field_bind]
    refine and_congr_right fun hfirst => ?_
    simp only [Outcome.pure_eq]
    refine (Outcome.not_traps_bind (p := first.IsObject) fun l' _ => ?_).trans ?_
    · rw [Tree.not_traps_field_bind]
      exact and_iff_left (Outcome.not_traps_ok _)
    · rw [not_traps_absorbDelta]
      exact and_iff_left hfirst

theorem not_traps_absorbUsage {l : Locals} {usage : Option Tree} :
    ¬ (absorbUsage l usage).Traps ↔ ∀ u, usage = some u →
      SaneCount u (ascii "prompt_tokens") ∧ SaneCount u (ascii "completion_tokens") := by
  match usage with
  | none => simp [absorbUsage]
  | some u =>
    rw [absorbUsage]
    simp only [Outcome.pure_eq, Option.some.injEq, forall_eq']
    rw [Outcome.not_traps_bind fun _ _ => Outcome.not_traps_bind fun _ _ =>
        iff_true_intro (Outcome.not_traps_ok _),
      not_traps_absorbCount, not_traps_absorbCount, and_true]

/-- **A chunk can be absorbed just if it is sane**, whatever came before it. -/
theorem not_traps_absorbChunk {l : Locals} {data : Bytes} :
    ¬ (absorbChunk l data).Traps ↔ SaneChunk data := by
  unfold absorbChunk
  match hroot : parseValue data with
  | none =>
    exact iff_of_true (Outcome.not_traps_ok _)
      { choice := by simp [hroot]
        usage := by simp [hroot] }
  | some root =>
    dsimp only
    rw [Outcome.not_traps_bind fun _ _ => not_traps_absorbUsage, not_traps_absorbChoice]
    constructor
    · rintro ⟨hchoice, husage⟩
      exact
        { choice := by simpa [hroot] using hchoice
          usage := by simpa [hroot] using husage }
    · exact fun h => ⟨h.choice root hroot, h.usage root hroot⟩

/-- The loop is left by a tripped check just if a chunk before the end is not sane. -/
theorem handleAll_absorbEvent (l : Locals) (events : List Event) :
    (∃ t, (handleAll absorbEvent l events).2 = some (some t)) ↔
      ¬ ∀ ev ∈ events.takeWhile fun ev => ev.data ≠ ascii "[DONE]", SaneChunk ev.data := by
  induction events generalizing l with
  | nil => simp [handleAll]
  | cons ev events ih =>
    by_cases hdone : ev.data = ascii "[DONE]"
    · have hstep : absorbEvent l ev = (l, some none) := if_pos hdone
      rw [handleAll_cons_some hstep, List.takeWhile_cons_of_neg (by simp [hdone])]
      simp
    · rw [List.takeWhile_cons_of_pos (by simp [hdone]), List.forall_mem_cons,
        ← not_traps_absorbChunk (l := l)]
      cases hread : absorbChunk l ev.data with
      | error e => exact e.elim
      | ok l' =>
        have hstep : absorbEvent l ev = (l', none) := by
          rw [absorbEvent, if_neg hdone, hread]
        rw [handleAll_cons_none hstep, ih]
        simp
      | trap t =>
        have hstep : absorbEvent l ev = (l, some (some t)) := by
          rw [absorbEvent, if_neg hdone, hread]
        rw [handleAll_cons_some hstep]
        simp

/-- **A check trips just if a chunk that comes is not sane.** -/
theorem not_traps_parseStream (bytes : Bytes) :
    ¬ (parseStream bytes).Traps ↔ ∀ ev ∈ chunksOf bytes, SaneChunk ev.data := by
  have hall := handleAll_absorbEvent {} (eventsOf bytes)
  rw [not_iff_comm, chunksOf, ← hall, parseStream, Parser.pull.whileNext_eq]
  rw [eventsOf]
  match (handleAll absorbEvent {} (Parser.pull.drain (({} : Parser).feed bytes)).1).2 with
  | some (some t) => simp [Halt.of]
  | some none => simp [Halt.of]
  | none => cases (Parser.pull.drain (({} : Parser).feed bytes)).2 <;> simp [Halt.of]

end OpenRouter

/-! ## What a stream can take down -/

open Anthropic (Sinks StreamInput Sane received parseStreamInnerFull pumpStream)
open OpenRouter (SaneChunk chunksOf)

/-- **Payloads that are not what the code takes for granted take it down, and nothing else does**:
in `parseStreamInnerFull`, in `pumpStream`, and in `parseStream` of the other endpoint. -/
theorem streams_trap_iff (sinks : Sinks) (cancel : ℕ → Bool) (input : StreamInput)
    (chunks : List Bytes) (broken : Bool) (bytes : Bytes) :
    (¬ (parseStreamInnerFull sinks cancel input).result.Traps ↔
        ∀ ev ∈ (received cancel input).1, Sane ev) ∧
      (¬ (pumpStream sinks cancel chunks broken).result.Traps ↔
        ∀ ev ∈ (received cancel (.reader chunks broken)).1, Sane ev) ∧
      (¬ (OpenRouter.parseStream bytes).Traps ↔ ∀ ev ∈ chunksOf bytes, SaneChunk ev.data) := by
  refine ⟨?_, ?_, OpenRouter.not_traps_parseStream bytes⟩
  · rw [Anthropic.parseStreamInnerFull_eq, Anthropic.not_traps_conclude]
  · rw [Anthropic.pumpStream_eq, Anthropic.not_traps_conclude]

/-- A `message_start` that is no object, a block with the index -1, and a choice that is none. -/
theorem streams_trap :
    (pumpStream ⟨true, true⟩ (fun _ => false) [ascii "event: message_start\ndata: 1\n\n"]
        false).result = .trap .variant ∧
      (parseStreamInnerFull ⟨true, true⟩ (fun _ => false)
        (.literal (ascii ("event: content_block_start\ndata: \x7b\"index\":-1,\"content_block\":" ++
          "\x7b\"type\":\"tool_use\",\"id\":\"t\",\"name\":\"n\"\x7d\x7d\n\n")))).result =
        .trap .intCast ∧
      OpenRouter.parseStream (ascii "data: \x7b\"choices\":[1]\x7d\n\n") = .trap .variant := by
  decide

end Llm
end TigerClaw
