import TigerClaw.Llm.StreamPumps
import Mathlib.Data.List.Nodup

/-!
# The tool calls of a streamed reply

A reply interleaves `tool_use` blocks: each is started, filled with fragments of its arguments, and
stopped.  What a response should hold of them is stated on the events that came in: the blocks that
are not truncated, in the order of their starts, with all of their fragments.

* `Block`, `blocks`, `Truncated`: the blocks of the events.
* `Complete`: what the response should be.
* `foldl_buildersAfter`, `finalise_blocks`: what the code collects, and what it makes calls of.
* `complete_iff`: the response is complete just if the code's rule for dropping blocks picks the
  truncated ones.
-/

namespace TigerClaw
namespace Llm
namespace Anthropic

open Agent (ToolCall StopReason ChatResponse)
open Json (Tree)

/-! ## The blocks of the events -/

/-- A `tool_use` block, as far as it has come in. -/
structure Block where
  index : ℤ
  id : Bytes
  name : Bytes
  /-- Its fragments. -/
  input : Bytes
  /-- Its `content_block_stop` has come. -/
  stopped : Bool
  /-- A stop reason of the message has come after its start. -/
  concluded : Bool
  /-- No other block has been started after it. -/
  last : Bool

/-- The fragment that an event adds to the block of an index. -/
def fragmentOf (index : ℤ) (ev : Event) : Option Bytes :=
  (inputDelta ev).bind fun r => if r.1 = index then some r.2 else none

def fragments (index : ℤ) (events : List Event) : Bytes :=
  (events.filterMap (fragmentOf index)).flatten

/-- The event says why the message has stopped. -/
def concludes (ev : Event) : Bool :=
  ev.name = ascii "message_delta" && (stringAt [ascii "delta", ascii "stop_reason"] ev.data).isSome

/-- The blocks, in the order of their starts. -/
def blocks : List Event → List Block
  | [] => []
  | ev :: events =>
    match blockStart ev with
    | some (index, id, name) =>
      { index, id, name
        input := fragments index events
        stopped := events.any fun ev => blockStop ev = some index
        concluded := events.any concludes
        last := (blocks events).isEmpty } :: blocks events
    | none => blocks events

/-- The stop reason that the events give. -/
def stopOf (events : List Event) : StopReason := events.foldl stopAfter .endTurn

/-- The limit on tokens cut off the last block: what has come of it cannot be read, or nothing has
come and it has not been stopped. -/
def CutByMaxTokens (stop : StopReason) (b : Block) : Prop :=
  stop = .maxTokens ∧ b.last = true ∧
    if b.input = [] then b.stopped = false else parseValue b.input = none

/-- The block ends before it is complete. -/
def Truncated (stop : StopReason) (b : Block) : Prop :=
  b.stopped = false ∧ b.concluded = false ∨ CutByMaxTokens stop b

instance (stop : StopReason) : DecidablePred (CutByMaxTokens stop) := fun b => by
  unfold CutByMaxTokens
  infer_instance

instance (stop : StopReason) : DecidablePred (Truncated stop) := fun b => by
  unfold Truncated
  infer_instance

/-- The call that the block is. -/
def Block.call (self : Block) : ToolCall where
  id := self.id
  name := self.name
  argumentsJson := if self.input = [] then ascii "{}" else self.input

/-- Syntactically valid JSON. -/
def ValidJson (s : Bytes) : Prop := (Tree.parse false s).isSome = true

/-- The response holds the text of the deltas, and the calls of the blocks that are not truncated;
if the arguments of these are valid JSON, so are the arguments of the calls. -/
structure Complete (events : List Event) (response : ChatResponse) : Prop where
  text : response.text = some (deltas events)
  toolCalls : response.toolCalls =
    ((blocks events).filter fun b => ¬ Truncated (stopOf events) b).map Block.call
  valid : (∀ b ∈ blocks events, ¬ Truncated (stopOf events) b → ValidJson b.call.argumentsJson) →
    ∀ call ∈ response.toolCalls, ValidJson call.argumentsJson

/-! ## What the code collects -/

/-- The builder of a block. -/
def Block.builder (self : Block) : ToolBuilder where
  index := UInt32.ofNat self.index.toNat
  id := self.id
  name := self.name
  input := self.input

/-- A builder after more events. -/
def ToolBuilder.fill (self : ToolBuilder) (events : List Event) : ToolBuilder :=
  { self with input := self.input ++ fragments (self.index.toNat : ℤ) events }

theorem fragments_cons (index : ℤ) (ev : Event) (events : List Event) :
    fragments index (ev :: events) = (fragmentOf index ev).getD [] ++ fragments index events := by
  rw [fragments, List.filterMap_cons]
  cases fragmentOf index ev with
  | none => rfl
  | some fragment => rfl

theorem toNat_ofNat_index {index : ℤ} (h : InRange index) :
    ((UInt32.ofNat index.toNat).toNat : ℤ) = index := by
  obtain ⟨hlo, hhi⟩ := h
  rw [UInt32.toNat_ofNat_of_lt' (by simp only [UInt32.size]; omega)]
  exact Int.toNat_of_nonneg hlo

/-- With distinct indexes the first builder of an index is the only one. -/
theorem appendInput_eq_map {builders : List ToolBuilder} (h : (builders.map (·.index)).Nodup)
    (index : UInt32) (fragment : Bytes) :
    appendInput index fragment builders =
      builders.map fun b =>
        if b.index = index then { b with input := b.input ++ fragment } else b := by
  induction builders with
  | nil => rfl
  | cons b bs ih =>
    rw [List.map_cons, List.nodup_cons] at h
    rw [appendInput, List.map_cons]
    split
    · rename_i hb
      refine congrArg (_ :: ·) ?_
      -- no builder behind it has the index
      refine (List.map_id bs).symm.trans (List.map_congr_left fun c hc => ?_)
      rw [if_neg]
      · rfl
      · intro hcb
        exact h.1 (List.mem_map.mpr ⟨c, hc, hcb.trans hb.symm⟩)
    · exact congrArg (b :: ·) (ih h.2)

theorem blockStart_eq_some {ev : Event} {r : ℤ × Bytes × Bytes} (h : blockStart ev = some r) :
    ev.name = ascii "content_block_start" ∧ announced ev.data = some r := by
  rw [blockStart] at h
  split at h
  · exact ⟨‹_›, h⟩
  · cases h

theorem inputDelta_eq_some {ev : Event} {r : ℤ × Bytes} (h : inputDelta ev = some r) :
    ev.name = ascii "content_block_delta" ∧ partialJson ev.data = some r := by
  rw [inputDelta] at h
  split at h
  · exact ⟨‹_›, h⟩
  · cases h

/-- An event that starts a block adds nothing to one. -/
theorem inputDelta_of_blockStart {ev : Event} {r : ℤ × Bytes × Bytes} (h : blockStart ev = some r) :
    inputDelta ev = none :=
  inputDelta_of_ne fun h' => absurd ((blockStart_eq_some h).1.symm.trans h') (by decide)

theorem blocks_cons_some {ev : Event} {index : ℤ} {id name : Bytes}
    (h : blockStart ev = some (index, id, name)) (events : List Event) :
    blocks (ev :: events) =
      { index, id, name
        input := fragments index events
        stopped := events.any fun ev => blockStop ev = some index
        concluded := events.any concludes
        last := (blocks events).isEmpty } :: blocks events := by
  rw [blocks, h]

theorem blocks_cons_none {ev : Event} (h : blockStart ev = none) (events : List Event) :
    blocks (ev :: events) = blocks events := by
  rw [blocks, h]

/-- An event without a fragment for it leaves a builder as it is. -/
theorem ToolBuilder.fill_cons_none {ev : Event} (h : inputDelta ev = none) (b : ToolBuilder)
    (events : List Event) : b.fill (ev :: events) = b.fill events := by
  rw [ToolBuilder.fill, fragments_cons, fragmentOf, h]
  rfl

theorem ToolBuilder.fill_cons_some {ev : Event} {index : ℤ} {fragment : Bytes}
    (hindex : InRange index) (h : inputDelta ev = some (index, fragment)) (b : ToolBuilder)
    (events : List Event) :
    b.fill (ev :: events) =
      (if b.index = UInt32.ofNat index.toNat then { b with input := b.input ++ fragment }
        else b).fill events := by
  rw [ToolBuilder.fill, fragments_cons, fragmentOf, h, Option.bind_some]
  have hiff : index = (b.index.toNat : ℤ) ↔ b.index = UInt32.ofNat index.toNat := by
    rw [← UInt32.toNat_inj]
    have := toNat_ofNat_index hindex
    omega
  by_cases hb : b.index = UInt32.ofNat index.toNat
  · rw [if_pos hb, if_pos (hiff.mpr hb), Option.getD_some, ← List.append_assoc]
    rfl
  · rw [if_neg hb, if_neg fun h' => hb (hiff.mp h')]
    rfl

/-- The indexes of builders. -/
def indexes (builders : List ToolBuilder) : List ℤ := builders.map fun b => (b.index.toNat : ℤ)

theorem nodup_index {builders : List ToolBuilder} (h : (indexes builders).Nodup) :
    (builders.map (·.index)).Nodup := by
  refine List.Nodup.of_map (fun i : UInt32 => (i.toNat : ℤ)) ?_
  rw [List.map_map]
  exact h

/-- **What the code collects**: the builders that are there are filled, and those of the blocks that
are started are added. -/
theorem foldl_buildersAfter {events : List Event} (hsane : ∀ ev ∈ events, Sane ev)
    {builders : List ToolBuilder}
    (hdistinct : (indexes builders ++ (blocks events).map (·.index)).Nodup) :
    events.foldl buildersAfter builders =
      builders.map (·.fill events) ++ (blocks events).map Block.builder := by
  induction events generalizing builders with
  | nil =>
    have hfill : (fun b : ToolBuilder => b.fill []) = id := by
      ext b : 1
      rw [ToolBuilder.fill]
      exact congrArg (fun input => { b with input }) (List.append_nil b.input)
    rw [hfill, List.map_id]
    exact (List.append_nil builders).symm
  | cons ev events ih =>
    obtain ⟨hev, hsane⟩ := List.forall_mem_cons.mp hsane
    rw [List.foldl_cons, buildersAfter]
    cases hstart : blockStart ev with
    | some r =>
      obtain ⟨index, id, name⟩ := r
      obtain ⟨hname, hann⟩ := blockStart_eq_some hstart
      have hindex := toNat_ofNat_index (hev.start hname _ hann)
      rw [blocks_cons_some hstart] at hdistinct ⊢
      dsimp only
      rw [ih hsane, List.map_append, List.append_assoc, List.map_cons]
      · have hnew : ({ index := UInt32.ofNat index.toNat, id, name } : ToolBuilder).fill events =
            { index := UInt32.ofNat index.toNat, id, name, input := fragments index events } := by
          rw [ToolBuilder.fill]
          dsimp only
          rw [hindex, List.nil_append]
        simp only [ToolBuilder.fill_cons_none (inputDelta_of_blockStart hstart)]
        refine congrArg (builders.map (·.fill events) ++ ·) ?_
        rw [hnew]
        rfl
      · rw [indexes, List.map_append, List.append_assoc, List.map_singleton, hindex]
        exact hdistinct
    | none =>
      rw [blocks_cons_none hstart] at hdistinct ⊢
      cases hinput : inputDelta ev with
      | some r =>
        obtain ⟨index, fragment⟩ := r
        obtain ⟨hname, hpartial⟩ := inputDelta_eq_some hinput
        have hindex := (hev.delta hname).2 _ hpartial
        dsimp only
        rw [appendInput_eq_map (nodup_index (List.nodup_append.mp hdistinct).1), ih hsane,
          List.map_map]
        · refine congrArg (· ++ _) (List.map_congr_left fun b _ => ?_)
          exact (ToolBuilder.fill_cons_some hindex hinput b events).symm
        · convert hdistinct using 2
          rw [indexes, indexes, List.map_map]
          refine List.map_congr_left fun b _ => ?_
          rw [Function.comp_apply]
          split <;> rfl
      | none =>
        dsimp only
        rw [ih hsane hdistinct]
        simp only [ToolBuilder.fill_cons_none hinput]

/-! ## What the code makes calls of -/

/-- The rule for the blocks that become calls, by the stop reason that is returned. -/
def Kept (stop : StopReason) (b : Block) : Prop :=
  (b.id ≠ [] ∧ b.name ≠ []) ∧
    ¬ (stop = .maxTokens ∧ b.last = true ∧ b.input ≠ [] ∧ parseValue b.input = none)

instance (stop : StopReason) : DecidablePred (Kept stop) := fun b => by
  unfold Kept
  infer_instance

theorem finalise_cons {stop : StopReason} {b : Block} {bs : List ToolBuilder}
    (hlast : b.last = true ↔ bs = []) :
    finalise stop (b.builder :: bs) =
      (if Kept stop b then [b.call] else []) ++ finalise stop bs := by
  rw [finalise]
  by_cases hid : b.id = [] ∨ b.name = []
  · rw [if_pos (show b.builder.id = [] ∨ b.builder.name = [] from hid),
      if_neg fun hkept : Kept stop b => hid.elim hkept.1.1 hkept.1.2]
    rfl
  rw [if_neg (show ¬ (b.builder.id = [] ∨ b.builder.name = []) from hid)]
  by_cases hdrop : stop = .maxTokens ∧ b.last = true ∧ b.input ≠ [] ∧ parseValue b.input = none
  · rw [if_neg fun hkept : Kept stop b => hkept.2 hdrop]
    rw [hlast] at hdrop
    rw [if_pos (show stop = .maxTokens ∧ bs = [] ∧ b.builder.input ≠ [] ∧
      parseValue b.builder.input = none from hdrop)]
    rfl
  · rw [if_pos (show Kept stop b from ⟨not_or.mp hid, hdrop⟩)]
    rw [hlast] at hdrop
    rw [if_neg (show ¬ (stop = .maxTokens ∧ bs = [] ∧ b.builder.input ≠ [] ∧
      parseValue b.builder.input = none) from hdrop)]
    rfl

/-- **The calls are those of the blocks that are kept.** -/
theorem finalise_blocks (stop : StopReason) (events : List Event) :
    finalise stop ((blocks events).map Block.builder) =
      ((blocks events).filter fun b => Kept stop b).map Block.call := by
  induction events with
  | nil => rfl
  | cons ev events ih =>
    match hstart : blockStart ev with
    | none => rw [blocks_cons_none hstart, ih]
    | some (index, id, name) =>
      rw [blocks_cons_some hstart, List.map_cons, finalise_cons, ih, List.filter_cons]
      · simp only [decide_eq_true_eq]
        split <;> rfl
      · rw [List.map_eq_nil_iff, List.isEmpty_iff]

/-- A block that is dropped for its arguments is truncated. -/
theorem kept_of_not_truncated {stop : StopReason} {b : Block} {cancelled : Bool}
    (hid : b.id ≠ [] ∧ b.name ≠ []) (h : ¬ Truncated stop b) :
    Kept (if cancelled then .cancelled else stop) b := by
  refine ⟨hid, fun hdrop => h (.inr ?_)⟩
  obtain ⟨hstop, hlast, hinput, hparse⟩ := hdrop
  refine ⟨?_, hlast, ?_⟩
  · cases cancelled with
    | true => cases hstop
    | false => exact hstop
  · rw [if_neg hinput]
    exact hparse

/-- The rule of the code and what comes in agree about every block; after an error the text is its
message, and there are no calls. -/
def Whole (events : List Event) (cancelled : Bool) : Prop :=
  match events.foldl refusalAfter none with
  | some message => message = deltas events ∧ ∀ b ∈ blocks events, Truncated (stopOf events) b
  | none => ∀ b ∈ blocks events,
      Kept (if cancelled then .cancelled else stopOf events) b ↔ ¬ Truncated (stopOf events) b

/-- Two rules that pick the same calls pick the same blocks, if the one picks only blocks that the
other one picks unless it has no use for their calls. -/
theorem filter_calls_inj {l : List Block} {p q : Block → Prop} [DecidablePred p] [DecidablePred q]
    (hp : ∀ b, p b → b.id ≠ [] ∧ b.name ≠ [])
    (hq : ∀ b, b.id ≠ [] ∧ b.name ≠ [] → q b → p b)
    (h : (l.filter fun b => p b).map Block.call = (l.filter fun b => q b).map Block.call) :
    ∀ b ∈ l, p b ↔ q b := by
  have hqp : ∀ b ∈ l, q b → p b := by
    intro b hb hqb
    have hcall : b.call ∈ (l.filter fun b => p b).map Block.call := by
      rw [h]
      exact List.mem_map_of_mem (List.mem_filter.mpr ⟨hb, decide_eq_true hqb⟩)
    obtain ⟨c, hc, hcb⟩ := List.mem_map.mp hcall
    have hpc : p c := of_decide_eq_true (List.mem_filter.mp hc).2
    have hid : c.id = b.id := congrArg ToolCall.id hcb
    have hname : c.name = b.name := congrArg ToolCall.name hcb
    exact hq b (hid ▸ hname ▸ hp c hpc) hqb
  -- the one list is part of the other, and as long
  have hsub : (l.filter fun b => q b).Sublist (l.filter fun b => p b) := by
    have hboth : (l.filter fun b => q b) = (l.filter fun b => p b).filter fun b => q b := by
      rw [List.filter_filter]
      refine List.filter_congr fun b hb => ?_
      by_cases hqb : q b
      · simp [hqb, hqp b hb hqb]
      · simp [hqb]
    rw [hboth]
    exact List.filter_sublist
  have hlen : (l.filter fun b => q b).length = (l.filter fun b => p b).length := by
    simpa using (congrArg List.length h).symm
  have heq := hsub.eq_of_length hlen
  intro b hb
  refine ⟨fun hpb => ?_, hqp b hb⟩
  have hmem : b ∈ l.filter fun b => q b := by
    rw [heq]
    exact List.mem_filter.mpr ⟨hb, decide_eq_true hpb⟩
  exact of_decide_eq_true (List.mem_filter.mp hmem).2

/-! ## The response -/

variable {sinks : Sinks}

/-- What is returned, as it was read. -/
theorem response_toolCalls {events : List Event} {l : Locals} (hsane : ∀ ev ∈ events, Sane ev)
    (hdistinct : ((blocks events).map (·.index)).Nodup) (hall : AbsorbedAll sinks {} events l)
    (cancelled : Bool) (hok : events.foldl refusalAfter none = none) :
    l.response cancelled =
      { text := some (deltas events)
        toolCalls := ((blocks events).filter fun b =>
          Kept (if cancelled then .cancelled else stopOf events) b).map Block.call
        usage := l.usage
        stopReason := if cancelled then .cancelled else stopOf events } := by
  have hbuilders : l.toolBuilders = (blocks events).map Block.builder := by
    rw [hall.toolBuilders, @foldl_buildersAfter events hsane [] hdistinct]
    rfl
  rw [Locals.response, hall.errText, hok, hbuilders, hall.text, hall.stop]
  dsimp only
  rw [finalise_blocks]
  rfl

/-- **The response is complete just if the rule of the code is the right one** for the blocks that
came in. -/
theorem complete_response_iff {events : List Event} {l : Locals} (hsane : ∀ ev ∈ events, Sane ev)
    (hdistinct : ((blocks events).map (·.index)).Nodup) (hall : AbsorbedAll sinks {} events l)
    (cancelled : Bool) : Complete events (l.response cancelled) ↔ Whole events cancelled := by
  unfold Whole
  match herr : events.foldl refusalAfter none with
  | some message =>
    have hresponse : l.response cancelled =
        { text := some message, usage := l.usage, stopReason := .refusal } := by
      rw [Locals.response, hall.errText, herr]
    rw [hresponse]
    constructor
    · intro hcomplete
      refine ⟨Option.some.inj hcomplete.text, fun b hb => ?_⟩
      have hnone := List.map_eq_nil_iff.mp hcomplete.toolCalls.symm
      rw [List.filter_eq_nil_iff] at hnone
      simpa using hnone b hb
    · rintro ⟨rfl, htruncated⟩
      have hnone : ((blocks events).filter fun b => ¬ Truncated (stopOf events) b) = [] :=
        List.filter_eq_nil_iff.mpr fun b hb => by simpa using htruncated b hb
      exact
        { text := rfl
          toolCalls := by rw [hnone, List.map_nil]
          valid := fun _ call hcall => by cases hcall }
  | none =>
    rw [response_toolCalls hsane hdistinct hall cancelled herr]
    constructor
    · intro hcomplete
      exact filter_calls_inj (fun b hb => hb.1)
        (fun b hid hb => kept_of_not_truncated hid hb) hcomplete.toolCalls
    · intro hwhole
      have hfilter : ((blocks events).filter fun b =>
          Kept (if cancelled then .cancelled else stopOf events) b) =
            (blocks events).filter fun b => ¬ Truncated (stopOf events) b :=
        List.filter_congr fun b hb => decide_eq_decide.mpr (hwhole b hb)
      rw [hfilter]
      refine { text := rfl, toolCalls := rfl, valid := fun hvalid call hcall => ?_ }
      obtain ⟨b, hb, rfl⟩ := List.mem_map.mp hcall
      obtain ⟨hmem, hb⟩ := List.mem_filter.mp hb
      exact hvalid b hmem (of_decide_eq_true hb)

/-- **When the tool calls of a reply are complete.**  The stream ends or is cancelled, with payloads
that can be absorbed, and the rule of the code picks the blocks that are not truncated. -/
theorem toolCalls_complete_iff (sinks : Sinks) (cancel : ℕ → Bool) (input : StreamInput)
    (hdistinct : ((blocks (received cancel input).1).map (·.index)).Nodup) :
    (∃ response, (parseStreamInnerFull sinks cancel input).result = .ok response ∧
        Complete (received cancel input).1 response) ↔
      (∀ ev ∈ (received cancel input).1, Sane ev) ∧
        ((received cancel input).2 = .eof ∧ Whole (received cancel input).1 false ∨
          (received cancel input).2 = .cancelled ∧ Whole (received cancel input).1 true) := by
  rw [parseStreamInnerFull_eq]
  generalize received cancel input = r at hdistinct ⊢
  obtain ⟨events, cause⟩ := r
  by_cases hsane : ∀ ev ∈ events, Sane ev
  · have hall : AbsorbedAll sinks {} events (absorbAll sinks events).1 := absorbAll_absorbed hsane
    have hresult : (conclude sinks (events, cause)).result =
        (finish (.ok cause, (absorbAll sinks events).1)).result := by
      rw [conclude, (absorbAll_snd_eq_none_iff sinks events).mpr hsane]
      rfl
    rw [hresult, and_iff_right hsane]
    have hok : ∀ cancelled, (∃ response,
        Outcome.ok ((absorbAll sinks events).1.response cancelled) =
          (.ok response : Outcome StreamError ChatResponse) ∧ Complete events response) ↔
            Whole events cancelled := by
      intro cancelled
      rw [← complete_response_iff hsane hdistinct hall cancelled]
      constructor
      · rintro ⟨response, hresponse, hcomplete⟩
        exact Outcome.ok.inj hresponse ▸ hcomplete
      · exact fun hcomplete => ⟨_, rfl, hcomplete⟩
    cases cause with
    | eof => simpa [finish] using hok false
    | cancelled => simpa [finish] using hok true
    | broken => simp [finish]
    | failed e => simp [finish]
  · refine iff_of_false ?_ fun h => hsane h.1
    rintro ⟨response, hresponse, -⟩
    have hruns : ¬ (conclude sinks (events, cause)).result.Traps := by
      rw [hresponse]
      exact Outcome.not_traps_ok response
    exact hsane (not_traps_conclude.mp hruns)

/-- With nothing but truncated blocks a response with a call is not complete. -/
theorem not_complete_of_truncated {events : List Event} {response : ChatResponse}
    (h : ∀ b ∈ blocks events, Truncated (stopOf events) b) (hcalls : response.toolCalls ≠ []) :
    ¬ Complete events response := by
  intro hcomplete
  refine hcalls (hcomplete.toolCalls.trans (List.map_eq_nil_iff.mpr ?_))
  exact List.filter_eq_nil_iff.mpr fun b hb => by simpa using h b hb

/-! ### A block, in pieces -/

def startData : Bytes :=
  ascii ("\x7b\"index\":0,\"content_block\":" ++
    "\x7b\"type\":\"tool_use\",\"id\":\"t\",\"name\":\"n\"\x7d\x7d")

/-- An open brace. -/
def braceData : Bytes :=
  ascii ("\x7b\"index\":0,\"delta\":" ++
    "\x7b\"type\":\"input_json_delta\",\"partial_json\":\"\x7b\"\x7d\x7d")

def stopData : Bytes := ascii "\x7b\"index\":0\x7d"

/-- The bytes of an event. -/
def frame (ev : Event) : Bytes :=
  ascii "event:" ++ ev.name ++ ascii "\ndata:" ++ ev.data ++ ascii "\n\n"

def startEvent : Event := { name := ascii "content_block_start", data := startData }

def braceEvent : Event := { name := ascii "content_block_delta", data := braceData }

def stopEvent : Event := { name := ascii "content_block_stop", data := stopData }

/-- The bytes are one event, and leave nothing behind. -/
def Frames (ev : Event) : Prop :=
  Parser.pull.pullAll (({} : Parser).feed (frame ev)) = (([ev], none), {})

theorem drain_frames {ev : Event} (h : Frames ev) (bytes : Bytes) :
    Parser.pull.drain (({} : Parser).feed (frame ev ++ bytes)) =
      (ev :: (Parser.pull.drain (({} : Parser).feed bytes)).1,
        (Parser.pull.drain (({} : Parser).feed bytes)).2) := by
  have hdrain : Parser.pull.drain (({} : Parser).feed (frame ev)) = ([ev], none) :=
    congrArg Prod.fst h
  have hsettle : Parser.pull.settle (({} : Parser).feed (frame ev)) = {} :=
    congrArg Prod.snd h
  have hfeed := Parser.pull.drain_feed (congrArg Prod.snd hdrain) bytes
  rw [hdrain, hsettle] at hfeed
  exact (congrArg Parser.pull.drain (Parser.pull.feed_append {} _ bytes)).trans hfeed

theorem frames_start : Frames startEvent := by
  unfold Frames
  decide

theorem frames_brace : Frames braceEvent := by
  unfold Frames
  decide

theorem frames_stop : Frames stopEvent := by
  unfold Frames
  decide

theorem drain_nil : Parser.pull.drain (({} : Parser).feed []) = ([], none) := rfl

/-- A block without arguments. -/
def emptyBlock : Bytes := frame startEvent ++ (frame stopEvent ++ [])

/-- A block that is cut off. -/
def openBlock : Bytes := frame startEvent ++ (frame braceEvent ++ [])

/-- The same block, with an end. -/
def stoppedBlock : Bytes :=
  frame startEvent ++ (frame braceEvent ++
    (frame stopEvent ++ []))

theorem received_emptyBlock :
    received (fun _ => false) (.literal emptyBlock) = ([startEvent, stopEvent], .eof) := by
  rw [received_literal fun _ => rfl, emptyBlock, drain_frames frames_start,
    drain_frames frames_stop, drain_nil]
  rfl

theorem received_openBlock :
    received (fun _ => false) (.literal openBlock) = ([startEvent, braceEvent], .eof) := by
  rw [received_literal fun _ => rfl, openBlock, drain_frames frames_start,
    drain_frames frames_brace, drain_nil]
  rfl

/-- The flag is set after the second event. -/
theorem received_stoppedBlock :
    received (fun n => n = 2) (.literal stoppedBlock) = ([startEvent, braceEvent], .cancelled) := by
  have hdrain : Parser.pull.drain (({} : Parser).feed stoppedBlock) =
      ([startEvent, braceEvent, stopEvent], none) := by
    rw [stoppedBlock, drain_frames frames_start, drain_frames frames_brace,
      drain_frames frames_stop, drain_nil]
  rw [received, if_neg (by decide)]
  dsimp only
  rw [hdrain]
  rfl

/-- The block without arguments becomes a call with an empty object. -/
theorem toolCalls_complete_emptyBlock :
    ∃ response,
      (parseStreamInnerFull ⟨true, true⟩ (fun _ => false) (.literal emptyBlock)).result =
        .ok response ∧
      Complete (received (fun _ => false) (.literal emptyBlock)).1 response := by
  refine (toolCalls_complete_iff ⟨true, true⟩ _ _ ?_).mpr ?_
  · rw [received_emptyBlock]
    decide
  · rw [received_emptyBlock]
    refine ⟨(absorbAll_snd_eq_none_iff ⟨true, true⟩ _).mp (by decide), .inl ⟨rfl, ?_⟩⟩
    show ∀ b ∈ blocks _, _ ↔ _
    decide

/-- What is returned of the open block. -/
def openCall (stopReason : StopReason) : ChatResponse where
  text := some []
  toolCalls := [{ id := ascii "t", name := ascii "n", argumentsJson := ascii "\x7b" }]
  stopReason := stopReason

/-- Whether the stream ends in the middle of the block or is cancelled there, what has come of it is
returned as a call, with arguments that are no JSON. -/
theorem truncated_block_returned :
    ((parseStreamInnerFull ⟨true, true⟩ (fun _ => false) (.literal openBlock)).result =
        .ok (openCall .endTurn) ∧
      ¬ Complete (received (fun _ => false) (.literal openBlock)).1 (openCall .endTurn)) ∧
    ((parseStreamInnerFull ⟨true, true⟩ (fun n => n = 2) (.literal stoppedBlock)).result =
        .ok (openCall .cancelled) ∧
      ¬ Complete (received (fun n => n = 2) (.literal stoppedBlock)).1 (openCall .cancelled)) ∧
    ¬ ValidJson (ascii "\x7b") := by
  have htruncated : ∀ b ∈ blocks [startEvent, braceEvent],
      Truncated (stopOf [startEvent, braceEvent]) b := by
    decide
  rw [parseStreamInnerFull_eq, parseStreamInnerFull_eq, received_openBlock, received_stoppedBlock]
  refine ⟨⟨by decide, ?_⟩, ⟨by decide, ?_⟩, ?_⟩
  · exact not_complete_of_truncated htruncated (by simp [openCall])
  · exact not_complete_of_truncated htruncated (by simp [openCall])
  · unfold ValidJson
    decide

end Anthropic
end Llm
end TigerClaw
