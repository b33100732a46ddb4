import TigerClaw.Llm.Anthropic

/-!
# What an event says, and whether it can be absorbed

An event is read here without regard to how the code reads it: what text it carries, what block it
announces or ends, what it says about the end of the message.  `Sane` is what the code takes for
granted about the payloads: where it does not ask, values are objects, and what it casts fits.

* `textDelta`, `blockStart`, `inputDelta`, `blockStop`, `stopAfter`, `refusalAfter`: reading an
  event.
* `absorb_snd_eq_none_iff`: an event can be absorbed just if it is sane.
* `absorb_absorbed`, `absorbAll_absorbed`: what is absorbed is what was read.
* `not_traps_conclude`: whether a check trips is a matter of the events that come in.
-/

namespace TigerClaw
namespace Llm
namespace Anthropic

open Agent (ToolCall TokenUsage StopReason ChatResponse)
open Json (Tree)

/-! ## Reading an event -/

/-- The string at a place of a payload. -/
def stringAt (path : List Bytes) (data : Bytes) : Option Bytes :=
  (parseValue data).bind fun root => (root.at? path).bind Tree.string?

/-- The text that the event adds to the reply. -/
def textDelta (ev : Event) : Option Bytes :=
  if ev.name = ascii "content_block_delta" ∧
      stringAt [ascii "delta", ascii "type"] ev.data = some (ascii "text_delta") then
    stringAt [ascii "delta", ascii "text"] ev.data
  else none

/-- The index, the id and the name of the block that the event starts. -/
def blockStart (ev : Event) : Option (ℤ × Bytes × Bytes) :=
  if ev.name = ascii "content_block_start" then announced ev.data else none

/-- The index of the block that the event adds to, and the fragment. -/
def inputDelta (ev : Event) : Option (ℤ × Bytes) :=
  if ev.name = ascii "content_block_delta" then partialJson ev.data else none

/-- The index of the block that the event ends. -/
def blockStop (ev : Event) : Option ℤ := do
  guard (ev.name = ascii "content_block_stop")
  (← (← parseValue ev.data).field? (ascii "index")).integer?

/-- The stop reason after the event. -/
def stopAfter (stop : StopReason) (ev : Event) : StopReason :=
  if ev.name = ascii "message_delta" then
    match stringAt [ascii "delta", ascii "stop_reason"] ev.data with
    | none => stop
    | some reason => readStopReason stop reason
  else if ev.name = ascii "error" then .refusal
  else stop

/-- The message of the last error after the event. -/
def refusalAfter (refusal : Option Bytes) (ev : Event) : Option Bytes :=
  if ev.name = ascii "error" then stringAt [ascii "error", ascii "message"] ev.data else refusal

/-! ## Payloads that are taken for granted -/

/-- The value fits 32 bits. -/
def InRange (n : ℤ) : Prop := 0 ≤ n ∧ n < 2 ^ 32

/-- The names of the counts of a usage. -/
def countNames : List Bytes :=
  [ascii "input_tokens", ascii "output_tokens", ascii "cache_read_input_tokens",
    ascii "cache_creation_input_tokens"]

def SaneCount (u : Tree) (name : Bytes) : Prop :=
  ∀ n, (u.field? name).bind Tree.integer? = some n → n < 2 ^ 32

/-- An object, whose usage has counts that fit 32 bits. -/
def SaneUsageOf (v : Tree) : Prop :=
  v.IsObject ∧ ∀ u, v.field? (ascii "usage") = some u → ∀ name ∈ countNames, SaneCount u name

/-- An object, and so is the field if it has it; a payload that is no JSON is passed over. -/
def ObjectAt (data name : Bytes) : Prop :=
  ∀ root, parseValue data = some root →
    root.IsObject ∧ ∀ w, root.field? name = some w → w.IsObject

/-- The payload is what the code takes for granted. -/
structure Sane (ev : Event) : Prop where
  start : ev.name = ascii "content_block_start" →
    ∀ r, announced ev.data = some r → InRange r.1
  delta : ev.name = ascii "content_block_delta" →
    ObjectAt ev.data (ascii "delta") ∧ ∀ r, partialJson ev.data = some r → InRange r.1
  messageDelta : ev.name = ascii "message_delta" →
    ObjectAt ev.data (ascii "delta") ∧
      ∀ root, parseValue ev.data = some root → SaneUsageOf root
  messageStart : ev.name = ascii "message_start" → ∀ root, parseValue ev.data = some root →
    root.IsObject ∧ ∀ message, root.field? (ascii "message") = some message → SaneUsageOf message
  error : ev.name = ascii "error" → ObjectAt ev.data (ascii "error")

/-! ## Absorbing -/

theorem not_traps_absorbContentBlockStart {builders : List ToolBuilder} {data : Bytes} :
    ¬ (absorbContentBlockStart builders data).2.Traps ↔
      ∀ r, announced data = some r → InRange r.1 := by
  rw [absorbContentBlockStart]
  match announced data with
  | none => simp
  | some (index, id, name) =>
    rw [Outcome.traps_bind, UInt32.traps_castInt]
    simp [InRange]

theorem not_traps_absorbInputJsonDelta {builders : List ToolBuilder} {data : Bytes} :
    ¬ (absorbInputJsonDelta builders data).Traps ↔
      ∀ r, partialJson data = some r → InRange r.1 := by
  rw [absorbInputJsonDelta]
  match partialJson data with
  | none => simp
  | some (index, fragment) =>
    rw [Outcome.traps_bind, UInt32.traps_castInt]
    simp [InRange]

theorem objectAt_iff {data name : Bytes} {root : Tree} (hroot : parseValue data = some root) :
    ObjectAt data name ↔ root.IsObject ∧ ∀ w, root.field? name = some w → w.IsObject := by
  constructor
  · exact fun h => h root hroot
  · intro h root' hroot'
    obtain rfl := Option.some.inj (hroot.symm.trans hroot')
    exact h

theorem objectAt_of_none {data : Bytes} (hroot : parseValue data = none) (name : Bytes) :
    ObjectAt data name := by
  intro root hroot'
  rw [hroot] at hroot'
  cases hroot'

theorem stringAt_of_none {data : Bytes} (hroot : parseValue data = none) (path : List Bytes) :
    stringAt path data = none := by
  rw [stringAt, hroot, Option.bind_none]

/-- A field of the payload, and a path from there. -/
theorem stringAt_cons {data : Bytes} {root : Tree} (hroot : parseValue data = some root)
    (name : Bytes) (path : List Bytes) :
    stringAt (name :: path) data =
      (root.field? name).bind fun w => (w.at? path).bind Tree.string? := by
  rw [stringAt, hroot, Option.bind_some, Tree.at?, Option.bind_assoc]

/-- **`absorbDelta` takes the payload and its delta for objects.** -/
theorem not_traps_absorbDelta {data : Bytes} :
    ¬ (absorbDelta data).Traps ↔ ObjectAt data (ascii "delta") := by
  unfold absorbDelta
  match hroot : parseValue data with
  | none => exact iff_of_true (Outcome.not_traps_ok _) (objectAt_of_none hroot _)
  | some root =>
    rw [objectAt_iff hroot, Tree.not_traps_field_bind]
    refine and_congr_right fun _ => ?_
    match root.field? (ascii "delta") with
    | none => simp
    | some w =>
      dsimp only
      rw [Tree.not_traps_field_bind]
      match w.field? (ascii "type") with
      | none => simp
      | some kind =>
        dsimp only
        split
        · rw [Tree.not_traps_field_bind]
          simp
        · simp

theorem absorbDelta_eq_ok {data fragment : Bytes} (h : absorbDelta data = .ok fragment) :
    fragment = ((if stringAt [ascii "delta", ascii "type"] data = some (ascii "text_delta") then
      stringAt [ascii "delta", ascii "text"] data else none).getD []) := by
  unfold absorbDelta at h
  match hroot : parseValue data with
  | none =>
    rw [hroot] at h
    rw [stringAt_of_none hroot, if_neg (by simp)]
    exact (Outcome.ok.inj h).symm
  | some root =>
    rw [hroot] at h
    obtain ⟨delta, hdelta, h⟩ := Outcome.bind_eq_ok.mp h
    obtain ⟨-, rfl⟩ := Tree.field_eq_ok.mp hdelta
    rw [stringAt_cons hroot, stringAt_cons hroot]
    match hw : root.field? (ascii "delta") with
    | none =>
      rw [hw] at h
      exact (Outcome.ok.inj h).symm
    | some w =>
      rw [hw] at h
      rw [Option.bind_some, Option.bind_some, Tree.at?_singleton, Tree.at?_singleton]
      obtain ⟨kind, hkind, h⟩ := Outcome.bind_eq_ok.mp h
      obtain ⟨-, rfl⟩ := Tree.field_eq_ok.mp hkind
      match hk : w.field? (ascii "type") with
      | none =>
        rw [hk] at h
        exact (Outcome.ok.inj h).symm
      | some kind =>
        rw [hk] at h
        rw [Option.bind_some]
        dsimp only at h
        split at h
        · obtain ⟨text, htext, h⟩ := Outcome.bind_eq_ok.mp h
          obtain ⟨-, rfl⟩ := Tree.field_eq_ok.mp htext
          rw [if_pos ‹_›]
          exact (Outcome.ok.inj h).symm
        · rw [if_neg ‹_›]
          exact (Outcome.ok.inj h).symm

/-- **`absorbError` takes the payload and its error for objects.** -/
theorem not_traps_absorbError {data : Bytes} :
    ¬ (absorbError data).Traps ↔ ObjectAt data (ascii "error") := by
  unfold absorbError
  match hroot : parseValue data with
  | none => exact iff_of_true (Outcome.not_traps_ok _) (objectAt_of_none hroot _)
  | some root =>
    rw [objectAt_iff hroot, Tree.not_traps_field_bind]
    refine and_congr_right fun _ => ?_
    match root.field? (ascii "error") with
    | none => simp
    | some w =>
      dsimp only
      rw [Tree.not_traps_field_bind]
      simp

theorem absorbError_eq_ok {data : Bytes} {e : Option Bytes} (h : absorbError data = .ok e) :
    e = stringAt [ascii "error", ascii "message"] data := by
  unfold absorbError at h
  match hroot : parseValue data with
  | none =>
    rw [hroot] at h
    rw [stringAt_of_none hroot]
    exact (Outcome.ok.inj h).symm
  | some root =>
    rw [hroot] at h
    obtain ⟨err, herr, h⟩ := Outcome.bind_eq_ok.mp h
    obtain ⟨-, rfl⟩ := Tree.field_eq_ok.mp herr
    rw [stringAt_cons hroot]
    match hw : root.field? (ascii "error") with
    | none =>
      rw [hw] at h
      exact (Outcome.ok.inj h).symm
    | some w =>
      rw [hw] at h
      obtain ⟨message, hmessage, h⟩ := Outcome.bind_eq_ok.mp h
      obtain ⟨-, rfl⟩ := Tree.field_eq_ok.mp hmessage
      rw [Option.bind_some, Tree.at?_singleton]
      exact (Outcome.ok.inj h).symm

/-! ### Usage -/

theorem not_traps_absorbCount {u : Tree} {name : Bytes} {count : UInt32} :
    ¬ (absorbCount u name count).Traps ↔ SaneCount u name := by
  unfold absorbCount SaneCount
  match (u.field? name).bind Tree.integer? with
  | none => simp
  | some n =>
    dsimp only
    rw [UInt32.traps_castInt, not_not]
    simp only [Option.some.injEq, forall_eq']
    omega

/-- **`absorbUsage` casts every count.** -/
theorem not_traps_absorbUsage {usage : TokenUsage} {u : Tree} :
    ¬ (absorbUsage usage u).Traps ↔ ∀ name ∈ countNames, SaneCount u name := by
  unfold absorbUsage countNames
  simp only [Outcome.pure_eq]
  rw [Outcome.not_traps_bind fun _ _ => Outcome.not_traps_bind fun _ _ =>
    Outcome.not_traps_bind fun _ _ => Outcome.not_traps_bind fun _ _ =>
      iff_true_intro (Outcome.not_traps_ok _)]
  simp only [not_traps_absorbCount, List.forall_mem_cons, and_true, List.not_mem_nil,
    false_implies, implies_true]

theorem not_traps_absorbUsageOf {usage : TokenUsage} {v : Tree} :
    ¬ (absorbUsageOf usage v).Traps ↔ SaneUsageOf v := by
  unfold absorbUsageOf SaneUsageOf
  rw [Tree.not_traps_field_bind]
  refine and_congr_right fun _ => ?_
  match v.field? (ascii "usage") with
  | none => simp
  | some u =>
    dsimp only
    rw [not_traps_absorbUsage]
    simp

theorem not_traps_absorbMessageStart {usage : TokenUsage} {data : Bytes} :
    ¬ (absorbMessageStart usage data).Traps ↔ ∀ root, parseValue data = some root →
      root.IsObject ∧
        ∀ message, root.field? (ascii "message") = some message → SaneUsageOf message := by
  unfold absorbMessageStart
  match parseValue data with
  | none => simp
  | some root =>
    dsimp only
    rw [Tree.not_traps_field_bind]
    simp only [Option.some.injEq, forall_eq']
    refine and_congr_right fun _ => ?_
    match root.field? (ascii "message") with
    | none => simp
    | some message =>
      dsimp only
      rw [not_traps_absorbUsageOf]
      simp

/-! ### The end of the message -/

theorem not_traps_absorbStopReason {stop : StopReason} {delta : Option Tree} :
    ¬ (absorbStopReason stop delta).Traps ↔ ∀ w, delta = some w → w.IsObject := by
  match delta with
  | none => simp [absorbStopReason]
  | some w =>
    rw [absorbStopReason, Tree.not_traps_field_bind]
    simp

theorem not_traps_absorbMessageDelta {usage : TokenUsage} {stop : StopReason} {data : Bytes} :
    ¬ (absorbMessageDelta usage stop data).Traps ↔
      ObjectAt data (ascii "delta") ∧
        ∀ root, parseValue data = some root → SaneUsageOf root := by
  unfold absorbMessageDelta
  match hroot : parseValue data with
  | none => simp [objectAt_of_none hroot]
  | some root =>
    simp only [Outcome.pure_eq]
    rw [objectAt_iff hroot, Tree.not_traps_field_bind,
      Outcome.not_traps_bind fun _ _ => Outcome.not_traps_bind fun _ _ =>
        iff_true_intro (Outcome.not_traps_ok _),
      not_traps_absorbStopReason, not_traps_absorbUsageOf, and_true]
    simp only [Option.some.injEq, forall_eq', and_assoc]

theorem absorbMessageDelta_eq_ok {usage : TokenUsage} {stop : StopReason} {data : Bytes}
    {r : TokenUsage × StopReason} (h : absorbMessageDelta usage stop data = .ok r) :
    r.2 = match stringAt [ascii "delta", ascii "stop_reason"] data with
      | none => stop
      | some reason => readStopReason stop reason := by
  unfold absorbMessageDelta at h
  match hroot : parseValue data with
  | none =>
    rw [hroot] at h
    rw [stringAt_of_none hroot, ← Outcome.ok.inj h]
  | some root =>
    rw [hroot] at h
    obtain ⟨delta, hdelta, h⟩ := Outcome.bind_eq_ok.mp h
    obtain ⟨-, rfl⟩ := Tree.field_eq_ok.mp hdelta
    obtain ⟨stop', hstop, h⟩ := Outcome.bind_eq_ok.mp h
    obtain ⟨usage', -, h⟩ := Outcome.bind_eq_ok.mp h
    rw [← Outcome.ok.inj h, stringAt_cons hroot]
    match hw : root.field? (ascii "delta") with
    | none =>
      rw [hw] at hstop
      exact (Outcome.ok.inj hstop).symm
    | some w =>
      rw [hw] at hstop
      obtain ⟨reason, hreason, hstop⟩ := Outcome.bind_eq_ok.mp hstop
      obtain ⟨-, rfl⟩ := Tree.field_eq_ok.mp hreason
      rw [Option.bind_some, Tree.at?_singleton]
      exact (Outcome.ok.inj hstop).symm

/-! ## The event table -/

namespace Sane

variable {ev : Event}

theorem iff_of_start (h : ev.name = ascii "content_block_start") :
    Sane ev ↔ ∀ r, announced ev.data = some r → InRange r.1 where
  mp hs := hs.start h
  mpr hs :=
    { start := fun _ => hs
      delta := fun h' => absurd (h.symm.trans h') (by decide)
      messageDelta := fun h' => absurd (h.symm.trans h') (by decide)
      messageStart := fun h' => absurd (h.symm.trans h') (by decide)
      error := fun h' => absurd (h.symm.trans h') (by decide) }

theorem iff_of_delta (h : ev.name = ascii "content_block_delta") :
    Sane ev ↔
      ObjectAt ev.data (ascii "delta") ∧ ∀ r, partialJson ev.data = some r → InRange r.1 where
  mp hs := hs.delta h
  mpr hs :=
    { start := fun h' => absurd (h.symm.trans h') (by decide)
      delta := fun _ => hs
      messageDelta := fun h' => absurd (h.symm.trans h') (by decide)
      messageStart := fun h' => absurd (h.symm.trans h') (by decide)
      error := fun h' => absurd (h.symm.trans h') (by decide) }

theorem iff_of_messageDelta (h : ev.name = ascii "message_delta") :
    Sane ev ↔ ObjectAt ev.data (ascii "delta") ∧
      ∀ root, parseValue ev.data = some root → SaneUsageOf root where
  mp hs := hs.messageDelta h
  mpr hs :=
    { start := fun h' => absurd (h.symm.trans h') (by decide)
      delta := fun h' => absurd (h.symm.trans h') (by decide)
      messageDelta := fun _ => hs
      messageStart := fun h' => absurd (h.symm.trans h') (by decide)
      error := fun h' => absurd (h.symm.trans h') (by decide) }

theorem iff_of_messageStart (h : ev.name = ascii "message_start") :
    Sane ev ↔ ∀ root, parseValue ev.data = some root → root.IsObject ∧
      ∀ message, root.field? (ascii "message") = some message → SaneUsageOf message where
  mp hs := hs.messageStart h
  mpr hs :=
    { start := fun h' => absurd (h.symm.trans h') (by decide)
      delta := fun h' => absurd (h.symm.trans h') (by decide)
      messageDelta := fun h' => absurd (h.symm.trans h') (by decide)
      messageStart := fun _ => hs
      error := fun h' => absurd (h.symm.trans h') (by decide) }

theorem iff_of_error (h : ev.name = ascii "error") :
    Sane ev ↔ ObjectAt ev.data (ascii "error") where
  mp hs := hs.error h
  mpr hs :=
    { start := fun h' => absurd (h.symm.trans h') (by decide)
      delta := fun h' => absurd (h.symm.trans h') (by decide)
      messageDelta := fun h' => absurd (h.symm.trans h') (by decide)
      messageStart := fun h' => absurd (h.symm.trans h') (by decide)
      error := fun _ => hs }

end Sane

theorem Locals.assign_snd {α : Type} {l : Locals} {result : Outcome Empty α} {put : α → Locals} :
    (l.assign result put).2 = none ↔ ¬ result.Traps := by
  match result with
  | .ok a => exact iff_of_true rfl (Outcome.not_traps_ok a)
  | .trap t => exact iff_of_false (by simp [Locals.assign]) (by simp)

theorem Locals.assign_ok {α : Type} {l : Locals} {result : Outcome Empty α} {put : α → Locals}
    {a : α} (h : result = .ok a) : l.assign result put = (put a, none) := by
  rw [h, Locals.assign]

variable {sinks : Sinks}

/-- **An event can be absorbed just if it is sane**, whatever came before it. -/
theorem absorb_snd_eq_none_iff (l : Locals) (ev : Event) :
    (Drain.absorb sinks l ev).2 = none ↔ Sane ev := by
  unfold Drain.absorb
  split
  · rename_i hname
    rw [Sane.iff_of_start hname, Locals.assign_snd, not_traps_absorbContentBlockStart]
  split
  · rename_i hname
    rw [Sane.iff_of_delta hname]
    match hdelta : absorbDelta ev.data with
    | .trap t =>
      have hno : ¬ ObjectAt ev.data (ascii "delta") := by
        rw [← not_traps_absorbDelta, hdelta]
        simp
      exact iff_of_false (by simp) fun h => hno h.1
    | .ok fragment =>
      have hobj : ObjectAt ev.data (ascii "delta") := by
        rw [← not_traps_absorbDelta, hdelta]
        simp
      dsimp only
      rw [Locals.assign_snd, not_traps_absorbInputJsonDelta]
      exact (and_iff_right hobj).symm
  split
  · rename_i hname
    rw [Sane.iff_of_messageDelta hname, Locals.assign_snd, not_traps_absorbMessageDelta]
  split
  · rename_i hname
    rw [Sane.iff_of_messageStart hname, Locals.assign_snd, not_traps_absorbMessageStart]
  split
  · rename_i hname
    rw [Sane.iff_of_error hname, Locals.assign_snd, not_traps_absorbError]
  · rename_i hstart hdelta hmdelta hmstart herror
    exact iff_of_true rfl
      { start := fun h => absurd h hstart
        delta := fun h => absurd h hdelta
        messageDelta := fun h => absurd h hmdelta
        messageStart := fun h => absurd h hmstart
        error := fun h => absurd h herror }

/-- The builders after an event. -/
def buildersAfter (builders : List ToolBuilder) (ev : Event) : List ToolBuilder :=
  match blockStart ev, inputDelta ev with
  | some (index, id, name), _ =>
    builders ++ [{ index := UInt32.ofNat index.toNat, id, name }]
  | none, some (index, fragment) => appendInput (UInt32.ofNat index.toNat) fragment builders
  | none, none => builders

/-- The locals after an event, as it was read. -/
structure Absorbed (sinks : Sinks) (l : Locals) (ev : Event) (l' : Locals) : Prop where
  text : l'.text = l.text ++ (textDelta ev).getD []
  tokens : sinks.token = true → l'.tokens.flatten = l.tokens.flatten ++ (textDelta ev).getD []
  toolBuilders : l'.toolBuilders = buildersAfter l.toolBuilders ev
  stop : l'.stop = stopAfter l.stop ev
  errText : l'.errText = refusalAfter l.errText ev

theorem castInt_eq_ok {n : ℤ} {m : UInt32} (h : UInt32.castInt n = (.ok m : Outcome Empty UInt32)) :
    m = UInt32.ofNat n.toNat := by
  rw [UInt32.castInt] at h
  split at h
  · exact (Outcome.ok.inj h).symm
  · cases h

theorem flatten_say (l : Locals) (fragment : Bytes) (h : sinks.token = true) :
    (l.say sinks fragment).tokens.flatten = l.tokens.flatten ++ fragment := by
  rw [Locals.say, h, Bool.true_and]
  split
  · rw [List.flatten_append, List.flatten_singleton]
  · rename_i hlen
    rw [decide_eq_true_eq, Nat.not_lt, Nat.le_zero] at hlen
    exact (List.append_right_eq_self.mpr (List.eq_nil_of_length_eq_zero hlen)).symm

/-- An event of another name carries no text, and so on. -/
theorem textDelta_of_ne {ev : Event} (h : ev.name ≠ ascii "content_block_delta") :
    textDelta ev = none :=
  if_neg fun h' => h h'.1

theorem inputDelta_of_ne {ev : Event} (h : ev.name ≠ ascii "content_block_delta") :
    inputDelta ev = none :=
  if_neg h

theorem blockStart_of_ne {ev : Event} (h : ev.name ≠ ascii "content_block_start") :
    blockStart ev = none :=
  if_neg h

theorem buildersAfter_of_ne {ev : Event} (hstart : ev.name ≠ ascii "content_block_start")
    (hdelta : ev.name ≠ ascii "content_block_delta") (builders : List ToolBuilder) :
    buildersAfter builders ev = builders := by
  rw [buildersAfter, blockStart_of_ne hstart, inputDelta_of_ne hdelta]

theorem stopAfter_of_ne {ev : Event} (hdelta : ev.name ≠ ascii "message_delta")
    (herror : ev.name ≠ ascii "error") (stop : StopReason) : stopAfter stop ev = stop := by
  rw [stopAfter, if_neg hdelta, if_neg herror]

theorem refusalAfter_of_ne {ev : Event} (h : ev.name ≠ ascii "error") (refusal : Option Bytes) :
    refusalAfter refusal ev = refusal :=
  if_neg h

theorem absorbContentBlockStart_eq_ok {builders builders' : List ToolBuilder} {ev : Event}
    (hname : ev.name = ascii "content_block_start")
    (h : (absorbContentBlockStart builders ev.data).2 = .ok builders') :
    builders' = buildersAfter builders ev := by
  have hdelta : inputDelta ev = none :=
    inputDelta_of_ne fun h' => absurd (hname.symm.trans h') (by decide)
  rw [buildersAfter, hdelta, blockStart, if_pos hname]
  rw [absorbContentBlockStart] at h
  match hread : announced ev.data with
  | none =>
    rw [hread] at h
    exact (Outcome.ok.inj h).symm
  | some (index, id, name) =>
    rw [hread] at h
    obtain ⟨m, hm, h⟩ := Outcome.bind_eq_ok.mp h
    rw [← Outcome.ok.inj h, castInt_eq_ok hm]

theorem absorbInputJsonDelta_eq_ok {builders builders' : List ToolBuilder} {ev : Event}
    (hname : ev.name = ascii "content_block_delta")
    (h : absorbInputJsonDelta builders ev.data = .ok builders') :
    builders' = buildersAfter builders ev := by
  have hstart : blockStart ev = none :=
    blockStart_of_ne fun h' => absurd (hname.symm.trans h') (by decide)
  rw [buildersAfter, hstart, inputDelta, if_pos hname]
  rw [absorbInputJsonDelta] at h
  match hread : partialJson ev.data with
  | none =>
    rw [hread] at h
    exact (Outcome.ok.inj h).symm
  | some (index, fragment) =>
    rw [hread] at h
    obtain ⟨m, hm, h⟩ := Outcome.bind_eq_ok.mp h
    rw [← Outcome.ok.inj h, castInt_eq_ok hm]

/-- What a sink is told changes nothing else. -/
theorem Locals.announce_eq (l : Locals) (starts : List (Bytes × Bytes)) :
    l.announce sinks starts = { l with toolStarts := (l.announce sinks starts).toolStarts } := by
  rw [Locals.announce]
  split <;> rfl

/-- **What is absorbed is what was read.** -/
theorem absorb_absorbed {l : Locals} {ev : Event} (h : (Drain.absorb sinks l ev).2 = none) :
    Absorbed sinks l ev (Drain.absorb sinks l ev).1 := by
  unfold Drain.absorb at h ⊢
  have hother : ∀ {a b : Bytes}, ev.name = a → a ≠ b → ev.name ≠ b :=
    fun ha hab hb => hab (ha.symm.trans hb)
  by_cases hstart : ev.name = ascii "content_block_start"
  · rw [if_pos hstart] at h ⊢
    obtain ⟨builders, hok⟩ := Outcome.not_traps_iff.mp (Locals.assign_snd.mp h)
    have htext : textDelta ev = none := textDelta_of_ne (hother hstart (by decide))
    have herror : ev.name ≠ ascii "error" := hother hstart (by decide)
    rw [Locals.assign_ok hok, Locals.announce_eq]
    exact
      { text := by rw [htext]; exact (List.append_nil _).symm
        tokens := fun _ => by rw [htext]; exact (List.append_nil _).symm
        toolBuilders := absorbContentBlockStart_eq_ok hstart hok
        stop := (stopAfter_of_ne (hother hstart (by decide)) herror l.stop).symm
        errText := (refusalAfter_of_ne herror l.errText).symm }
  rw [if_neg hstart] at h ⊢
  by_cases hdelta : ev.name = ascii "content_block_delta"
  · rw [if_pos hdelta] at h ⊢
    have herror : ev.name ≠ ascii "error" := hother hdelta (by decide)
    match hread : absorbDelta ev.data with
    | .trap t =>
      rw [hread] at h
      cases h
    | .ok fragment =>
      rw [hread] at h
      have hfragment : fragment = (textDelta ev).getD [] := by
        rw [absorbDelta_eq_ok hread, textDelta]
        simp only [hdelta, true_and]
      obtain ⟨builders, hok⟩ := Outcome.not_traps_iff.mp (Locals.assign_snd.mp h)
      dsimp only
      rw [Locals.assign_ok hok]
      exact
        { text := congrArg (l.text ++ ·) hfragment
          tokens := fun htoken => hfragment ▸ flatten_say l fragment htoken
          toolBuilders := absorbInputJsonDelta_eq_ok hdelta hok
          stop := (stopAfter_of_ne (hother hdelta (by decide)) herror l.stop).symm
          errText := (refusalAfter_of_ne herror l.errText).symm }
  rw [if_neg hdelta] at h ⊢
  -- the events that are left are not about blocks
  have htext : (textDelta ev).getD [] = [] := by
    rw [textDelta_of_ne hdelta]
    rfl
  have hbuilders : ∀ builders, buildersAfter builders ev = builders :=
    buildersAfter_of_ne hstart hdelta
  by_cases hmdelta : ev.name = ascii "message_delta"
  · rw [if_pos hmdelta] at h ⊢
    have herror : ev.name ≠ ascii "error" := hother hmdelta (by decide)
    obtain ⟨r, hok⟩ := Outcome.not_traps_iff.mp (Locals.assign_snd.mp h)
    rw [Locals.assign_ok hok]
    exact
      { text := by rw [htext, List.append_nil]
        tokens := fun _ => by rw [htext, List.append_nil]
        toolBuilders := (hbuilders _).symm
        stop := by
          rw [stopAfter, if_pos hmdelta]
          exact absorbMessageDelta_eq_ok hok
        errText := (refusalAfter_of_ne herror l.errText).symm }
  rw [if_neg hmdelta] at h ⊢
  by_cases hmstart : ev.name = ascii "message_start"
  · rw [if_pos hmstart] at h ⊢
    have herror : ev.name ≠ ascii "error" := hother hmstart (by decide)
    obtain ⟨usage, hok⟩ := Outcome.not_traps_iff.mp (Locals.assign_snd.mp h)
    rw [Locals.assign_ok hok]
    exact
      { text := by rw [htext, List.append_nil]
        tokens := fun _ => by rw [htext, List.append_nil]
        toolBuilders := (hbuilders _).symm
        stop := (stopAfter_of_ne hmdelta herror l.stop).symm
        errText := (refusalAfter_of_ne herror l.errText).symm }
  rw [if_neg hmstart] at h ⊢
  by_cases herror : ev.name = ascii "error"
  · rw [if_pos herror] at h ⊢
    obtain ⟨e, hok⟩ := Outcome.not_traps_iff.mp (Locals.assign_snd.mp h)
    rw [Locals.assign_ok hok]
    exact
      { text := by rw [htext, List.append_nil]
        tokens := fun _ => by rw [htext, List.append_nil]
        toolBuilders := (hbuilders _).symm
        stop := by rw [stopAfter, if_neg hmdelta, if_pos herror]
        errText := by
          rw [refusalAfter, if_pos herror]
          exact absorbError_eq_ok hok }
  rw [if_neg herror]
  exact
    { text := by rw [htext, List.append_nil]
      tokens := fun _ => by rw [htext, List.append_nil]
      toolBuilders := (hbuilders _).symm
      stop := (stopAfter_of_ne hmdelta herror l.stop).symm
      errText := (refusalAfter_of_ne herror l.errText).symm }

/-! ## All events -/

/-- The text that the events add to the reply. -/
def deltas (events : List Event) : Bytes := (events.filterMap textDelta).flatten

/-- The locals after the events, as they were read. -/
structure AbsorbedAll (sinks : Sinks) (l : Locals) (events : List Event) (l' : Locals) : Prop where
  text : l'.text = l.text ++ deltas events
  tokens : sinks.token = true → l'.tokens.flatten = l.tokens.flatten ++ deltas events
  toolBuilders : l'.toolBuilders = events.foldl buildersAfter l.toolBuilders
  stop : l'.stop = events.foldl stopAfter l.stop
  errText : l'.errText = events.foldl refusalAfter l.errText

theorem deltas_cons (ev : Event) (events : List Event) :
    deltas (ev :: events) = (textDelta ev).getD [] ++ deltas events := by
  rw [deltas, List.filterMap_cons]
  cases textDelta ev with
  | none => rfl
  | some fragment => rfl

variable (sinks) in
/-- **Events can be absorbed just if all of them are sane.** -/
theorem absorbAll_snd_eq_none_iff (events : List Event) :
    (absorbAll sinks events).2 = none ↔ ∀ ev ∈ events, Sane ev :=
  handleAll_snd_eq_none_iff (fun l ev => absorb_snd_eq_none_iff l ev) {} events

theorem handleAll_absorbed {l : Locals} {events : List Event}
    (h : (handleAll (Drain.absorb sinks) l events).2 = none) :
    AbsorbedAll sinks l events (handleAll (Drain.absorb sinks) l events).1 := by
  induction events generalizing l with
  | nil =>
    exact
      { text := (List.append_nil _).symm
        tokens := fun _ => (List.append_nil _).symm
        toolBuilders := rfl
        stop := rfl
        errText := rfl }
  | cons ev events ih =>
    match hstep : Drain.absorb sinks l ev with
    | (l', some t) =>
      rw [handleAll_cons_some hstep] at h
      cases h
    | (l', none) =>
      rw [handleAll_cons_none hstep] at h ⊢
      have hev : Absorbed sinks l ev (Drain.absorb sinks l ev).1 :=
        absorb_absorbed (by rw [hstep])
      rw [hstep] at hev
      have hall := ih h
      exact
        { text := by rw [hall.text, hev.text, deltas_cons, List.append_assoc]
          tokens := fun htoken => by
            rw [hall.tokens htoken, hev.tokens htoken, deltas_cons, List.append_assoc]
          toolBuilders := by rw [hall.toolBuilders, hev.toolBuilders, List.foldl_cons]
          stop := by rw [hall.stop, hev.stop, List.foldl_cons]
          errText := by rw [hall.errText, hev.errText, List.foldl_cons] }

/-- **What is absorbed of all events is what was read of them.** -/
theorem absorbAll_absorbed {events : List Event} (h : ∀ ev ∈ events, Sane ev) :
    AbsorbedAll sinks {} events (absorbAll sinks events).1 :=
  handleAll_absorbed ((absorbAll_snd_eq_none_iff sinks events).mpr h)

/-! ## What a stream comes to -/

/-- **A check trips just if an event that comes in is not sane.** -/
theorem not_traps_conclude {r : List Event × Cause SseError} :
    ¬ (conclude sinks r).result.Traps ↔ ∀ ev ∈ r.1, Sane ev := by
  rw [← absorbAll_snd_eq_none_iff sinks, conclude]
  obtain ⟨events, cause⟩ := r
  cases (absorbAll sinks events).2 with
  | some t => exact iff_of_false (by simp [Cause.unless, finish]) (by simp)
  | none =>
    refine iff_of_true ?_ rfl
    cases cause <;> simp [Cause.unless, finish]

end Anthropic
end Llm
end TigerClaw
