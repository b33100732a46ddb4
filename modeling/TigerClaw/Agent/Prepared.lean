import TigerClaw.Agent.Loop
import TigerClaw.Library.Digits

/-!
# A transcript that is prepared for a request

`prepareForSend` of `src/agent/context/engine.zig` gives the provider a copy of the transcript, or,
where the window is under pressure, of its head and its tail.  A message is copied as its text.

* `Compacted`, `Prepared`: what is returned with the messages, the hint and the record of the pass.
* `Message.Plain`: a message that its text is all of.
* `estimateMessages_sublist`: a part of a transcript is not estimated higher.
* `preserves_iff`: the messages are those of the transcript exactly where they are plain.
  `plain_runTurn`: what the agent adds to a transcript by itself is plain.
-/

namespace TigerClaw
namespace Agent

/-! ## The code -/

/-- `compression_feedback.Record`. -/
structure Feedback where
  beforeMessages : UInt32
  afterMessages : UInt32
  beforeTokens : ℕ
  afterTokens : ℕ
  hintsAdded : ℕ

/-- `Hints.render`. -/
def renderHints (items : List Bytes) : Bytes :=
  if items.length = 0 then [] else ascii "[compacted]\n" ++ items.flatMap fun h => h ++ [0x0A]

/-- `compaction.Result`. -/
structure Compacted where
  messages : List Message
  dropped : ℕ
  hint : Bytes

/-- `compact`, with the hint; the buffer of its line holds the digits of every `usize`. -/
def compacted (history : List Message) (policy : Policy) : Compacted :=
  let headN := min policy.keepHead history.length
  let tailStart :=
    if policy.keepTail < history.length then history.length - policy.keepTail else headN
  let effectiveTailStart := max headN tailStart
  let keptTotal := headN + (history.length - effectiveTailStart)
  let dropped := history.length - keptTotal
  { messages := compact history policy
    dropped
    hint :=
      if 0 < dropped then
        renderHints [ascii "dropped " ++ Digits.decimal dropped ++
          ascii " older message(s) to fit context window"]
      else [] }

structure Prepared where
  messages : List Message
  hint : Bytes
  feedback : Feedback

/-- `prepareForSend`, with all that it returns. -/
def Engine.prepared (self : Engine) (history : List Message) : Outcome Empty Prepared := do
  let beforeTokens := Window.estimateMessages history
  let status := self.window.classify beforeTokens
  let needsCompact := status = .pressure ∨ status = .overflow
  if ¬ needsCompact then
    let copy := history.map fun m => Message.allocText m.role m.flatText
    let beforeMessages ← UInt32.castNat history.length
    let afterMessages ← UInt32.castNat history.length
    pure {
      messages := copy
      hint := []
      feedback := {
        beforeMessages, afterMessages, beforeTokens, afterTokens := beforeTokens
        hintsAdded := 0 } }
  else
    let result := compacted history self.policy
    let afterTokens := Window.estimateMessages result.messages
    let beforeMessages ← UInt32.castNat history.length
    let afterMessages ← UInt32.castNat result.messages.length
    pure {
      messages := result.messages
      hint := result.hint
      feedback := {
        beforeMessages, afterMessages, beforeTokens, afterTokens
        hintsAdded := if result.hint.length = 0 then 0 else 1 } }

/-! ## What is asked for -/

/-- One text block. -/
def Message.Plain (m : Message) : Prop := ∃ text, m.content = [.text text]

/-- Where the head ends and the tail begins: as many messages as the policy says, from what the head
leaves of them. -/
def Policy.Ends (policy : Policy) (length headEnd tailStart : ℕ) : Prop :=
  headEnd = min policy.keepHead length ∧ headEnd ≤ tailStart ∧ tailStart ≤ length ∧
    length - tailStart = min policy.keepTail (length - headEnd)

/-- The transcript is preserved: all of it, or its two ends. -/
def Preserves (engine : Engine) (history : List Message) (r : Outcome Empty Prepared) : Prop :=
  ∃ prepared, r = .ok prepared ∧
    (engine.shouldCompress history = false → prepared.messages = history) ∧
    (engine.shouldCompress history = true →
      (∃ headEnd tailStart, engine.policy.Ends history.length headEnd tailStart ∧
        prepared.messages = history.take headEnd ++ history.drop tailStart) ∧
      Window.estimateMessages prepared.messages ≤ Window.estimateMessages history)

/-- The messages that are copied. -/
def Engine.kept (self : Engine) (history : List Message) : List Message :=
  if self.shouldCompress history then
    history.take self.policy.keepHead ++
      history.drop (max (min self.policy.keepHead history.length)
        (history.length - self.policy.keepTail))
  else history

/-! ## Copies -/

theorem flatText_allocText (role : Role) (body : Bytes) :
    (Message.allocText role body).flatText = body := rfl

/-- A copy is the message itself exactly if the message is plain. -/
theorem allocText_eq_iff {m : Message} :
    Message.allocText m.role m.flatText = m ↔ m.Plain := by
  constructor
  · intro h
    exact ⟨m.flatText, (congrArg Message.content h).symm⟩
  · rintro ⟨text, htext⟩
    obtain ⟨role, content⟩ := m
    obtain rfl : content = [.text text] := htext
    rfl

theorem map_allocText_eq_iff {messages : List Message} :
    messages.map (fun m => Message.allocText m.role m.flatText) = messages ↔
      ∀ m ∈ messages, m.Plain := by
  have hid : messages.map (fun m => Message.allocText m.role m.flatText) = messages ↔
      messages.map (fun m => Message.allocText m.role m.flatText) = messages.map id := by
    rw [List.map_id]
  rw [hid, List.map_inj_left]
  exact forall₂_congr fun m _ => allocText_eq_iff

/-! ## The estimate -/

/-- The saturating sum of `estimateMessages`, from what is counted already. -/
def tokensFrom (total : ℕ) (messages : List Message) : ℕ :=
  messages.foldl (fun total m => min (total + estimate m.flatText) 0xFFFFFFFFFFFFFFFF) total

theorem tokensFrom_cons (total : ℕ) (m : Message) (messages : List Message) :
    tokensFrom total (m :: messages) =
      tokensFrom (min (total + estimate m.flatText) 0xFFFFFFFFFFFFFFFF) messages := rfl

/-- A part counts no higher, from no more.  The total is below the top, where adding does not
lower it. -/
theorem tokensFrom_sublist {part messages : List Message} (h : part.Sublist messages) :
    ∀ {total total' : ℕ}, total ≤ total' → total ≤ 0xFFFFFFFFFFFFFFFF →
      tokensFrom total part ≤ tokensFrom total' messages := by
  induction h with
  | slnil =>
    intro total total' hle _
    exact hle
  | cons m _ ih =>
    intro total total' hle htop
    rw [tokensFrom_cons]
    exact ih (by omega) htop
  | cons_cons m _ ih =>
    intro total total' hle htop
    rw [tokensFrom_cons, tokensFrom_cons]
    exact ih (by omega) (by omega)

/-- A part of a transcript is not estimated higher than the whole. -/
theorem estimateMessages_sublist {part messages : List Message} (h : part.Sublist messages) :
    Window.estimateMessages part ≤ Window.estimateMessages messages := by
  have htokens := tokensFrom_sublist h (Nat.le_refl 0) (Nat.zero_le _)
  unfold Window.estimateMessages
  change min (tokensFrom 0 part) _ ≤ min (tokensFrom 0 messages) _
  omega

/-- A copy is estimated like the messages themselves. -/
theorem estimateMessages_map_allocText (messages : List Message) :
    Window.estimateMessages (messages.map fun m => Message.allocText m.role m.flatText) =
      Window.estimateMessages messages := by
  rw [Window.estimateMessages, Window.estimateMessages, List.foldl_map]
  rfl

/-! ## The two ends -/

/-- The two ends do not overlap. -/
theorem ends_sublist (history : List Message) {headEnd tailStart : ℕ} (h : headEnd ≤ tailStart) :
    (history.take headEnd ++ history.drop tailStart).Sublist history := by
  have hdrop : (history.drop tailStart).Sublist (history.drop headEnd) := by
    obtain ⟨more, rfl⟩ := Nat.exists_eq_add_of_le h
    rw [← List.drop_drop]
    exact List.drop_sublist _ _
  calc (history.take headEnd ++ history.drop tailStart).Sublist
        (history.take headEnd ++ history.drop headEnd) := hdrop.append_left _
    _ = history := List.take_append_drop _ _

/-- There is one place for each of the ends. -/
theorem ends_iff (policy : Policy) (length headEnd tailStart : ℕ) :
    policy.Ends length headEnd tailStart ↔
      headEnd = min policy.keepHead length ∧
        tailStart = max (min policy.keepHead length) (length - policy.keepTail) := by
  unfold Policy.Ends
  omega

/-- What is compacted is a copy of what is kept. -/
theorem compact_eq (engine : Engine) {history : List Message}
    (h : engine.shouldCompress history = true) :
    compact history engine.policy =
      (engine.kept history).map fun m => Message.allocText m.role m.flatText := by
  have hstart : max (min engine.policy.keepHead history.length)
      (if engine.policy.keepTail < history.length then history.length - engine.policy.keepTail
        else min engine.policy.keepHead history.length) =
      max (min engine.policy.keepHead history.length)
        (history.length - engine.policy.keepTail) := by
    split <;> omega
  rw [compact, hstart, Engine.kept, if_pos h, ← List.take_eq_take_min]

theorem prepareForSend_eq (engine : Engine) (history : List Message) :
    engine.prepareForSend history =
      (engine.kept history).map fun m => Message.allocText m.role m.flatText := by
  by_cases h : engine.shouldCompress history = true
  · rw [Engine.prepareForSend, if_pos h, compact_eq engine h]
  · rw [Engine.prepareForSend, if_neg h, Engine.kept, if_neg h]

/-! ## What is prepared -/

theorem shouldCompress_iff {engine : Engine} {history : List Message} :
    engine.shouldCompress history = true ↔
      engine.window.classify (Window.estimateMessages history) = .pressure ∨
        engine.window.classify (Window.estimateMessages history) = .overflow := by
  rw [Engine.shouldCompress, Bool.or_eq_true, decide_eq_true_iff, decide_eq_true_iff]

theorem castNat_eq_ok {n : ℕ} (h : n < 2 ^ 32) :
    (UInt32.castNat n : Outcome Empty UInt32) = .ok (UInt32.ofNat n) := if_pos h

theorem kept_sublist (engine : Engine) (history : List Message) :
    (engine.kept history).Sublist history := by
  unfold Engine.kept
  split_ifs
  · rw [List.take_eq_take_min]
    exact ends_sublist history (Nat.le_max_left _ _)
  · exact List.Sublist.refl _

/-- **Something is prepared exactly if the messages can be counted**, and then the copies of what is
kept. -/
theorem prepared_messages_iff {engine : Engine} {history messages : List Message} :
    (∃ prepared, engine.prepared history = .ok prepared ∧ prepared.messages = messages) ↔
      history.length < 2 ^ 32 ∧ messages = engine.prepareForSend history := by
  have hkept : (engine.prepareForSend history).length ≤ history.length := by
    rw [prepareForSend_eq, List.length_map]
    exact (kept_sublist engine history).length_le
  unfold Engine.prepared
  dsimp only
  by_cases hlength : history.length < 2 ^ 32
  · rw [castNat_eq_ok hlength, and_iff_right hlength]
    by_cases hcompress : engine.shouldCompress history = true
    · rw [Engine.prepareForSend, if_pos hcompress] at hkept ⊢
      have hafter : (compacted history engine.policy).messages.length < 2 ^ 32 :=
        Nat.lt_of_le_of_lt hkept hlength
      rw [if_neg (not_not.mpr (shouldCompress_iff.mp hcompress)), castNat_eq_ok hafter]
      simp [compacted, eq_comm]
    · rw [Engine.prepareForSend, if_neg hcompress,
        if_pos fun hneeds => hcompress (shouldCompress_iff.mpr hneeds)]
      simp [eq_comm]
  · have htrap : (UInt32.castNat history.length : Outcome Empty UInt32) = .trap .intCast :=
      if_neg hlength
    rw [htrap]
    refine iff_of_false ?_ fun h => hlength h.1
    rintro ⟨prepared, hprepared, -⟩
    simp only [Outcome.trap_bind, ite_self] at hprepared
    cases hprepared

/-- What is prepared is never estimated higher than the transcript, plain or not. -/
theorem estimateMessages_prepared_le {engine : Engine} {history : List Message}
    {prepared : Prepared} (h : engine.prepared history = .ok prepared) :
    Window.estimateMessages prepared.messages ≤ Window.estimateMessages history := by
  obtain ⟨-, hmessages⟩ := prepared_messages_iff.mp ⟨prepared, h, rfl⟩
  rw [hmessages, prepareForSend_eq, estimateMessages_map_allocText]
  exact estimateMessages_sublist (kept_sublist engine history)

/-- **The transcript is preserved exactly where it is plain**, as far as it is copied. -/
theorem preserves_iff (engine : Engine) (history : List Message) :
    Preserves engine history (engine.prepared history) ↔
      history.length < 2 ^ 32 ∧ ∀ m ∈ engine.kept history, m.Plain := by
  have hcopies : engine.prepareForSend history = engine.kept history ↔
      ∀ m ∈ engine.kept history, m.Plain := by
    rw [prepareForSend_eq, map_allocText_eq_iff]
  constructor
  · rintro ⟨prepared, hprepared, hall, hends⟩
    obtain ⟨hlength, hmessages⟩ := prepared_messages_iff.mp ⟨prepared, hprepared, rfl⟩
    refine ⟨hlength, hcopies.mp (hmessages.symm.trans ?_)⟩
    by_cases hcompress : engine.shouldCompress history = true
    · obtain ⟨⟨headEnd, tailStart, hplace, hcut⟩, -⟩ := hends hcompress
      obtain ⟨rfl, rfl⟩ := (ends_iff _ _ _ _).mp hplace
      rw [hcut, Engine.kept, if_pos hcompress, ← List.take_eq_take_min]
    · rw [hall (Bool.eq_false_iff.mpr hcompress), Engine.kept, if_neg hcompress]
  · rintro ⟨hlength, hplain⟩
    have hmessages := hcopies.mpr hplain
    obtain ⟨prepared, hprepared, hkept⟩ := prepared_messages_iff.mpr ⟨hlength, hmessages.symm⟩
    refine ⟨prepared, hprepared, fun hcompress => ?_, fun hcompress => ?_⟩
    · rw [hkept, Engine.kept, if_neg (Bool.eq_false_iff.mp hcompress)]
    · refine ⟨⟨_, _, (ends_iff _ _ _ _).mpr ⟨rfl, rfl⟩, ?_⟩,
        estimateMessages_prepared_le hprepared⟩
      rw [hkept, Engine.kept, if_pos hcompress, List.take_eq_take_min]

/-- A call of a tool, below the threshold: it is gone from the copy. -/
theorem toolUse_lost :
    (Engine.mk ⟨10000, 1000⟩ {}).shouldCompress
        [⟨.assistant, [.toolUse (ascii "tu1") (ascii "get_time") (ascii "\x7b\x7d")]⟩] = false ∧
      (Engine.mk ⟨10000, 1000⟩ {}).prepareForSend
        [⟨.assistant, [.toolUse (ascii "tu1") (ascii "get_time") (ascii "\x7b\x7d")]⟩] =
        [⟨.assistant, [.text []]⟩] ∧
      ¬ Preserves (Engine.mk ⟨10000, 1000⟩ {})
        [⟨.assistant, [.toolUse (ascii "tu1") (ascii "get_time") (ascii "\x7b\x7d")]⟩]
        ((Engine.mk ⟨10000, 1000⟩ {}).prepared
          [⟨.assistant, [.toolUse (ascii "tu1") (ascii "get_time") (ascii "\x7b\x7d")]⟩]) := by
  have hbelow : (Engine.mk ⟨10000, 1000⟩ {}).shouldCompress
      [⟨.assistant, [.toolUse (ascii "tu1") (ascii "get_time") (ascii "\x7b\x7d")]⟩] = false := by
    decide
  refine ⟨hbelow, by decide, ?_⟩
  rintro ⟨prepared, hprepared, hall, -⟩
  have hmessages := (prepared_messages_iff.mp ⟨prepared, hprepared, rfl⟩).2
  exact absurd (hmessages.symm.trans (hall hbelow)) (by decide)

/-! ## Plain transcripts -/

theorem plain_prepare {contextEngine : Option Engine} {history : List Message}
    (h : ∀ m ∈ history, m.Plain) : ∀ m ∈ prepare contextEngine history, m.Plain := by
  cases contextEngine with
  | none => exact h
  | some engine =>
    rw [prepare]
    split
    · rw [prepareForSend_eq, List.forall_mem_map]
      exact fun m _ => ⟨m.flatText, rfl⟩
    · exact h

/-- The agent itself pushes text only: from a plain transcript, a turn leaves a plain one, and asks
with none that would not be preserved. -/
theorem plain_runTurn (agent : Agent) (h : ∀ m ∈ agent.state.messages, m.Plain) (userInput : Bytes)
    (replies : List ChatResponse) :
    (agent.runTurn userInput replies).2.Everywhere Message.Plain := by
  have hown := everywhere_turn (P := Message.Plain) (fun _ text _ => ⟨text, rfl⟩) agent userInput
    replies
  have hpre := @plain_prepare agent.contextEngine _ h
  rw [runTurn_eq]
  refine ⟨List.forall_mem_append.mpr ⟨hpre, hown.1⟩, ?_⟩
  intro messages hmessages
  obtain ⟨asked, hasked, rfl⟩ := List.mem_map.mp hmessages
  exact List.forall_mem_append.mpr ⟨hpre, hown.2 asked hasked⟩

end Agent
end TigerClaw
