import TigerClaw.Agent.Loop

/-!
# The window estimate

`estimateMessages` of `src/agent/context/window.zig` counts the first text of every message at four
bytes a token, rounded up.  The messages go to the provider with all their blocks.

* `blockBytes`, `trueSize`: what is sent, and its size by the same rule.
* `firstTokens`, `slack`, `hiddenBytes`: the tokens of the first texts, what their rounding adds,
  and the bytes in the other blocks.
* `estimateMessages_eq`, `trueSize_eq`: the two sizes.
* `estimateMessages_overestimates_iff`: the estimate is not too small exactly if the rounding makes
  up for the hidden bytes, or the first texts alone fill 32 bits.
-/

namespace TigerClaw
namespace Agent

open Context (ContentBlock)

/-! ## What is sent -/

/-- The bytes that a block holds. -/
def blockBytes : ContentBlock → ℕ
  | .text s => s.length
  | .toolUse id name inputJson => id.length + name.length + inputJson.length
  | .toolResult toolUseId content _ => toolUseId.length + content.length

/-- The bytes of the blocks beside the first text. -/
def hiddenBlockBytes : List ContentBlock → ℕ
  | [] => 0
  | .text _ :: blocks => (blocks.map blockBytes).sum
  | block :: blocks => blockBytes block + hiddenBlockBytes blocks

/-- The bytes of all the blocks of all the messages. -/
def totalBytes (messages : List Message) : ℕ :=
  (messages.map fun m => (m.content.map blockBytes).sum).sum

/-- The size that a list has for the provider: `ceil(bytes / 4)`, cut to 32 bits. -/
def trueSize (messages : List Message) : ℕ := min ((totalBytes messages + 3) / 4) 0xFFFFFFFF

/-- What the estimate does not look at. -/
def hiddenBytes (messages : List Message) : ℕ :=
  (messages.map fun m => hiddenBlockBytes m.content).sum

/-- What rounding the first texts up to whole tokens adds. -/
def slack (messages : List Message) : ℕ :=
  (messages.map fun m => (4 - m.flatText.length % 4) % 4).sum

/-- The tokens of the first texts, however many they are. -/
def firstTokens (messages : List Message) : ℕ :=
  (messages.map fun m => (m.flatText.length + 3) / 4).sum

/-! ## The two sizes -/

/-- A message is its first text and what is hidden. -/
theorem sum_blockBytes (content : List ContentBlock) :
    (content.map blockBytes).sum =
      ((firstText content).getD []).length + hiddenBlockBytes content := by
  induction content with
  | nil => rfl
  | cons block content ih =>
    rw [List.map_cons, List.sum_cons]
    cases block with
    | text s => rfl
    | toolUse id name inputJson =>
      rw [ih, firstText, hiddenBlockBytes, Nat.add_left_comm]
      all_goals exact fun _ h => nomatch h
    | toolResult toolUseId body isError =>
      rw [ih, firstText, hiddenBlockBytes, Nat.add_left_comm]
      all_goals exact fun _ h => nomatch h

/-- The rounded first texts hold the bytes of the texts and the slack. -/
theorem totalBytes_add_slack (messages : List Message) :
    totalBytes messages + slack messages = 4 * firstTokens messages + hiddenBytes messages := by
  induction messages with
  | nil => rfl
  | cons m messages ih =>
    have hround : m.flatText.length + (4 - m.flatText.length % 4) % 4 =
        4 * ((m.flatText.length + 3) / 4) := by omega
    have hbytes : (m.content.map blockBytes).sum =
        m.flatText.length + hiddenBlockBytes m.content := sum_blockBytes m.content
    simp only [totalBytes, slack, firstTokens, hiddenBytes, List.map_cons, List.sum_cons] at ih ⊢
    rw [hbytes]
    omega

/-- The saturations on the way do not show in the result. -/
theorem min_foldl_estimate (messages : List Message) (total : ℕ) :
    min (messages.foldl (fun total m => min (total + estimate m.flatText) 0xFFFFFFFFFFFFFFFF) total)
      0xFFFFFFFF = min (total + firstTokens messages) 0xFFFFFFFF := by
  induction messages generalizing total with
  | nil => rfl
  | cons m messages ih =>
    rw [List.foldl_cons, ih, estimate, firstTokens, firstTokens, List.map_cons, List.sum_cons]
    omega

/-- **The estimate** is the number of tokens of the first texts, cut to 32 bits. -/
theorem estimateMessages_eq (messages : List Message) :
    Window.estimateMessages messages = min (firstTokens messages) 0xFFFFFFFF := by
  rw [Window.estimateMessages, min_foldl_estimate, Nat.zero_add]

/-- The estimate is not too small. -/
theorem trueSize_le_iff (messages : List Message) :
    trueSize messages ≤ Window.estimateMessages messages ↔
      hiddenBytes messages ≤ slack messages ∨ 0xFFFFFFFF ≤ firstTokens messages := by
  have hbytes := totalBytes_add_slack messages
  rw [estimateMessages_eq, trueSize]
  omega

/-- What exceeds the budget overflows. -/
theorem Window.classify_of_lt {window : Window} {tokens : ℕ} (h : window.promptBudget < tokens) :
    window.classify tokens = .overflow := by
  rw [Window.classify]
  exact if_pos h

/-- **The estimate is a safe overestimate** exactly if the hidden bytes fit into the slack of the
first texts, or these alone fill the 32 bits. -/
theorem estimateMessages_overestimates_iff (messages : List Message) :
    (trueSize messages ≤ Window.estimateMessages messages ∧
        ∀ window : Window, window.promptBudget < trueSize messages →
          window.classify (Window.estimateMessages messages) = .overflow) ↔
      hiddenBytes messages ≤ slack messages ∨ 0xFFFFFFFF ≤ firstTokens messages := by
  rw [← trueSize_le_iff]
  refine ⟨And.left, fun hle => ⟨hle, fun window hbudget => ?_⟩⟩
  exact Window.classify_of_lt (Nat.lt_of_lt_of_le hbudget hle)

/-- The result of a tool is not counted, and a prompt of twice the budget passes as `ok`. -/
theorem estimateMessages_toolResult :
    ¬ (trueSize [⟨.user, [.toolResult [] (List.replicate 8 0x61) false]⟩] ≤
        Window.estimateMessages [⟨.user, [.toolResult [] (List.replicate 8 0x61) false]⟩]) ∧
      ¬ ∀ window : Window,
        window.promptBudget < trueSize [⟨.user, [.toolResult [] (List.replicate 8 0x61) false]⟩] →
          window.classify (Window.estimateMessages
            [⟨.user, [.toolResult [] (List.replicate 8 0x61) false]⟩]) = .overflow := by
  refine ⟨by decide, fun h => ?_⟩
  have hok := h { capacityTokens := 1, reserveOutputTokens := 0 } (by decide)
  exact absurd hok (by decide)

end Agent
end TigerClaw
