import TigerClaw.Llm.AnthropicEvents

/-!
# The two pumps agree

`parseStreamInnerFull` and `pumpStream` have a loop each, with an event table each.  Without
cancellation they come to the same for the same bytes, wherever these are cut, and it is what a
literal of the bytes comes to.

* `eventsOf`: the events of a whole body.
* `received_reader`: without cancellation they are what comes in.
* `pumps_agree`: the same result, and the same calls of the sinks.
-/

namespace TigerClaw
namespace Llm
namespace Anthropic

/-- The events of a whole body. -/
def eventsOf (bytes : Bytes) : List Event := (Parser.pull.drain (({} : Parser).feed bytes)).1

variable {sinks : Sinks} {cancel : ℕ → Bool}

theorem received_literal (hquiet : ∀ n, cancel n = false) (bytes : Bytes) :
    received cancel (.literal bytes) =
      PullParser.whole false (Parser.pull.drain (({} : Parser).feed bytes)) := by
  rw [received, hquiet 0, if_neg Bool.false_ne_true]
  dsimp only
  rw [cut_quiet hquiet, if_neg Bool.false_ne_true]
  rfl

/-- **Without cancellation it does not matter where the bytes are cut.** -/
theorem received_reader (hquiet : ∀ n, cancel n = false) {chunks : List Bytes}
    (hchunks : ∀ chunk ∈ chunks, chunk ≠ []) :
    received cancel (.reader chunks false) = received cancel (.literal chunks.flatten) := by
  rw [received_literal hquiet, received, hquiet 0, if_neg Bool.false_ne_true]
  exact Parser.pull.receive_quiet hquiet hchunks rfl 1

/-- The token sink has been called with what is in the text. -/
theorem absorb_tokens {l : Locals} (htoken : sinks.token = true) (h : l.tokens.flatten = l.text)
    (ev : Event) :
    (Drain.absorb sinks l ev).1.tokens.flatten = (Drain.absorb sinks l ev).1.text := by
  have hassign : ∀ {α : Type} {l' : Locals} {r : Outcome Empty α} {put : α → Locals},
      l'.tokens.flatten = l'.text → (∀ a, (put a).tokens = l'.tokens ∧ (put a).text = l'.text) →
        (l'.assign r put).1.tokens.flatten = (l'.assign r put).1.text := by
    intro α l' r put hl' hput
    match r with
    | .trap t => exact hl'
    | .ok a =>
      show (put a).tokens.flatten = (put a).text
      rw [(hput a).1, (hput a).2, hl']
  unfold Drain.absorb
  split
  · refine hassign ?_ fun _ => ⟨rfl, rfl⟩
    rw [Locals.announce_eq]
    exact h
  split
  · match absorbDelta ev.data with
    | .trap t => exact h
    | .ok fragment =>
      refine hassign ?_ fun _ => ⟨rfl, rfl⟩
      rw [flatten_say l fragment htoken, h]
      rfl
  split
  · exact hassign h fun _ => ⟨rfl, rfl⟩
  split
  · exact hassign h fun _ => ⟨rfl, rfl⟩
  split
  · exact hassign h fun _ => ⟨rfl, rfl⟩
  · exact h

theorem handleAll_tokens {l : Locals} (htoken : sinks.token = true)
    (h : l.tokens.flatten = l.text) (events : List Event) :
    (handleAll (Drain.absorb sinks) l events).1.tokens.flatten =
      (handleAll (Drain.absorb sinks) l events).1.text := by
  induction events generalizing l with
  | nil => exact h
  | cons ev events ih =>
    have hev := absorb_tokens htoken h ev
    match hstep : Drain.absorb sinks l ev with
    | (l', some t) =>
      rw [hstep] at hev
      rw [handleAll_cons_some hstep]
      exact hev
    | (l', none) =>
      rw [hstep] at hev
      rw [handleAll_cons_none hstep]
      exact ih hev

/-- **The pumps agree.**  However the bytes are cut for the one and for the other, they return the
same, and call the sinks with the same; the tokens are the text that has been accumulated, which is
that of the deltas unless a check trips on the way. -/
theorem pumps_agree (sinks : Sinks) {cancel : ℕ → Bool} (hquiet : ∀ n, cancel n = false)
    {chunks chunks' : List Bytes} (hchunks : ∀ chunk ∈ chunks, chunk ≠ [])
    (hchunks' : ∀ chunk ∈ chunks', chunk ≠ []) (hbytes : chunks.flatten = chunks'.flatten) :
    pumpStream sinks cancel chunks false =
        parseStreamInnerFull sinks cancel (.reader chunks' false) ∧
      pumpStream sinks cancel chunks false =
        parseStreamInnerFull sinks cancel (.literal chunks.flatten) ∧
      (sinks.token = true →
        (pumpStream sinks cancel chunks false).tokens.flatten =
            (absorbAll sinks (eventsOf chunks.flatten)).1.text ∧
          (¬ (pumpStream sinks cancel chunks false).result.Traps →
            (pumpStream sinks cancel chunks false).tokens.flatten =
              deltas (eventsOf chunks.flatten))) := by
  have hpump : pumpStream sinks cancel chunks false =
      conclude sinks (received cancel (.literal chunks.flatten)) := by
    rw [pumpStream_eq, received_reader hquiet hchunks]
  have hevents : (received cancel (.literal chunks.flatten)).1 = eventsOf chunks.flatten := by
    rw [received_literal hquiet]
    rfl
  refine ⟨?_, ?_, fun htoken => ?_⟩
  · rw [hpump, parseStreamInnerFull_eq, received_reader hquiet hchunks', hbytes]
  · rw [hpump, parseStreamInnerFull_eq]
  have htokens : (pumpStream sinks cancel chunks false).tokens =
      (absorbAll sinks (eventsOf chunks.flatten)).1.tokens := by
    rw [hpump, ← hevents]
    rfl
  rw [htokens]
  refine ⟨handleAll_tokens htoken rfl _, fun hruns => ?_⟩
  rw [hpump, not_traps_conclude, hevents] at hruns
  exact (absorbAll_absorbed hruns).tokens htoken

/-- A `content_block_delta` with the text `hi`. -/
def hiDelta : Bytes :=
  ascii ("event: content_block_delta\ndata: " ++
    "\x7b\"delta\":\x7b\"type\":\"text_delta\",\"text\":\"hi\"\x7d\x7d\n\n")

/-- One of them reads the delta in two pieces, the other one in one. -/
theorem pumps_agree_hi :
    pumpStream ⟨true, true⟩ (fun _ => false) [hiDelta.take 30, hiDelta.drop 30] false =
      parseStreamInnerFull ⟨true, true⟩ (fun _ => false) (.reader [hiDelta] false) :=
  (pumps_agree ⟨true, true⟩ (fun _ => rfl) (by decide) (by decide) (by decide)).1

end Anthropic
end Llm
end TigerClaw
