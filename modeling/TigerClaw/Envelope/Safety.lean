import TigerClaw.Envelope.Grammar

/-!
# What the decoder does with bytes nobody vouches for

`decode` is the first thing to look at bytes from another process.  It is meant to answer with an
envelope, with `BadInput`, or with `Internal` when memory is short.

* `decode_error`: those are the only errors it returns, and `Internal` only where the allocator
  refused a request for no more than the length of the bytes.
* `decode_safe_iff`: what is left is the decoder tripping over its own arithmetic.  It answers as
  it should exactly on the byte strings that never run into an out-of-range field.
* `decode_not_safe`: ten bytes of ones are enough.  The comparison `shift >= 64` that should
  reject them comes behind the addition that overflows.
-/

namespace TigerClaw
namespace Envelope

open WireFormat

/-- Everything that fits the address space is granted. -/
def Allocator.ample : Allocator where
  grow := fun n => decide (n < 2 ^ 64)
  own := fun _ => true
  grow_lt := fun _ h => of_decide_eq_true h

theorem Allocator.ample_serves {n : ℕ} (h : n < 2 ^ 64) : Allocator.ample.Serves n :=
  fun _ hm => ⟨decide_eq_true (Nat.lt_of_le_of_lt hm h), rfl⟩

/-- An error that a decoder of `n` bytes is meant to return. -/
def Intended (a : Allocator) (n : ℕ) (e : PlugError) : Prop :=
  e = .badInput ∨ e = .internal ∧ ¬ a.Serves n

theorem decodeField_error {a : Allocator} {n : ℕ} {st : DecodeState} {r : Reader} {e : PlugError}
    (hcount : Counted n st r) (h : decodeField a st r = .error e) : Intended a n e := by
  rw [decodeField_eq, Outcome.bind_eq_error] at h
  rcases h with h | ⟨⟨f, r'⟩, hread, h⟩
  · cases hread : readField envelopeSchema.kind nestedAttachment.read r with
    | ok p => simp [hread] at h
    | error d =>
      rw [hread, Outcome.catchAs_error] at h
      exact .inl (Outcome.error.inj h).symm
    | trap t => simp [hread] at h
  · rw [assign] at h
    split at h
    · -- a field was read, so there was a byte for the attachment the list has no room for
      rename_i hrefused
      obtain ⟨fb, hfb, hraw⟩ := raw_of_readField nestedAttachment (Outcome.catchAs_eq_ok.mp hread)
      refine .inr ⟨(Outcome.error.inj h).symm, fun hserve => hrefused.2 ?_⟩
      exact (hserve _ (hcount.length_lt (hfb.rest_ne_nil hraw.length_pos))).1
    · cases h

theorem finish_error {a : Allocator} {n : ℕ} {st : DecodeState} {e : PlugError}
    (hle : st.attachmentsList.length ≤ n) (h : finish a st = .error e) : Intended a n e := by
  unfold finish at h
  split at h; · exact .inl (Outcome.error.inj h).symm
  split at h; · exact .inl (Outcome.error.inj h).symm
  split at h; · exact .inl (Outcome.error.inj h).symm
  split at h
  · cases h
  · rename_i hrefused
    exact .inr ⟨(Outcome.error.inj h).symm, fun hserve => hrefused (hserve _ hle).2⟩

/-- **The decoder returns no other error.** -/
theorem decode_error {a : Allocator} {b : Slice} {e : PlugError} (h : decode a b = .error e) :
    Intended a b.1.length e := by
  rcases Outcome.bind_eq_error.mp h with h | ⟨st, hst, h⟩
  · exact whileMore_error (fun _ _ _ _ => counted_decodeField) (fun _ _ _ => decodeField_error)
      (counted_start b.1) h
  · obtain ⟨r, hlen, hle⟩ :=
      whileMore_invariant (fun _ _ _ _ => counted_decodeField) (counted_start b.1) hst
    simp only [Reader.len] at hlen
    exact finish_error (by omega) h

/-- The decoder answers with an envelope or with an error it is meant to return. -/
def Answers (a : Allocator) (b : Slice) : Prop :=
  (∃ env, decode a b = .ok env) ∨ ∃ e, decode a b = .error e ∧ Intended a b.1.length e

theorem answers_iff {a : Allocator} {b : Slice} : Answers a b ↔ ¬ (decode a b).Traps := by
  rw [Answers]
  cases h : decode a b with
  | ok env => simp
  | error e => simpa using decode_error h
  | trap t => simp

/-- **The decoder is safe exactly on byte strings without out-of-range fields.** -/
theorem decode_safe_iff (b : Slice) :
    (∀ a : Allocator, Answers a b) ↔ ¬ Hazardous envelopeSchema b.1 := by
  constructor
  · intro h hz
    exact answers_iff.mp (h .ample) (decode_traps_of_hazardous (Allocator.ample_serves b.2) hz)
  · intro hz a
    exact answers_iff.mpr fun ht => hz (hazardous_of_decode ht)

/-- Ten bytes that each ask for another one. -/
def tenOnes : Slice := ⟨List.replicate 10 0xff, by decide⟩

theorem decode_not_safe : ¬ ∀ (b : Slice) (a : Allocator), Answers a b :=
  fun h => answers_iff.mp (h tenOnes .ample) ⟨.overflow, rfl⟩

-- a field number of 33 bits, and a version of 33 bits
example : decode .ample ⟨[0x80, 0x80, 0x80, 0x80, 0x80, 0x01], by decide⟩ = .trap .intCast := rfl

example : decode .ample ⟨[0x08, 0x80, 0x80, 0x80, 0x80, 0x10], by decide⟩ = .trap .intCast := rfl

end Envelope
end TigerClaw
