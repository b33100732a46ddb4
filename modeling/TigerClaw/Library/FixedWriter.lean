import TigerClaw.Library.Checked

/-!
# Writing into a buffer of a fixed size

A writer that has room for so many cells.  What does not fit makes it fail.

* `writeAll`: the one operation.
* `Emits`: a program appends a text if there is room for all of it, and fails otherwise, however
  many pieces it writes.  `emits_bind`, `emits_foldlM`: so do programs one after the other.
* `emits_eq_ok_iff`: when such a program ends on an empty buffer, and with what.
-/

namespace FixedWriter

universe u v

variable {α : Type u} {β : Type v}

inductive WriteError where
  | writeFailed

/-- A program over what has been written so far. -/
abbrev Program (α : Type u) : Type u := List α → Outcome WriteError (List α)

def writeAll (cap : ℕ) (bytes : List α) : Program α := fun w =>
  if w.length + bytes.length ≤ cap then .ok (w ++ bytes) else .error .writeFailed

/-- The program writes the text, or fails where the text does not fit. -/
def Emits (cap : ℕ) (f : Program α) (text : List α) : Prop :=
  ∀ w, w.length ≤ cap → f w = writeAll cap text w

variable {cap : ℕ}

theorem emits_writeAll (bytes : List α) : Emits cap (writeAll cap bytes) bytes := fun _ _ => rfl

theorem emits_nil : Emits cap (fun w : List α => .ok w) [] := by
  intro w hw
  rw [writeAll, List.length_nil, Nat.add_zero, if_pos hw, List.append_nil]

/-- One program after the other. -/
theorem emits_bind {f g : Program α} {a b : List α} (hf : Emits cap f a) (hg : Emits cap g b) :
    Emits cap (fun w => f w >>= g) (a ++ b) := by
  intro w hw
  show f w >>= g = writeAll cap (a ++ b) w
  rw [hf w hw, writeAll, writeAll, List.length_append]
  by_cases ha : w.length + a.length ≤ cap
  · have hlen : (w ++ a).length ≤ cap := by
      rw [List.length_append]
      exact ha
    rw [if_pos ha, Outcome.ok_bind, hg _ hlen, writeAll, List.length_append, List.append_assoc,
      Nat.add_assoc]
  · rw [if_neg ha, Outcome.error_bind, if_neg (by omega)]

/-- A program for every entry of a list. -/
theorem emits_foldlM {step : List α → β → Outcome WriteError (List α)} {text : β → List α}
    (hstep : ∀ b, Emits cap (fun w => step w b) (text b)) (bs : List β) :
    Emits cap (fun w => bs.foldlM step w) (bs.flatMap text) := by
  induction bs with
  | nil => exact emits_nil
  | cons b bs ih => exact emits_bind (hstep b) ih

/-- **What such a program ends with.** -/
theorem emits_eq_ok_iff {f : Program α} {text body : List α} (hf : Emits cap f text) :
    f [] = .ok body ↔ text.length ≤ cap ∧ body = text := by
  rw [hf [] (Nat.zero_le _), writeAll, List.length_nil, Nat.zero_add]
  split_ifs with h
  · rw [Outcome.ok.injEq, and_iff_right h, List.nil_append, eq_comm]
  · exact iff_of_false (by simp) fun hboth => h hboth.1

end FixedWriter
