import Mathlib.Data.List.Basic

/-!
# Logs of lines

A log is a text; a record is appended to it as one line, the encoded record and a separator.
Reading splits the text at the separators, skips empty lines and gives up at the first line that
does not decode.

* `Codec`: an encoding of records as lines, with what the log needs to know of it: a line that is
  torn, or that a torn line runs into, does not decode.
* `load_write_append`: complete records in front are read, whatever follows.
* `load_torn_iff`: after an append that was cut short and any number of complete ones, the log
  still reads exactly when the cut fell before the line, after the separator, or between the two at
  the very end of the log.
-/

namespace LineLog

universe u v

/-- Records as lines. -/
structure Codec (β : Type u) (ρ : Type v) where
  sep : β
  encode : ρ → List β
  decode : List β → Option ρ
  sep_notMem : ∀ r, sep ∉ encode r
  encode_ne_nil : ∀ r, encode r ≠ []
  decode_encode : ∀ r, decode (encode r) = some r
  /-- A line that is cut short does not decode. -/
  torn : ∀ r p s, p ++ s = encode r → s ≠ [] → decode p = none
  /-- Nor does what is left of a line run into the next one. -/
  glued : ∀ r r' p s, p ++ s = encode r → p ≠ [] → decode (p ++ encode r') = none

variable {β : Type u} {ρ : Type v} [BEq β] [LawfulBEq β] (c : Codec β ρ)

/-- The records of a text; none if some line that is not empty does not decode. -/
def load (text : List β) : Option (List ρ) :=
  ((text.splitOn c.sep).filter fun line => !line.isEmpty).mapM c.decode

omit [BEq β] [LawfulBEq β] in
/-- The text of complete records. -/
def write (rs : List ρ) : List β := rs.flatMap fun r => c.encode r ++ [c.sep]

/-- A text without a separator is one line. -/
theorem load_line {text : List β} (h : c.sep ∉ text) (hne : text ≠ []) :
    load c text = (c.decode text).map fun r => [r] := by
  rw [load, List.splitOn_eq_singleton h, List.filter_cons_of_pos (by simpa using hne)]
  cases hd : c.decode text <;> simp [hd]

omit [LawfulBEq β] in
@[simp] theorem load_nil : load c [] = some [] := by
  simp [load]

/-- A line in front of a text is decoded by itself. -/
theorem load_line_append {line text : List β} (h : c.sep ∉ line) (hne : line ≠ []) :
    load c (line ++ c.sep :: text) =
      (c.decode line).bind fun r => (load c text).map fun rs => r :: rs := by
  rw [load, List.splitOn_append_cons_self_of_not_mem h,
    List.filter_cons_of_pos (by simpa using hne), List.mapM_cons, load]
  cases c.decode line with
  | none => rfl
  | some r =>
    cases List.mapM c.decode ((text.splitOn c.sep).filter fun line => !line.isEmpty) <;> rfl

/-- **Complete records in front are read, whatever follows.** -/
theorem load_write_append (rs : List ρ) (text : List β) :
    load c (write c rs ++ text) = (load c text).map fun rs' => rs ++ rs' := by
  induction rs with
  | nil => simp [write]
  | cons r rs ih =>
    have hcons : write c (r :: rs) ++ text = c.encode r ++ c.sep :: (write c rs ++ text) := by
      simp [write]
    rw [hcons, load_line_append c (c.sep_notMem r) (c.encode_ne_nil r), c.decode_encode, ih]
    cases load c text <;> rfl

theorem load_write (rs : List ρ) : load c (write c rs) = some rs := by
  simpa using load_write_append c rs []

/-- What is left of a line in front of complete records. -/
theorem load_torn_append {r : ρ} {p s : List β} (hps : p ++ s = c.encode r) (hp : p ≠ [])
    (after : List ρ) :
    load c (p ++ write c after) = if s = [] ∧ after = [] then some [r] else none := by
  have hsep : c.sep ∉ p := fun hmem => c.sep_notMem r (hps ▸ List.mem_append_left s hmem)
  cases after with
  | nil =>
    rw [write, List.flatMap_nil, List.append_nil, load_line c hsep hp]
    by_cases hs : s = []
    · rw [hs, List.append_nil] at hps
      rw [if_pos ⟨hs, rfl⟩, hps, c.decode_encode]
      rfl
    · rw [if_neg fun h => hs h.1, c.torn r p s hps hs]
      rfl
  | cons r' after =>
    have hcons : p ++ write c (r' :: after) =
        (p ++ c.encode r') ++ c.sep :: write c after := by
      simp [write]
    have hsep' : c.sep ∉ p ++ c.encode r' := fun hmem =>
      (List.mem_append.mp hmem).elim hsep (c.sep_notMem r')
    rw [if_neg (by simp), hcons, load_line_append c hsep' (by simp [hp]), c.glued r r' p s hps hp]
    rfl

/-- **When a log survives an append that was cut short.**  `k` is how much of the line and its
separator had been written; the record itself may be there or not. -/
theorem load_torn_iff (before after : List ρ) (r : ρ) (k : ℕ) :
    (∃ x, (x = [] ∨ x = [r]) ∧
        load c (write c before ++ (c.encode r ++ [c.sep]).take k ++ write c after) =
          some (before ++ x ++ after)) ↔
      k = 0 ∨ k = (c.encode r).length ∧ after = [] ∨ (c.encode r).length < k := by
  have hpos : 0 < (c.encode r).length := List.length_pos_iff.mpr (c.encode_ne_nil r)
  rw [List.append_assoc, load_write_append]
  rcases Nat.eq_zero_or_pos k with rfl | hk₀
  · -- nothing was written
    simp only [List.take_zero, List.nil_append, load_write, Option.map_some, true_or, iff_true]
    exact ⟨[], .inl rfl, by simp⟩
  rcases Nat.lt_or_ge (c.encode r).length k with hlt | hle
  · -- the whole line was written
    have htake : (c.encode r ++ [c.sep]).take k = write c [r] := by
      rw [List.take_of_length_le (by rw [List.length_append, List.length_singleton]; omega)]
      simp [write]
    rw [htake, load_write_append, load_write]
    exact ⟨fun _ => .inr (.inr hlt), fun _ => ⟨[r], .inr rfl, by simp⟩⟩
  · -- the line was torn, or stopped before its separator
    have htake : (c.encode r ++ [c.sep]).take k = (c.encode r).take k :=
      List.take_append_of_le_length hle
    have hne : (c.encode r).take k ≠ [] := by
      rw [Ne, List.take_eq_nil_iff, not_or]
      exact ⟨by omega, c.encode_ne_nil r⟩
    rw [htake, load_torn_append c (List.take_append_drop k _) hne]
    constructor
    · rintro ⟨x, -, hload⟩
      split at hload
      · rename_i hcond
        exact .inr (.inl ⟨Nat.le_antisymm hle (List.drop_eq_nil_iff.mp hcond.1), hcond.2⟩)
      · simp at hload
    · rintro (rfl | ⟨rfl, rfl⟩ | hlt)
      · omega
      · exact ⟨[r], .inr rfl, by simp⟩
      · omega

end LineLog
