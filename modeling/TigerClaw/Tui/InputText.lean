import TigerClaw.Tui.Input

/-!
# The input line edits a text

What the editor is for: a list of characters and an index in it, at which they come and go.

* `Editor`, `Command`: the list with its index, and what can be done to it.
* `Shows`: a state of the widget stands for the list.
* `keyCommand`, `Asks`: what an event asks for.
* `run_shows`: every run does what its events ask for, and touches nothing outside the buffer.
-/

namespace TigerClaw
namespace Tui

open Like (encode encode_cons encode_append)

/-- A list of characters, an index in it, and what a paste has brought so far. -/
structure Editor where
  chars : List Char
  index : ℕ
  collected : List Char
  index_le : index ≤ chars.length

namespace Editor

def empty : Editor := ⟨[], 0, [], Nat.zero_le _⟩

/-- In front of the index. -/
def before (e : Editor) : List Char := e.chars.take e.index

/-- Behind the index. -/
def after (e : Editor) : List Char := e.chars.drop e.index

theorem before_append_after (e : Editor) : e.before ++ e.after = e.chars :=
  List.take_append_drop _ _

/-- A list with the index between two parts of it. -/
def ofParts (before after collected : List Char) : Editor :=
  ⟨before ++ after, before.length, collected, by rw [List.length_append]; omega⟩

theorem ofParts_before_after (e : Editor) : ofParts e.before e.after e.collected = e := by
  obtain ⟨chars, index, collected, hle⟩ := e
  simp only [ofParts, before, after, List.take_append_drop, List.length_take_of_le hle]

@[simp] theorem before_ofParts (a b c : List Char) : (ofParts a b c).before = a :=
  List.take_left

end Editor

inductive Command where
  | insert (cs : List Char)
  | backspace
  | delete
  | left
  | right
  | home
  | toEnd
  | submit
  | beginPaste
  | collect (cs : List Char)
  | endPaste (cs : List Char)
  | keep

/-- What a command does to the list and the index. -/
def Editor.apply (e : Editor) : Command → Editor
  | .insert cs => ofParts (e.before ++ cs) e.after e.collected
  | .backspace => ofParts e.before.dropLast e.after e.collected
  | .delete => ofParts e.before e.after.tail e.collected
  | .left => { e with index := e.index - 1, index_le := (Nat.sub_le _ _).trans e.index_le }
  | .right => { e with index := min (e.index + 1) e.chars.length, index_le := Nat.min_le_right _ _ }
  | .home => { e with index := 0, index_le := Nat.zero_le _ }
  | .toEnd => { e with index := e.chars.length, index_le := Nat.le_refl _ }
  | .submit => ofParts [] [] e.collected
  | .beginPaste => { e with collected := [] }
  | .collect cs => { e with collected := e.collected ++ cs }
  | .endPaste cs => ofParts (e.before ++ cs) e.after []
  | .keep => e

/-- What a command passes on. -/
def Editor.submits (e : Editor) : Command → List (List Char)
  | .submit => [e.chars]
  | _ => []

/-- The commands one after another, and all that they pass on. -/
def Editor.run : Editor → List Command → Editor × List (List Char)
  | e, [] => (e, [])
  | e, c :: cs =>
    let r := run (e.apply c) cs
    (r.1, e.submits c ++ r.2)

namespace Input

variable {ε : Type}

/-- **A state stands for a list**: its buffer holds the characters, its cursor is in front of the
one at the index, and the paste buffer holds what has been collected. -/
structure Shows (input : Input) (e : Editor) : Prop where
  buf : input.buf = encode e.chars
  cursor : input.cursor = (encode e.before).length
  pasteBuffer : input.pasteBuffer = encode e.collected

/-! ## Operations on the buffer -/

theorem insertSlice_append (a b text : Bytes) :
    insertSlice (a ++ b) a.length text = (.ok (a ++ text ++ b) : Outcome ε Bytes) := by
  rw [insertSlice, if_pos (by rw [List.length_append]; omega), List.take_left, List.drop_left]

/-- Moved down and cut off, the bytes in the middle are gone. -/
theorem copyForwards_shrinkBy (a m b : Bytes) (f : Bytes → Outcome ε Input) :
    (copyForwards (a ++ (m ++ b)) a.length (a.length + m.length) >>= fun moved =>
      shrinkBy moved m.length >>= f) = f (a ++ b) := by
  have hsrc : (a ++ (m ++ b)).drop (a.length + m.length) = b := by
    rw [← List.drop_drop, List.drop_left, List.drop_left]
  have hlength : (a ++ (m ++ b)).length = a.length + m.length + b.length := by
    rw [List.length_append, List.length_append, Nat.add_assoc]
  have hrest : ((a ++ (m ++ b)).drop (a.length + b.length)).length = m.length := by
    rw [List.length_drop, hlength]
    omega
  rw [copyForwards, if_pos (by omega), List.take_left, hsrc, Outcome.ok_bind, hlength,
    Nat.add_sub_cancel_left, shrinkBy, List.length_append, List.length_append, hrest,
    if_pos (by omega), Nat.add_sub_cancel, ← List.length_append, List.take_left, Outcome.ok_bind]

theorem prevLoop_trail {pre bs rest : Bytes} {b : UInt8} (hlead : ¬ b &&& 0xC0 = 0x80)
    (htrail : ∀ x ∈ bs, x &&& 0xC0 = 0x80) {k : ℕ} (hk : k ≤ bs.length) :
    prevLoop (pre ++ (b :: bs ++ rest)) (pre.length + k) = (.ok pre.length : Outcome ε ℕ) := by
  induction k with
  | zero =>
    cases hpre : pre.length with
    | zero => rfl
    | succ n =>
      have hget : (pre ++ (b :: bs ++ rest))[n + 1]? = some b := by
        rw [← hpre, List.getElem?_append_right (le_refl _), Nat.sub_self]
        rfl
      rw [Nat.add_zero, prevLoop, hget]
      exact if_neg hlead
  | succ k ih =>
    have hget : (pre ++ (b :: bs ++ rest))[pre.length + k + 1]? = some bs[k] := by
      rw [Nat.add_assoc, List.getElem?_append_right (Nat.le_add_right _ _),
        Nat.add_sub_cancel_left, List.cons_append, List.getElem?_cons_succ,
        List.getElem?_append_left hk, List.getElem?_eq_getElem hk]
    rw [← Nat.add_assoc, prevLoop, hget]
    exact (if_pos (htrail _ (List.getElem_mem hk))).trans (ih (Nat.le_of_succ_le hk))

/-- The position in front of the character to the left. -/
theorem prevCodepointBoundary_append (a rest : Bytes) (c : Char) :
    prevCodepointBoundary (a ++ (String.utf8EncodeChar c ++ rest))
      (a.length + (String.utf8EncodeChar c).length) = (.ok a.length : Outcome ε ℕ) := by
  obtain ⟨b, bs, hbytes, hlead, -, htrail⟩ := Utf8Text.encodeChar_eq c
  rw [hbytes, List.length_cons, prevCodepointBoundary, if_neg (by omega)]
  exact prevLoop_trail hlead htrail (le_refl _)

/-- The position behind the character to the right. -/
theorem nextCodepointBoundary_append (a rest : Bytes) (c : Char) :
    nextCodepointBoundary (a ++ (String.utf8EncodeChar c ++ rest)) a.length =
      a.length + (String.utf8EncodeChar c).length := by
  obtain ⟨b, bs, hbytes, -, hsize, -⟩ := Utf8Text.encodeChar_eq c
  have hget : (a ++ (b :: bs ++ rest))[a.length]? = some b := by
    rw [List.getElem?_append_right (le_refl _), Nat.sub_self]
    rfl
  rw [hbytes, nextCodepointBoundary, hget]
  change min (a.length + Utf8Text.leadSize b) _ = _
  rw [hsize, List.length_append, List.length_append, List.length_cons]
  omega

/-! ## Keys -/

theorem Shows.buf_eq {self : Input} {e : Editor} (h : Shows self e) :
    self.buf = encode e.before ++ encode e.after := by
  rw [h.buf, ← encode_append, e.before_append_after]

/-- In front of an index that is not the first there is a character. -/
theorem before_cases (e : Editor) :
    e.before = [] ∨ ∃ cs c, e.before = cs ++ [c] := by
  rcases List.eq_nil_or_concat e.before with h | ⟨cs, c, h⟩
  · exact .inl h
  · exact .inr ⟨cs, c, by rw [h, List.concat_eq_append]⟩

theorem encode_concat (cs : List Char) (c : Char) :
    encode (cs ++ [c]) = encode cs ++ String.utf8EncodeChar c := by
  rw [encode_append, encode_cons]
  exact congrArg _ (List.append_nil _)

theorem length_encode_concat (cs : List Char) (c : Char) :
    (encode (cs ++ [c])).length = (encode cs).length + (String.utf8EncodeChar c).length := by
  rw [encode_concat, List.length_append]

/-- A character has bytes. -/
theorem encode_ne_nil (cs : List Char) (c : Char) : (encode (cs ++ [c])).length ≠ 0 := by
  have hpos := List.length_pos_of_ne_nil (@String.utf8EncodeChar_ne_nil c)
  rw [length_encode_concat]
  omega

/-- An operation on the buffer succeeds and does what the command asks for; no paste is counted. -/
def Obeys (self : Input) (e : Editor) (result : Outcome ε Input) (c : Command) : Prop :=
  ∃ self' : Input, result = .ok self' ∧ Shows self' (e.apply c) ∧
    self'.pasteCounter = self.pasteCounter

/-- A text that comes in at the cursor. -/
theorem insertText_shows {self : Input} {e : Editor} (h : Shows self e) (cs : List Char) :
    Obeys self e (self.insertText (encode cs) : Outcome ε Input) (.insert cs) := by
  refine ⟨{ self with
      buf := encode e.before ++ encode cs ++ encode e.after
      cursor := (encode e.before).length + (encode cs).length }, ?_, ⟨?_, ?_, h.pasteBuffer⟩, rfl⟩
  · rw [insertText, h.buf_eq, h.cursor, insertSlice_append]
    rfl
  · rw [Editor.apply, Editor.ofParts, encode_append, encode_append]
  · rw [Editor.apply, Editor.before_ofParts, encode_append, List.length_append]

theorem backspace_shows {self : Input} {e : Editor} (h : Shows self e) :
    Obeys self e (self.backspace : Outcome ε Input) .backspace := by
  rcases before_cases e with hnil | ⟨cs, c, hconcat⟩
  · -- nothing is left of the cursor
    have hzero : self.cursor = 0 := by rw [h.cursor, hnil]; rfl
    refine ⟨self, if_pos hzero, ?_, rfl⟩
    rw [Editor.apply, hnil, List.dropLast_nil, ← hnil, Editor.ofParts_before_after]
    exact h
  · have hbuf : self.buf = encode cs ++ (String.utf8EncodeChar c ++ encode e.after) := by
      rw [h.buf_eq, hconcat, encode_concat, List.append_assoc]
    have hcursor : self.cursor = (encode cs).length + (String.utf8EncodeChar c).length := by
      rw [h.cursor, hconcat, length_encode_concat]
    have hne : self.cursor ≠ 0 := by
      rw [h.cursor, hconcat]
      exact encode_ne_nil cs c
    refine ⟨{ self with buf := encode cs ++ encode e.after, cursor := (encode cs).length },
      ?_, ⟨?_, ?_, h.pasteBuffer⟩, rfl⟩
    · rw [backspace, if_neg hne, hbuf, hcursor, prevCodepointBoundary_append, Outcome.ok_bind,
        distance, if_pos (Nat.le_add_right _ _), Outcome.ok_bind, Nat.add_sub_cancel_left,
        copyForwards_shrinkBy]
      rfl
    · rw [Editor.apply, hconcat, List.dropLast_concat, Editor.ofParts, encode_append]
    · rw [Editor.apply, hconcat, List.dropLast_concat, Editor.before_ofParts]

theorem delete_shows {self : Input} {e : Editor} (h : Shows self e) :
    Obeys self e (self.delete : Outcome ε Input) .delete := by
  have hlength : self.buf.length = self.cursor + (encode e.after).length := by
    rw [h.buf_eq, h.cursor, List.length_append]
  cases hafter : e.after with
  | nil =>
    refine ⟨self, if_pos (by rw [hlength, hafter]; exact le_refl _), ?_, rfl⟩
    rw [Editor.apply, hafter, List.tail_nil, ← hafter, Editor.ofParts_before_after]
    exact h
  | cons c cs =>
    have hpos := List.length_pos_of_ne_nil (@String.utf8EncodeChar_ne_nil c)
    rw [hafter, encode_cons, List.length_append] at hlength
    have hbuf : self.buf = encode e.before ++ (String.utf8EncodeChar c ++ encode cs) := by
      rw [h.buf_eq, hafter, encode_cons]
    refine ⟨{ self with buf := encode e.before ++ encode cs }, ?_, ⟨?_, ?_, h.pasteBuffer⟩, rfl⟩
    · rw [delete, if_neg (by omega), h.cursor, hbuf]
      dsimp only
      rw [nextCodepointBoundary_append, distance, if_pos (Nat.le_add_right _ _), Outcome.ok_bind,
        Nat.add_sub_cancel_left, copyForwards_shrinkBy]
      rfl
    · rw [Editor.apply, hafter, List.tail_cons, Editor.ofParts, encode_append]
    · rw [Editor.apply, Editor.before_ofParts]
      exact h.cursor

theorem moveLeft_shows {self : Input} {e : Editor} (h : Shows self e) :
    Obeys self e (self.moveLeft : Outcome ε Input) .left := by
  have hleft : (e.apply .left).before = e.before.dropLast := by
    rw [Editor.apply, Editor.before, Editor.before, List.dropLast_eq_take,
      List.length_take_of_le e.index_le, List.take_take, Nat.min_eq_left (Nat.sub_le _ _)]
  have hprev : prevCodepointBoundary self.buf self.cursor =
      (.ok (encode e.before.dropLast).length : Outcome ε ℕ) := by
    rcases before_cases e with hnil | ⟨cs, c, hconcat⟩
    · rw [h.cursor, hnil]
      rfl
    · rw [h.buf_eq, h.cursor, hconcat, encode_concat, List.append_assoc, List.length_append,
        prevCodepointBoundary_append, List.dropLast_concat]
  refine ⟨{ self with cursor := (encode e.before.dropLast).length }, ?_, ⟨h.buf, ?_, h.pasteBuffer⟩,
    rfl⟩
  · rw [moveLeft, hprev]
    rfl
  · rw [hleft]

theorem moveRight_shows {self : Input} {e : Editor} (h : Shows self e) :
    Shows { self with cursor := nextCodepointBoundary self.buf self.cursor } (e.apply .right) := by
  refine ⟨h.buf, ?_, h.pasteBuffer⟩
  cases hafter : e.after with
  | nil =>
    -- the index is behind the last character
    have hindex : e.chars.length ≤ e.index := List.drop_eq_nil_iff.mp hafter
    have hright : (e.apply .right).before = e.before := by
      rw [Editor.apply, Editor.before, Editor.before, List.take_of_length_le,
        List.take_of_length_le hindex]
      dsimp only
      omega
    have hcursor : self.cursor = self.buf.length := by
      rw [h.cursor, h.buf_eq, hafter]
      exact congrArg List.length (List.append_nil _).symm
    rw [hright, nextCodepointBoundary, List.getElem?_eq_none (Nat.le_of_eq hcursor.symm)]
    exact hcursor.symm.trans h.cursor
  | cons c cs =>
    have hlt : e.index < e.chars.length := by
      have hlength := congrArg List.length hafter
      rw [Editor.after, List.length_drop, List.length_cons] at hlength
      omega
    have hget : e.chars[e.index] = c := by
      have hhead := congrArg List.head? hafter
      rw [Editor.after, List.head?_drop, List.getElem?_eq_getElem hlt] at hhead
      exact Option.some.inj hhead
    have hright : (e.apply .right).before = e.before ++ [c] := by
      rw [Editor.apply, Editor.before, Editor.before]
      dsimp only
      rw [Nat.min_eq_left hlt, List.take_succ_eq_append_getElem hlt, hget]
    rw [hright, h.buf_eq, h.cursor, hafter, encode_cons, nextCodepointBoundary_append,
      length_encode_concat]

/-- The command of a key. -/
def keyCommand (key : Key) : Command :=
  if key.isEnter then .submit
  else if key.matchesKey Key.backspace {} then .backspace
  else if key.matchesKey Key.delete {} then .delete
  else if key.matchesKey Key.left {} then .left
  else if key.matchesKey Key.right {} then .right
  else if key.matchesKey Key.home {} || key.matchesKey 0x61 { ctrl := true } then .home
  else if key.matchesKey Key.«end» {} || key.matchesKey 0x65 { ctrl := true } then .toEnd
  else if key.text.isSome && 0 < key.codepoint && key.codepoint.isValidChar then
    .insert [Char.ofNat key.codepoint]
  else .keep

/-- What the callback gets of the texts that are passed on. -/
def passed (cfg : Config) (texts : List (List Char)) : List Bytes :=
  if cfg.hasSubmit then texts.map encode else []

theorem passed_eq_nil (cfg : Config) {texts : List (List Char)} (h : texts = []) :
    passed cfg texts = [] := by
  rw [h, passed]
  split_ifs <;> rfl

theorem typeText_shows {self : Input} {e : Editor} (h : Shows self e) (key : Key) :
    Obeys self e (self.typeText key : Outcome ε Input)
      (if key.text.isSome && 0 < key.codepoint && key.codepoint.isValidChar then
        .insert [Char.ofNat key.codepoint]
      else .keep) := by
  rw [typeText, utf8Encode]
  by_cases hvalid : key.codepoint.isValidChar
  · have hmax : key.codepoint ≤ 0x10FFFF := by
      unfold Nat.isValidChar at hvalid
      omega
    simp only [hvalid, hmax, decide_true, Bool.and_true, if_true]
    split_ifs with htype hbytes
    · exact absurd (List.eq_nil_of_length_eq_zero hbytes) String.utf8EncodeChar_ne_nil
    · have hone : encode [Char.ofNat key.codepoint] =
          String.utf8EncodeChar (Char.ofNat key.codepoint) := List.append_nil _
      rw [← hone]
      exact insertText_shows h _
    · exact ⟨self, rfl, h, rfl⟩
  · simp only [hvalid, decide_false, Bool.and_false, if_false, Bool.false_eq_true]
    refine ⟨self, ?_, h, rfl⟩
    split_ifs <;> rfl

/-- And what it submits is passed on. -/
def Answers (cfg : Config) (self : Input) (e : Editor) (result : Outcome ε (Input × List Bytes))
    (c : Command) : Prop :=
  ∃ self' : Input, result = .ok (self', passed cfg (e.submits c)) ∧ Shows self' (e.apply c) ∧
    self'.pasteCounter = self.pasteCounter

/-- The code and the command are chosen by the same conditions. -/
theorem Answers.ite {cfg : Config} {self : Input} {e : Editor} {p : Prop} [Decidable p]
    {x y : Outcome ε (Input × List Bytes)} {c d : Command} (hthen : Answers cfg self e x c)
    (helse : Answers cfg self e y d) :
    Answers cfg self e (if p then x else y) (if p then c else d) := by
  split
  · exact hthen
  · exact helse

/-- An operation that submits nothing. -/
theorem Obeys.answers {self : Input} {e : Editor} {x : Outcome ε Input} {c : Command}
    (h : Obeys self e x c) (cfg : Config) (hc : e.submits c = []) :
    Answers cfg self e (x >>= fun self => pure (self, [])) c := by
  obtain ⟨self', rfl, hshows⟩ := h
  refine ⟨self', ?_, hshows⟩
  rw [passed_eq_nil cfg hc]
  rfl

/-- **A key does what it asks for**, and passes on what it submits. -/
theorem handleKey_shows {self : Input} {e : Editor} (h : Shows self e) (cfg : Config) (key : Key) :
    Answers cfg self e (handleKey cfg self key : Outcome ε (Input × List Bytes))
      (keyCommand key) := by
  have henter : Answers cfg self e (.ok ({ self with buf := [], cursor := 0 },
      if cfg.hasSubmit then [self.buf] else []) : Outcome ε (Input × List Bytes)) .submit := by
    refine ⟨{ self with buf := [], cursor := 0 }, ?_, ⟨rfl, rfl, h.pasteBuffer⟩, rfl⟩
    rw [h.buf]
    rfl
  have hright : Obeys self e (.ok { self with
      cursor := nextCodepointBoundary self.buf self.cursor } : Outcome ε Input) .right :=
    ⟨_, rfl, moveRight_shows h, rfl⟩
  have hhome : Obeys self e (.ok { self with cursor := 0 } : Outcome ε Input) .home :=
    ⟨_, rfl, ⟨h.buf, rfl, h.pasteBuffer⟩, rfl⟩
  have hend : Obeys self e (.ok { self with cursor := self.buf.length } : Outcome ε Input)
      .toEnd := by
    refine ⟨_, rfl, ⟨h.buf, ?_, h.pasteBuffer⟩, rfl⟩
    rw [h.buf, Editor.apply, Editor.before]
    dsimp only
    rw [List.take_length]
  unfold handleKey keyCommand
  refine henter.ite (((backspace_shows h).answers cfg rfl).ite
    (((delete_shows h).answers cfg rfl).ite (((moveLeft_shows h).answers cfg rfl).ite
      ((hright.answers cfg rfl).ite ((hhome.answers cfg rfl).ite
        ((hend.answers cfg rfl).ite ((typeText_shows h key).answers cfg ?_)))))))
  split_ifs <;> rfl

/-! ## Pastes -/

/-- What comes in for a pasted text: the text, or the note about the file that it went to. -/
def comesIn (cfg : Config) (disk : Disk) (pasteCounter : UInt32) (text : Bytes) : Bytes :=
  if text.length = 0 ∨ maxPaste < text.length then []
  else
    match cfg.pasteDir with
    | none => text
    | some dirPath =>
      if cfg.hasPasteIo &&
          (pasteLineThreshold ≤ text.count 0x0A || pasteByteThreshold ≤ text.length) then
        match stashPaste (ε := Empty) disk dirPath pasteCounter text (text.count 0x0A) with
        | .ok (_, some note) => note
        | _ => text
      else text

theorem valid_decimal (n : ℕ) : Utf8Text.Valid (Digits.decimal n) := by
  refine Utf8Text.valid_of_ascii fun b hb => ?_
  have hdigit := Digits.isDigit_of_mem_decimal hb
  rw [Digits.isDigit, Bool.and_eq_true, decide_eq_true_eq, decide_eq_true_eq] at hdigit
  exact UInt8.lt_of_le_of_lt hdigit.2 (by decide)

theorem valid_twoDigits (n : ℕ) : Utf8Text.Valid (twoDigits n) := by
  rw [twoDigits]
  split_ifs
  · have hzero : Utf8Text.Valid [0x30] := Utf8Text.valid_of_all (by decide)
    exact hzero.append (valid_decimal n)
  · exact valid_decimal n

theorem valid_pasteFilename (counter : UInt32) (nowSecs : ℤ) :
    Utf8Text.Valid (pasteFilename counter nowSecs) := by
  have hpaste : Utf8Text.Valid (ascii "paste_") := Utf8Text.valid_of_all (by decide)
  have hbar : Utf8Text.Valid (ascii "_") := Utf8Text.valid_of_all (by decide)
  have htxt : Utf8Text.Valid (ascii ".txt") := Utf8Text.valid_of_all (by decide)
  exact (((((hpaste.append (valid_decimal _)).append hbar).append (valid_twoDigits _)).append
    (valid_twoDigits _)).append (valid_twoDigits _)).append htxt

/-- The note is a text if the path is one. -/
theorem valid_placeholder (counter : UInt32) (lineCount : ℕ) {fullPath : Bytes}
    (h : Utf8Text.Valid fullPath) : Utf8Text.Valid (placeholder counter lineCount fullPath) := by
  have hopen : Utf8Text.Valid (ascii "[Pasted text #") := Utf8Text.valid_of_all (by decide)
  have hcolon : Utf8Text.Valid (ascii ": ") := Utf8Text.valid_of_all (by decide)
  have hlines : Utf8Text.Valid (ascii " lines ") := Utf8Text.valid_of_all (by decide)
  have harrow : Utf8Text.Valid arrow := ⟨['→'], by decide⟩
  have hblank : Utf8Text.Valid (ascii " ") := Utf8Text.valid_of_all (by decide)
  have hclose : Utf8Text.Valid (ascii "]") := Utf8Text.valid_of_all (by decide)
  exact (((((((hopen.append (valid_decimal _)).append hcolon).append (valid_decimal _)).append
    hlines).append harrow).append hblank).append h).append hclose

/-- **A paste that is stashed** takes the next number, if there is one. -/
theorem stashPaste_cases (disk : Disk) {dirPath : Bytes} (hdir : Utf8Text.Valid dirPath)
    (pasteCounter : UInt32) (text : Bytes) (newlines : ℕ) :
    (∃ counter note, stashPaste disk dirPath pasteCounter text newlines =
          (.ok (counter, note) : Outcome ε _) ∧
        counter.toNat = pasteCounter.toNat + 1 ∧ ∀ n ∈ note, Utf8Text.Valid n) ∨
      (stashPaste disk dirPath pasteCounter text newlines = (.trap .overflow : Outcome ε _) ∧
        2 ^ 32 ≤ pasteCounter.toNat + 1) := by
  by_cases hlt : pasteCounter.toNat + 1 < 2 ^ 32
  · have hadd : UInt32.checkedAdd pasteCounter 1 = (.ok (pasteCounter + 1) : Outcome ε UInt32) :=
      if_pos hlt
    have hcounter := UInt32.checkedAdd_eq_ok.mp hadd
    have hpath : Utf8Text.Valid
        (dirPath ++ ascii "/" ++ pasteFilename (pasteCounter + 1) disk.nowSecs) :=
      (hdir.append (Utf8Text.valid_of_all (by decide))).append (valid_pasteFilename _ _)
    left
    rw [stashPaste, hadd, Outcome.ok_bind]
    refine ⟨pasteCounter + 1, ?_⟩
    have hnone : ∀ n ∈ (none : Option Bytes), Utf8Text.Valid n := fun n hn => nomatch hn
    dsimp only
    generalize (if 0 < text.length ∧ text.getLast? ≠ some 0x0A then newlines + 1 else newlines) =
      lineCount
    split_ifs
    · exact ⟨none, rfl, hcounter, hnone⟩
    · exact ⟨none, rfl, hcounter, hnone⟩
    · exact ⟨none, rfl, hcounter, hnone⟩
    · exact ⟨none, rfl, hcounter, hnone⟩
    · exact ⟨none, rfl, hcounter, hnone⟩
    · refine ⟨some _, rfl, hcounter, fun n hn => ?_⟩
      rw [← Option.some.inj hn]
      exact valid_placeholder _ _ hpath
  · have hadd : UInt32.checkedAdd pasteCounter 1 = (.trap .overflow : Outcome ε UInt32) :=
      if_neg hlt
    right
    rw [stashPaste, hadd, Outcome.trap_bind]
    exact ⟨rfl, Nat.not_lt.mp hlt⟩

/-- **A paste** brings in what it should at the cursor, or there is no number left for it. -/
theorem handlePaste_shows {self : Input} {e : Editor} (h : Shows self e) {cfg : Config}
    (hdir : ∀ dirPath ∈ cfg.pasteDir, Utf8Text.Valid dirPath) (disk : Disk) {text : Bytes}
    (htext : Utf8Text.Valid text) :
    (∃ cs self', encode cs = comesIn cfg disk self.pasteCounter text ∧
        handlePaste cfg disk self text = (.ok self' : Outcome Empty Input) ∧
        Shows self' (e.apply (.insert cs)) ∧
        self'.pasteCounter.toNat ≤ self.pasteCounter.toNat + 1) ∨
      (handlePaste cfg disk self text = (.trap .overflow : Outcome Empty Input) ∧
        2 ^ 32 ≤ self.pasteCounter.toNat + 1) := by
  have hinsert : ∀ (counter : UInt32) {bytes : Bytes}, Utf8Text.Valid bytes →
      counter.toNat ≤ self.pasteCounter.toNat + 1 →
      ∃ cs self', encode cs = bytes ∧
        insertText { self with pasteCounter := counter } bytes =
          (.ok self' : Outcome Empty Input) ∧
        Shows self' (e.apply (.insert cs)) ∧
        self'.pasteCounter.toNat ≤ self.pasteCounter.toNat + 1 := by
    rintro counter bytes ⟨cs, rfl⟩ hle
    have hcounted : Shows { self with pasteCounter := counter } e :=
      ⟨h.buf, h.cursor, h.pasteBuffer⟩
    obtain ⟨self', hok, hshows, hcounter⟩ := insertText_shows (ε := Empty) hcounted cs
    exact ⟨cs, self', rfl, hok, hshows, by rw [hcounter]; exact hle⟩
  have hsame := hinsert self.pasteCounter htext (Nat.le_succ _)
  rw [handlePaste, comesIn]
  by_cases hnone : text.length = 0 ∨ maxPaste < text.length
  · -- nothing comes in
    refine .inl ⟨[], self, ?_, ?_, ?_, Nat.le_succ _⟩
    · rw [if_pos hnone]
      rfl
    · rcases hnone with hempty | hlong
      · rw [if_pos hempty]
      · rw [if_pos hlong, ite_self]
    · rw [Editor.apply, List.append_nil, Editor.ofParts_before_after]
      exact h
  · rw [if_neg hnone]
    rw [not_or] at hnone
    rw [if_neg hnone.1, if_neg hnone.2]
    cases hpasteDir : cfg.pasteDir with
    | none => exact .inl hsame
    | some dirPath =>
      dsimp only
      split_ifs with hstash
      · rcases stashPaste_cases (ε := Empty) disk (hdir dirPath hpasteDir) self.pasteCounter text
          (text.count 0x0A) with ⟨counter, note, hok, hcounter, hnote⟩ | ⟨htrap, hfull⟩
        · left
          rw [hok, Outcome.ok_bind]
          cases note with
          | none => exact hinsert counter htext (Nat.le_of_eq hcounter)
          | some n => exact hinsert counter (hnote n rfl) (Nat.le_of_eq hcounter)
        · right
          rw [htrap, Outcome.trap_bind]
          exact ⟨rfl, hfull⟩
      · exact .inl hsame

/-! ## Events -/

/-- The characters that a key adds to a bracketed paste. -/
def collectedKey (key : Key) : List Char :=
  if key.codepoint = 13 ∨ key.codepoint = 10 then ['\n']
  else if 0 < key.codepoint ∧ key.codepoint.isValidChar then [Char.ofNat key.codepoint]
  else []

theorem encode_collectedKey (key : Key) : encode (collectedKey key) = pastedKey key := by
  rw [collectedKey, pastedKey, utf8Encode]
  by_cases hbreak : key.codepoint = 13 ∨ key.codepoint = 10
  · rw [if_pos hbreak, if_pos hbreak]
    decide
  · rw [if_neg hbreak, if_neg hbreak]
    by_cases hvalid : key.codepoint.isValidChar
    · have hmax : key.codepoint ≤ 0x10FFFF := by
        unfold Nat.isValidChar at hvalid
        omega
      simp only [hvalid, hmax, and_true, if_true, Option.getD_some]
      split_ifs
      · exact List.append_nil _
      · rfl
    · simp only [hvalid, and_false, if_false, Option.getD_none, ite_self]
      rfl

/-- The text of a paste is one. -/
def Event.Clean : Event → Prop
  | .paste text _ => Utf8Text.Valid text
  | _ => True

/-- An event that brings in a paste. -/
def Event.pastes : Event → Bool
  | .pasteEnd _ => true
  | .paste _ _ => true
  | _ => false

/-- **What an event asks for**, in the state in which it comes. -/
def Asks (cfg : Config) (self : Input) : Event → Command → Prop
  | .pasteStart, c => c = .beginPaste
  | .pasteEnd disk, c => ∃ cs, c = .endPaste cs ∧
      encode cs = comesIn cfg disk self.pasteCounter self.pasteBuffer
  | .keyPress key, c =>
      c = if self.inBracketedPaste then .collect (collectedKey key) else keyCommand key
  | .paste text disk, c => ∃ cs, c = .insert cs ∧
      encode cs = comesIn cfg disk self.pasteCounter text
  | .other, c => c = .keep

/-- What the events ask for, one after another. -/
inductive Follows (cfg : Config) : Input → List Event → List Command → Prop
  | nil (self : Input) : Follows cfg self [] []
  | cons {self self' : Input} {event : Event} {submitted : List Bytes} {c : Command}
      {events : List Event} {cs : List Command} :
      Asks cfg self event c →
      eventHandler cfg self event = (.ok (self', submitted) : Outcome Empty _) →
      Follows cfg self' events cs → Follows cfg self (event :: events) (c :: cs)

/-- **An event does what it asks for**, or it is a paste for which there is no number left. -/
theorem eventHandler_shows {self : Input} {e : Editor} (h : Shows self e) {cfg : Config}
    (hdir : ∀ dirPath ∈ cfg.pasteDir, Utf8Text.Valid dirPath) {event : Event}
    (hclean : event.Clean) :
    (∃ c self', Asks cfg self event c ∧
        eventHandler cfg self event =
          (.ok (self', passed cfg (e.submits c)) : Outcome Empty _) ∧
        Shows self' (e.apply c) ∧
        self'.pasteCounter.toNat ≤ self.pasteCounter.toNat + event.pastes.toNat) ∨
      (eventHandler cfg self event = (.trap .overflow : Outcome Empty _) ∧
        2 ^ 32 ≤ self.pasteCounter.toNat + event.pastes.toNat) := by
  cases event with
  | pasteStart =>
    refine .inl ⟨.beginPaste, { self with inBracketedPaste := true, pasteBuffer := [] }, rfl, ?_,
      ⟨h.buf, h.cursor, rfl⟩, Nat.le_add_right _ _⟩
    rw [passed_eq_nil cfg (show e.submits .beginPaste = [] from rfl)]
    rfl
  | pasteEnd disk =>
    have hended : Shows { self with inBracketedPaste := false } e :=
      ⟨h.buf, h.cursor, h.pasteBuffer⟩
    rcases handlePaste_shows hended hdir disk (h.pasteBuffer ▸ Utf8Text.valid_encode e.collected)
      with ⟨cs, self', hcs, hok, hshows, hcounter⟩ | ⟨htrap, hfull⟩
    · refine .inl ⟨.endPaste cs, { self' with pasteBuffer := [] }, ⟨cs, rfl, hcs⟩, ?_,
        ⟨hshows.buf, hshows.cursor, rfl⟩, hcounter⟩
      rw [eventHandler, hok, passed_eq_nil cfg (show e.submits (.endPaste cs) = [] from rfl)]
      rfl
    · refine .inr ⟨?_, hfull⟩
      rw [eventHandler, htrap]
      rfl
  | keyPress key =>
    left
    cases hpaste : self.inBracketedPaste with
    | true =>
      refine ⟨.collect (collectedKey key),
        { self with pasteBuffer := self.pasteBuffer ++ pastedKey key }, ?_, ?_,
        ⟨h.buf, h.cursor, ?_⟩, Nat.le_add_right _ _⟩
      · exact (if_pos hpaste).symm
      · rw [eventHandler, if_pos hpaste,
          passed_eq_nil cfg (show e.submits (.collect (collectedKey key)) = [] from rfl)]
      · rw [Editor.apply, encode_append, ← h.pasteBuffer, encode_collectedKey]
    | false =>
      obtain ⟨self', hok, hshows, hcounter⟩ := handleKey_shows (ε := Empty) h cfg key
      have hnot : ¬ self.inBracketedPaste = true := Bool.eq_false_iff.mp hpaste
      refine ⟨keyCommand key, self', (if_neg hnot).symm, ?_, hshows, ?_⟩
      · rw [eventHandler, if_neg hnot]
        exact hok
      · rw [hcounter]
        exact Nat.le_add_right _ _
  | paste text disk =>
    rw [eventHandler]
    by_cases hlong : maxPaste < text.length
    · refine .inl ⟨.insert [], self, ⟨[], rfl, ?_⟩, ?_, ?_, Nat.le_add_right _ _⟩
      · rw [comesIn, if_pos (.inr hlong)]
        rfl
      · rw [if_pos hlong, passed_eq_nil cfg (show e.submits (.insert []) = [] from rfl)]
      · rw [Editor.apply, List.append_nil, Editor.ofParts_before_after]
        exact h
    · rw [if_neg hlong]
      rcases handlePaste_shows h hdir disk hclean with
        ⟨cs, self', hcs, hok, hshows, hcounter⟩ | ⟨htrap, hfull⟩
      · refine .inl ⟨.insert cs, self', ⟨cs, rfl, hcs⟩, ?_, hshows, hcounter⟩
        rw [hok, passed_eq_nil cfg (show e.submits (.insert cs) = [] from rfl)]
        rfl
      · refine .inr ⟨?_, hfull⟩
        rw [htrap]
        rfl
  | other =>
    refine .inl ⟨.keep, self, rfl, ?_, h, Nat.le_add_right _ _⟩
    rw [passed_eq_nil cfg (show e.submits .keep = [] from rfl)]
    rfl

/-- **A run from a state that stands for a list.** -/
theorem run_shows_from {self : Input} {e : Editor} (h : Shows self e) {cfg : Config}
    (hdir : ∀ dirPath ∈ cfg.pasteDir, Utf8Text.Valid dirPath) {events : List Event}
    (hclean : ∀ event ∈ events, event.Clean) :
    (∃ cs self', Follows cfg self events cs ∧
        run cfg self events =
          (.ok (self', passed cfg (e.run cs).2) : Outcome Empty (Input × List Bytes)) ∧
        Shows self' (e.run cs).1) ∨
      (run cfg self events = (.trap .overflow : Outcome Empty (Input × List Bytes)) ∧
        2 ^ 32 ≤ self.pasteCounter.toNat + events.countP Event.pastes) := by
  induction events generalizing self e with
  | nil =>
    refine .inl ⟨[], self, .nil self, ?_, h⟩
    rw [Editor.run, passed]
    split_ifs <;> rfl
  | cons event events ih =>
    obtain ⟨hevent, hevents⟩ := List.forall_mem_cons.mp hclean
    have hcount : (event :: events).countP Event.pastes =
        events.countP Event.pastes + event.pastes.toNat := by
      rw [List.countP_cons]
      cases event.pastes <;> rfl
    rcases eventHandler_shows h hdir hevent with
      ⟨c, self', hasks, hok, hshows, hcounter⟩ | ⟨htrap, hfull⟩
    · rcases ih hshows hevents with ⟨cs, last, hfollows, hrun, hlast⟩ | ⟨hrun, hfull⟩
      · refine .inl ⟨c :: cs, last, .cons hasks hok hfollows, ?_, hlast⟩
        rw [run, hok, Outcome.ok_bind]
        dsimp only
        rw [hrun, Outcome.ok_bind, Editor.run, passed, passed, passed]
        dsimp only
        split_ifs
        · rw [List.map_append]
          rfl
        · rfl
      · refine .inr ⟨?_, by omega⟩
        rw [run, hok, Outcome.ok_bind]
        dsimp only
        rw [hrun, Outcome.trap_bind]
    · refine .inr ⟨?_, by omega⟩
      rw [run, htrap, Outcome.trap_bind]

/-- Letters that are typed, and sent. -/
def typed : List Event :=
  [.keyPress { codepoint := 0xE9, text := some [0xC3, 0xA9] }, .keyPress { codepoint := 13 }]

/-- A letter and five line feeds. -/
def fiveLines : Bytes := [0x61, 0x0A, 0x0A, 0x0A, 0x0A, 0x0A]

end Input
end Tui
end TigerClaw
