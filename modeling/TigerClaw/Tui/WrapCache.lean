import TigerClaw.Library.StepMachine
import TigerClaw.Tui.Line
import TigerClaw.Tui.Wrap
import Mathlib.Logic.Function.Basic

/-!
# The cache of the wrapped lines

`WrapCache.rowsFor` knows a text by its buffer and its length.  Between two draws the lines of the
history are appended to, cut, rewritten in place, and moved by the allocator.

* `Buffer`, `Mutation`: the text of a line, and what is done to it.
* `WrapCache.rowsFor`: the code.
* `Fresh`: a line that has kept its buffer and its length since it was drawn has kept its bytes.
* `coherent_of_fresh`: in a run of such draws the rows are those of the text as it is.
-/

namespace TigerClaw
namespace Tui
namespace History

/-- `std.ArrayList(u8)`: the address of the buffer, its size, and the text in it. -/
structure Buffer where
  ptr : ℕ
  capacity : ℕ
  items : Bytes

/-- `appendSlice`; `ptr` and `capacity` are what the allocator gives if the buffer is too small. -/
def Buffer.appendSlice (self : Buffer) (more : Bytes) (ptr capacity : ℕ) : Buffer :=
  if self.items.length + more.length ≤ self.capacity then
    { self with items := self.items ++ more }
  else { ptr, capacity, items := self.items ++ more }

/-- What is done to a text. -/
inductive Mutation where
  | append (more : Bytes) (ptr capacity : ℕ)
  | truncate (len : ℕ)
  /-- `clearRetainingCapacity` and `appendSlice`. -/
  | rewrite (text : Bytes) (ptr capacity : ℕ)
  | realloc (ptr capacity : ℕ)

def Mutation.apply : Mutation → Buffer → Buffer
  | .append more ptr capacity, line => line.appendSlice more ptr capacity
  | .truncate len, line => { line with items := line.items.take len }
  | .rewrite text ptr capacity, line => { line with items := [] }.appendSlice text ptr capacity
  | .realloc ptr capacity, line => { line with ptr, capacity }

/-- `WrapCache.Entry`; the address is undefined for the empty text. -/
structure Entry where
  textPtr : Option ℕ := none
  textLen : ℕ := 0
  width : ℕ := 0
  prefixCols : ℕ := 0
  valid : Bool := false
  rows : List Row := []

abbrev WrapCache : Type := List Entry

/-- The entry is taken for that of the line. -/
def Entry.Hit (entry : Entry) (line : Buffer) (width prefixCols : ℕ) : Prop :=
  entry.valid = true ∧
    (if line.items.length = 0 then entry.textLen = 0 else entry.textPtr = some line.ptr) ∧
    entry.textLen = line.items.length ∧ entry.width = width ∧ entry.prefixCols = prefixCols

instance (entry : Entry) (line : Buffer) (width prefixCols : ℕ) :
    Decidable (entry.Hit line width prefixCols) :=
  inferInstanceAs (Decidable (_ ∧ _ ∧ _ ∧ _ ∧ _))

namespace WrapCache

/-- Every entry is dropped. -/
def clear (self : WrapCache) : WrapCache :=
  self.map fun entry => { entry with rows := [], valid := false }

/-- The entries, with one for the index. -/
def grown (self : WrapCache) (idx : ℕ) : WrapCache :=
  self ++ List.replicate (idx + 1 - self.length) ({} : Entry)

variable (gwidth : Bytes → ℕ)

/-- The entry for a line that is wrapped anew. -/
def computed (line : Buffer) (width prefixCols : ℕ) : Entry where
  textPtr := if line.items.length = 0 then none else some line.ptr
  textLen := line.items.length
  width := width
  prefixCols := prefixCols
  valid := true
  rows := wrapLineInto gwidth line.items width prefixCols

/-- `rowsFor`: the rows, and the cache after it. -/
def rowsFor (self : WrapCache) (idx : ℕ) (line : Buffer) (width prefixCols : ℕ) :
    List Row × WrapCache :=
  let entries := self.grown idx
  let entry := (entries[idx]?).getD {}
  if entry.Hit line width prefixCols then (entry.rows, entries)
  else
    let entry := computed gwidth line width prefixCols
    (entry.rows, entries.set idx entry)

end WrapCache

/-! ## Runs -/

/-- The lines, the cache, and what each line was when it was last drawn, which is for statements
only. -/
structure World where
  lines : List Buffer := []
  cache : WrapCache := []
  drawn : ℕ → Option (Buffer × ℕ × ℕ) := fun _ => none

inductive Event where
  | push (line : Buffer)
  | remove (idx : ℕ)
  | mutate (idx : ℕ) (m : Mutation)
  | clear
  /-- A line is drawn. -/
  | draw (idx width prefixCols : ℕ)

variable (gwidth : Bytes → ℕ)

def World.step (w : World) : Event → World
  | .push line => { w with lines := w.lines ++ [line] }
  | .remove idx => { w with lines := w.lines.eraseIdx idx }
  | .mutate idx m => { w with lines := w.lines.modify idx m.apply }
  | .clear => { w with cache := w.cache.clear, drawn := fun _ => none }
  | .draw idx width prefixCols =>
    match w.lines[idx]? with
    | none => w
    | some line =>
      { w with
        cache := (w.cache.rowsFor gwidth idx line width prefixCols).2
        drawn := Function.update w.drawn idx (some (line, width, prefixCols)) }

/-- The rows that are drawn are those of the text. -/
def Coherent (w : World) : Event → Prop
  | .draw idx width prefixCols => ∀ line ∈ w.lines[idx]?,
      (w.cache.rowsFor gwidth idx line width prefixCols).1 =
        wrapLineInto gwidth line.items width prefixCols
  | _ => True

/-- A text of the same length, in the same buffer if there is anything in it. -/
def SameBuffer (old line : Buffer) : Prop :=
  old.items.length = line.items.length ∧ (line.items ≠ [] → old.ptr = line.ptr)

/-- A line that is drawn at the same columns as the last time, and is in the same buffer and of the
same length, is the same. -/
def Fresh (w : World) : Event → Prop
  | .draw idx width prefixCols => ∀ line ∈ w.lines[idx]?, ∀ old : Buffer,
      w.drawn idx = some (old, width, prefixCols) → SameBuffer old line → old.items = line.items
  | _ => True

/-- The valid entries are those of the lines as they were drawn. -/
def Told (w : World) : Prop :=
  ∀ idx entry, w.cache[idx]? = some entry → entry.valid = true → ∃ old : Buffer,
    w.drawn idx = some (old, entry.width, entry.prefixCols) ∧
      entry = WrapCache.computed gwidth old entry.width entry.prefixCols

theorem getElem?_grown {self : WrapCache} {idx i : ℕ} {entry : Entry}
    (h : (self.grown idx)[i]? = some entry) : self[i]? = some entry ∨ entry = {} := by
  rw [WrapCache.grown] at h
  rcases Nat.lt_or_ge i self.length with hlt | hle
  · rw [List.getElem?_append_left hlt] at h
    exact .inl h
  · rw [List.getElem?_append_right hle] at h
    exact .inr (List.eq_of_mem_replicate (List.mem_of_getElem? h))

theorem lt_length_grown (self : WrapCache) (idx : ℕ) : idx < (self.grown idx).length := by
  rw [WrapCache.grown, List.length_append, List.length_replicate]
  omega

theorem computed_congr {old line : Buffer} (hsame : SameBuffer old line)
    (hitems : old.items = line.items) (width prefixCols : ℕ) :
    WrapCache.computed gwidth old width prefixCols =
      WrapCache.computed gwidth line width prefixCols := by
  rw [WrapCache.computed, WrapCache.computed, hitems]
  by_cases hempty : line.items.length = 0
  · rw [if_pos hempty, if_pos hempty]
  · rw [hsame.2 fun h => hempty (by rw [h]; rfl)]

variable {gwidth}

/-- **A hit is an entry of the line as it is**, if the line is fresh. -/
theorem computed_of_hit {w : World} (htold : Told gwidth w) {idx width prefixCols : ℕ}
    {line : Buffer} (hline : w.lines[idx]? = some line)
    (hfresh : Fresh w (.draw idx width prefixCols)) {entry : Entry}
    (hentry : (w.cache.grown idx)[idx]? = some entry)
    (hhit : entry.Hit line width prefixCols) :
    entry = WrapCache.computed gwidth line width prefixCols := by
  obtain ⟨hvalid, hptr, hlen, rfl, rfl⟩ := hhit
  rcases getElem?_grown hentry with hold | rfl
  · obtain ⟨old, hdrawn, hcomputed⟩ := htold idx entry hold hvalid
    have hlength : old.items.length = line.items.length := by
      rw [← hlen, hcomputed]
      rfl
    have hsame : SameBuffer old line := by
      refine ⟨hlength, fun hne => ?_⟩
      have hpos : line.items.length ≠ 0 := (List.length_pos_of_ne_nil hne).ne'
      rw [if_neg hpos, hcomputed] at hptr
      rw [WrapCache.computed, if_neg (hlength ▸ hpos)] at hptr
      exact Option.some.inj hptr
    have hitems := hfresh line (Option.mem_def.mpr hline) old hdrawn hsame
    rw [← computed_congr gwidth hsame hitems]
    exact hcomputed
  · cases hvalid

theorem told_step {w : World} {e : Event} (htold : Told gwidth w) (hfresh : Fresh w e) :
    Told gwidth (w.step gwidth e) := by
  cases e with
  | push line => exact htold
  | remove idx => exact htold
  | mutate idx m => exact htold
  | clear =>
    intro idx entry hentry hvalid
    rw [World.step, WrapCache.clear, List.getElem?_map] at hentry
    obtain ⟨e, -, rfl⟩ := Option.map_eq_some_iff.mp hentry
    cases hvalid
  | draw idx width prefixCols =>
    rw [World.step]
    split
    · exact htold
    rename_i line hline
    obtain ⟨entry, hentry⟩ : ∃ entry, (w.cache.grown idx)[idx]? = some entry :=
      ⟨_, List.getElem?_eq_getElem (lt_length_grown w.cache idx)⟩
    have hcache : (w.cache.rowsFor gwidth idx line width prefixCols).2[idx]? =
        some (WrapCache.computed gwidth line width prefixCols) := by
      rw [WrapCache.rowsFor]
      dsimp only
      rw [hentry, Option.getD_some]
      split
      · rename_i hhit
        rw [hentry, computed_of_hit htold hline hfresh hentry hhit]
      · rw [List.getElem?_set_self (lt_length_grown w.cache idx)]
    have hothers : ∀ i ≠ idx, (w.cache.rowsFor gwidth idx line width prefixCols).2[i]? =
        (w.cache.grown idx)[i]? := by
      intro i hi
      rw [WrapCache.rowsFor]
      dsimp only
      split
      · rfl
      · rw [List.getElem?_set_ne hi.symm]
    intro i e he hvalid
    by_cases hi : i = idx
    · subst hi
      obtain rfl := Option.some.inj (hcache.symm.trans he)
      exact ⟨line, Function.update_self _ _ _, rfl⟩
    · rw [show _ = _ from hothers i hi] at he
      rcases getElem?_grown he with hold | rfl
      · obtain ⟨old, hdrawn, hcomputed⟩ := htold i e hold hvalid
        exact ⟨old, by rw [← hdrawn]; exact Function.update_of_ne hi _ _, hcomputed⟩
      · cases hvalid

theorem coherent_of_told {w : World} {e : Event} (htold : Told gwidth w) (hfresh : Fresh w e) :
    Coherent gwidth w e := by
  cases e with
  | push | remove | mutate | clear => trivial
  | draw idx width prefixCols =>
    intro line hline
    obtain ⟨entry, hentry⟩ : ∃ entry, (w.cache.grown idx)[idx]? = some entry :=
      ⟨_, List.getElem?_eq_getElem (lt_length_grown w.cache idx)⟩
    rw [WrapCache.rowsFor]
    dsimp only
    rw [hentry, Option.getD_some]
    split
    · rename_i hhit
      rw [computed_of_hit htold (Option.mem_def.mp hline) hfresh hentry hhit]
      rfl
    · rfl

/-- **In a run of fresh draws every draw has the rows of the text as it is.** -/
theorem coherent_of_fresh {lines : List Buffer} {events : List Event}
    (hfresh : StepMachine.Along (fun w e => some (World.step gwidth w e)) Fresh { lines } events) :
    StepMachine.Along (fun w e => some (World.step gwidth w e)) (Coherent gwidth) { lines }
      events :=
  StepMachine.along_imp (I := Told gwidth)
    (fun _ _ _ htold hfresh hstep => Option.some.inj hstep ▸ told_step htold hfresh)
    (fun _ _ htold hfresh => coherent_of_told htold hfresh)
    (fun _ _ h _ => by cases h) hfresh

/-- The widths of one wide character, and of narrow ones. -/
def oneWide (slice : Bytes) : ℕ := if slice = [0xE4, 0xB8, 0x96] then 2 else 1

/-- A tool row, with a last line of output. -/
def progressRow (tail : Bytes) : Line where
  role := .tool
  text := []
  toolName := some (ascii "sh")
  toolProgressTail := some tail

def progressText (tail : Bytes) : Bytes :=
  (renderToolLine { seconds := fun _ => [] } (progressRow tail)).text

/-- The output goes on with a line of another length. -/
theorem coherent_otherLength :
    StepMachine.Along (fun w e => some (World.step oneWide w e)) (Coherent oneWide)
      { lines := [⟨0, 64, progressText (ascii "abc")⟩] }
      [.draw 0 10 2, .mutate 0 (.rewrite (progressText (ascii "ab")) 0 64), .draw 0 10 2] := by
  refine coherent_of_fresh ⟨fun line _ old hold => (nomatch hold), fun w hw => ?_⟩
  obtain rfl := Option.some.inj hw
  refine ⟨trivial, fun w hw => ?_⟩
  obtain rfl := Option.some.inj hw
  refine ⟨fun line hline old hold hsame => ?_, fun _ _ => trivial⟩
  obtain rfl := Option.some.inj (Option.mem_def.mp hline)
  obtain ⟨rfl, -⟩ := Prod.mk.inj (Option.some.inj hold)
  exact absurd hsame.1 (by decide)

/-- **A tool row whose last line of output is replaced by one of the same length is drawn with the
rows of the old one.** -/
theorem not_coherent_sameLength :
    ¬ StepMachine.Along (fun w e => some (World.step oneWide w e)) (Coherent oneWide)
      { lines := [⟨0, 64, progressText [0xE4, 0xB8, 0x96]⟩] }
      [.draw 0 10 2, .mutate 0 (.rewrite (progressText (ascii "abc")) 0 64), .draw 0 10 2] := by
  intro h
  have hdraw := ((StepMachine.along_cons rfl).mp ((StepMachine.along_cons rfl).mp h).2).2.1 _ rfl
  exact absurd hdraw (by decide)

end History
end Tui
end TigerClaw
