import TigerClaw.Llm.Sse
import Mathlib.Data.List.TakeWhile

/-!
# The lines of an event

An event is a few lines and a blank one.  Its `data` lines are joined as they come: a line feed goes
in front of a value if there is anything before it.

* `content`, `data?`: a line without its end, and its value if it is a `data` line.
* `Frame`: the lines of an event.  `Frame.joined`: its values, joined by line feeds.
* `nextEvent_frame`, `drain_frames`: the parser in front of a frame, and of a stream of them.
* `dataOf_eq_joined_iff`: the data are the joined values unless the first of several is empty.
-/

namespace TigerClaw
namespace Llm

/-! ## Lines -/

/-- What is in front of a line feed, without a carriage return at its end. -/
def content (raw : Bytes) : Bytes := if raw.getLast? = some 0x0D then raw.dropLast else raw

/-- A value without the blank in front. -/
def unpadded (value : Bytes) : Bytes := if value.head? = some 0x20 then value.tail else value

/-- The name of a field, and its value. -/
def fieldOf (line : Bytes) : Bytes × Bytes :=
  (line.takeWhile (· != 0x3A), unpadded (line.dropWhile (· != 0x3A)).tail)

/-- The value of a `data` line. -/
def data? (line : Bytes) : Option Bytes :=
  if (fieldOf line).1 = ascii "data" then some (fieldOf line).2 else none

/-- What a value adds to the data. -/
def addValue (data value : Bytes) : Bytes :=
  (if data.length > 0 then data ++ [0x0A] else data) ++ value

/-! ## Frames -/

/-- The lines of an event, each without its line feed, and the blank line behind them.  A longer
line is an error, whatever it says. -/
structure Frame where
  lines : List Bytes
  blank : Bytes
  lf_notMem : ∀ raw ∈ lines, 0x0A ∉ raw
  ne_nil : ∀ raw ∈ lines, content raw ≠ []
  length_le : ∀ raw ∈ lines, (content raw).length ≤ 4096
  blank_lf_notMem : 0x0A ∉ blank
  blank_eq_nil : content blank = []

namespace Frame

/-- The values of the `data` lines. -/
def values (f : Frame) : List Bytes := f.lines.filterMap fun raw => data? (content raw)

def joined (f : Frame) : Bytes := [0x0A].intercalate f.values

def bytes (f : Frame) : Bytes := f.lines.flatMap (fun raw => raw ++ [0x0A]) ++ (f.blank ++ [0x0A])

end Frame

namespace Parser

theorem idxOf?_append_cons {front : Bytes} (h : 0x0A ∉ front) (rest : Bytes) :
    (front ++ 0x0A :: rest).idxOf? 0x0A = some front.length := by
  have hnone : front.idxOf? 0x0A = none := List.idxOf?_eq_none_iff.mpr h
  rw [List.idxOf?, List.findIdx?_append, ← List.idxOf?, hnone]
  simp [List.idxOf?_cons]

/-- **What is taken off the buffer is the content of its first line.** -/
theorem consumeLine_append {raw : Bytes} (h : 0x0A ∉ raw) (rest : Bytes) (current : EventBuilder) :
    consumeLine { buf := raw ++ 0x0A :: rest, current } =
      if (content raw).length = 0 then .ok (none, { buf := rest, current })
      else if 4096 < (content raw).length then .error .lineTooLong
      else .ok (some (content raw), { buf := rest, current }) := by
  have hrest : (raw ++ 0x0A :: rest).drop (raw.length + 1) = rest := by
    rw [List.append_cons, List.drop_left' (by simp)]
  have hlast : (0 < raw.length ∧ (raw ++ 0x0A :: rest)[raw.length - 1]? = some 0x0D) ↔
      raw.getLast? = some 0x0D := by
    rw [List.getLast?_eq_getElem?]
    cases raw with
    | nil => simp
    | cons b raw => rw [List.getElem?_append_left (by simp)]; simp
  have hline : (raw ++ 0x0A :: rest).take
      (if 0 < raw.length ∧ (raw ++ 0x0A :: rest)[raw.length - 1]? = some 0x0D then raw.length - 1
        else raw.length) = content raw := by
    rw [if_congr hlast rfl rfl, content]
    split
    · rw [List.take_append_of_le_length (Nat.sub_le _ _), List.dropLast_eq_take]
    · rw [List.take_left]
  rw [consumeLine]
  simp only [idxOf?_append_cons h, hline, hrest]

theorem fieldOf_of_none {line : Bytes} (h : line.idxOf? 0x3A = none) :
    fieldOf line = (line, []) := by
  have hall : ∀ b ∈ line, (b != 0x3A) = true := fun b hb =>
    bne_iff_ne.mpr fun heq => List.idxOf?_eq_none_iff.mp h (heq ▸ hb)
  rw [fieldOf, List.takeWhile_eq_self_iff.mpr hall, List.dropWhile_eq_nil_iff.mpr hall]
  rfl

theorem fieldOf_of_some {line : Bytes} {c : ℕ} (h : line.idxOf? 0x3A = some c) :
    fieldOf line = (line.take c, unpadded (line.drop (c + 1))) := by
  induction line generalizing c with
  | nil => cases h
  | cons b line ih =>
    rw [List.idxOf?_cons] at h
    by_cases hb : b = 0x3A
    · obtain rfl : 0 = c := by simpa [hb] using h
      simp [fieldOf, hb]
    · obtain ⟨c, hc, rfl⟩ : ∃ c', line.idxOf? 0x3A = some c' ∧ c' + 1 = c := by simpa [hb] using h
      have hfield := ih hc
      simp only [fieldOf, Prod.mk.injEq] at hfield
      simp [fieldOf, hb, hfield.1, hfield.2]

theorem handleLine_eq (self : Parser) (line : Bytes) :
    self.handleLine line =
      if line.length = 0 ∨ line.head? = some 0x3A then self
      else if (fieldOf line).1 = ascii "event" then
        { self with current := { self.current with name := (fieldOf line).2 } }
      else if (fieldOf line).1 = ascii "data" then
        { self with current := { self.current with
          data := addValue self.current.data (fieldOf line).2 } }
      else if (fieldOf line).1 = ascii "id" then
        { self with current := { self.current with id := (fieldOf line).2 } }
      else if (fieldOf line).1 = ascii "retry" then
        match parseU32 (fieldOf line).2 with
        | some m => { self with current := { self.current with retryMs := some m } }
        | none => self
      else self := by
  cases hcolon : line.idxOf? 0x3A with
  | none =>
    simp only [handleLine, hcolon, fieldOf_of_none hcolon]
    rfl
  | some c =>
    simp only [handleLine, hcolon, fieldOf_of_some hcolon]
    rfl

/-- **A line adds its value to the data if it is a `data` line.** -/
theorem data_handleLine (self : Parser) (line : Bytes) :
    (self.handleLine line).current.data =
      match data? line with
      | some value => addValue self.current.data value
      | none => self.current.data := by
  rw [handleLine_eq, data?]
  by_cases hskip : line.length = 0 ∨ line.head? = some 0x3A
  · have hname : (fieldOf line).1 = [] := by
      show line.takeWhile (· != 0x3A) = []
      cases line with
      | nil => rfl
      | cons b line => simp_all
    have hdata : ([] : Bytes) ≠ ascii "data" := by decide
    rw [if_pos hskip, hname, if_neg hdata]
  rw [if_neg hskip]
  by_cases hdata : (fieldOf line).1 = ascii "data"
  · have hevent : ¬ (fieldOf line).1 = ascii "event" := by
      rw [hdata]
      decide
    rw [if_neg hevent, if_pos hdata, if_pos hdata]
  · rw [if_neg hdata, if_neg hdata]
    split_ifs <;> first | rfl | (split <;> rfl)

/-! ## A frame in the buffer -/

theorem handleLine_current (buf : Bytes) (current : EventBuilder) (line : Bytes) :
    handleLine { buf, current } line =
      { buf, current := (handleLine { current } line).current } := by
  have hfeed := handleLine_feed { current } line buf
  simp only [feed, List.nil_append] at hfeed
  rw [hfeed]
  simp

/-- The builder after some lines. -/
def collect (current : EventBuilder) (lines : List Bytes) : EventBuilder :=
  lines.foldl (fun current raw => (handleLine { current } (content raw)).current) current

/-- **The lines of an event are taken off one after another.** -/
theorem nextEvent_lines {lines : List Bytes} (hlf : ∀ raw ∈ lines, 0x0A ∉ raw)
    (hne : ∀ raw ∈ lines, content raw ≠ []) (hlength : ∀ raw ∈ lines, (content raw).length ≤ 4096)
    (current : EventBuilder) (rest : Bytes) :
    nextEvent { buf := lines.flatMap (fun raw => raw ++ [0x0A]) ++ rest, current } =
      nextEvent { buf := rest, current := collect current lines } := by
  induction lines generalizing current with
  | nil => rfl
  | cons raw lines ih =>
    have hbuf : (raw :: lines).flatMap (fun raw => raw ++ [0x0A]) ++ rest =
        raw ++ 0x0A :: (lines.flatMap (fun raw => raw ++ [0x0A]) ++ rest) := by
      simp
    have hline := consumeLine_append (hlf raw List.mem_cons_self)
      (lines.flatMap (fun raw => raw ++ [0x0A]) ++ rest) current
    rw [if_neg fun h => hne raw List.mem_cons_self (List.eq_nil_of_length_eq_zero h),
      if_neg (Nat.not_lt.mpr (hlength raw List.mem_cons_self))] at hline
    have hround :
        round { buf := (raw :: lines).flatMap (fun raw => raw ++ [0x0A]) ++ rest, current } =
          .again { buf := lines.flatMap (fun raw => raw ++ [0x0A]) ++ rest,
                   current := (handleLine { current } (content raw)).current } := by
      rw [hbuf, round, hline]
      dsimp only
      rw [handleLine_current]
    rw [nextEvent_again hround]
    exact ih (fun raw h => hlf raw (List.mem_cons_of_mem _ h))
      (fun raw h => hne raw (List.mem_cons_of_mem _ h))
      (fun raw h => hlength raw (List.mem_cons_of_mem _ h)) _

theorem data_collect (current : EventBuilder) (lines : List Bytes) :
    (collect current lines).data =
      (lines.filterMap fun raw => data? (content raw)).foldl addValue current.data := by
  induction lines generalizing current with
  | nil => rfl
  | cons raw lines ih =>
    have hstep : collect current (raw :: lines) =
        collect (handleLine { current } (content raw)).current lines := rfl
    rw [hstep, ih, data_handleLine, List.filterMap_cons]
    cases data? (content raw) <;> rfl

end Parser

namespace Frame

/-- What the lines say of the event. -/
def builder (f : Frame) : EventBuilder := Parser.collect {} f.lines

/-- The event that the lines announce, if they say anything of it. -/
def event? (f : Frame) : Option Event :=
  let p : Parser := { current := f.builder }
  if p.hasContent then some p.flushEvent.1 else none

/-- **The parser in front of a frame**: it answers with the event, or goes on behind it. -/
theorem nextEvent_frame (f : Frame) (rest : Bytes) :
    Parser.nextEvent { buf := f.bytes ++ rest } =
      match f.event? with
      | some event => (.ok (some event), { buf := rest })
      | none => Parser.nextEvent { buf := rest } := by
  have hbuf : f.bytes ++ rest =
      f.lines.flatMap (fun raw => raw ++ [0x0A]) ++ (f.blank ++ 0x0A :: rest) := by
    simp [bytes]
  have hblank := Parser.consumeLine_append f.blank_lf_notMem rest f.builder
  rw [if_pos (by rw [f.blank_eq_nil]; rfl)] at hblank
  rw [hbuf, Parser.nextEvent_lines f.lf_notMem f.ne_nil f.length_le, ← builder, event?]
  have hcontent : Parser.hasContent { buf := rest, current := f.builder } =
      Parser.hasContent { current := f.builder } := rfl
  by_cases h : Parser.hasContent { current := f.builder } = true
  · rw [if_pos h]
    refine Parser.nextEvent_leave ?_
    rw [Parser.round, hblank]
    dsimp only
    rw [hcontent, h]
    rfl
  · rw [if_neg h]
    have hempty : f.builder = {} := by
      simp only [Parser.hasContent, Bool.or_eq_true, decide_eq_true_eq, not_or] at h
      obtain ⟨⟨⟨hname, hdata⟩, hid⟩, hretry⟩ := h
      have hzero : ∀ {s : Bytes}, ¬ s.length > 0 → s = [] := fun hs =>
        List.eq_nil_of_length_eq_zero (by omega)
      calc f.builder = ⟨f.builder.name, f.builder.data, f.builder.id, f.builder.retryMs⟩ := rfl
        _ = {} := by
          rw [hzero hname, hzero hdata, hzero hid, Option.not_isSome_iff_eq_none.mp hretry]
    refine Parser.nextEvent_again ?_
    rw [Parser.round, hblank]
    dsimp only
    rw [hcontent, Bool.eq_false_iff.mpr h, hempty]
    rfl

theorem data_builder (f : Frame) : f.builder.data = f.values.foldl addValue [] :=
  Parser.data_collect {} f.lines

end Frame

/-- **A stream of frames yields their events.** -/
theorem drain_frames (frames : List Frame) :
    Parser.pull.drain { buf := frames.flatMap Frame.bytes } =
      (frames.filterMap Frame.event?, none) := by
  induction frames with
  | nil => exact Parser.pull.drain_none (show Parser.nextEvent {} = (.ok none, {}) from rfl)
  | cons f frames ih =>
    have hnext := f.nextEvent_frame (frames.flatMap Frame.bytes)
    rw [List.flatMap_cons, List.filterMap_cons]
    cases hevent : f.event? with
    | none =>
      rw [hevent] at hnext
      rw [Parser.pull.drain_congr hnext, ih]
    | some event =>
      rw [hevent] at hnext
      rw [Parser.pull.drain_item hnext, ih]
      rfl

/-! ## The data -/

theorem foldl_addValue_of_ne_nil {data : Bytes} (h : data ≠ []) (values : List Bytes) :
    values.foldl addValue data = [0x0A].intercalate (data :: values) := by
  induction values generalizing data with
  | nil => rw [List.foldl_nil, List.intercalate_singleton]
  | cons value values ih =>
    have hadd : addValue data value = data ++ 0x0A :: value := by
      rw [addValue, if_pos (List.length_pos_of_ne_nil h), List.append_assoc]
      rfl
    rw [List.foldl_cons, hadd, ih (by simp), List.intercalate_cons_cons]
    cases values with
    | nil => simp [List.intercalate_singleton]
    | cons v vs => simp [List.intercalate_cons_cons]

/-- Leading values that are empty are lost. -/
theorem length_foldl_addValue_le (values : List Bytes) :
    (values.foldl addValue []).length ≤ ([0x0A].intercalate values).length := by
  induction values with
  | nil => exact le_refl 0
  | cons value values ih =>
    have hadd : addValue [] value = value := rfl
    rw [List.foldl_cons, hadd]
    by_cases hvalue : value = []
    · rw [hvalue]
      cases values with
      | nil => exact le_refl 0
      | cons v vs =>
        rw [List.intercalate_cons_cons, List.nil_append, List.length_append]
        omega
    · rw [foldl_addValue_of_ne_nil hvalue]

/-- **The values are joined as they come exactly if the first of several is not empty.** -/
theorem foldl_addValue_eq_intercalate_iff (values : List Bytes) :
    values.foldl addValue [] = [0x0A].intercalate values ↔
      values.length ≤ 1 ∨ values.head? ≠ some [] := by
  cases values with
  | nil => exact iff_of_true rfl (.inl (Nat.zero_le 1))
  | cons value values =>
    have hadd : addValue [] value = value := rfl
    rw [List.foldl_cons, hadd]
    by_cases hvalue : value = []
    · cases values with
      | nil =>
        rw [List.foldl_nil, List.intercalate_singleton]
        exact iff_of_true rfl (.inl (le_refl 1))
      | cons v vs =>
        refine iff_of_false (fun h => ?_) (by simp [hvalue])
        have hle := length_foldl_addValue_le (v :: vs)
        rw [hvalue, List.intercalate_cons_cons, List.nil_append] at h
        rw [h, List.length_append, List.length_singleton] at hle
        omega
    · rw [foldl_addValue_of_ne_nil hvalue]
      exact iff_of_true rfl (.inr (by simpa using hvalue))

namespace Frame

/-- The data that the parser announces for a frame; empty if it announces nothing. -/
def dataOf (f : Frame) : Bytes :=
  match (Parser.nextEvent { buf := f.bytes }).1 with
  | .ok (some event) => event.data
  | _ => []

theorem dataOf_eq (f : Frame) : f.dataOf = f.values.foldl addValue [] := by
  have hnext := f.nextEvent_frame []
  rw [List.append_nil] at hnext
  rw [dataOf, hnext, ← data_builder, event?]
  by_cases h : Parser.hasContent { current := f.builder } = true
  · rw [if_pos h]
    rfl
  · have hdata : f.builder.data = [] := by
      simp only [Parser.hasContent, Bool.or_eq_true, decide_eq_true_eq, not_or] at h
      exact List.eq_nil_of_length_eq_zero (by omega)
    rw [if_neg h, hdata]
    rfl

/-- **The data of an event are its values joined by line feeds exactly if there is one at most, or
the first is not empty.** -/
theorem dataOf_eq_joined_iff (f : Frame) :
    f.dataOf = f.joined ↔ f.values.length ≤ 1 ∨ f.values.head? ≠ some [] := by
  rw [dataOf_eq, joined]
  exact foldl_addValue_eq_intercalate_iff f.values

/-- An empty value and another one. -/
def emptyFirst : Frame where
  lines := [ascii "data:", ascii "data: a"]
  blank := []
  lf_notMem := by decide
  ne_nil := by decide
  length_le := by decide
  blank_lf_notMem := by decide
  blank_eq_nil := rfl

theorem dataOf_emptyFirst :
    emptyFirst.bytes = ascii "data:\ndata: a\n\n" ∧ emptyFirst.dataOf = ascii "a" ∧
      emptyFirst.joined = ascii "\na" ∧ emptyFirst.dataOf ≠ emptyFirst.joined := by decide

end Frame

end Llm
end TigerClaw
