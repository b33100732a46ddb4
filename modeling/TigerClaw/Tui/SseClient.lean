import TigerClaw.Basic
import TigerClaw.Library.Json.Tree
import TigerClaw.Library.PullParser
import Mathlib.Data.List.DropRight

/-!
# The event stream at the terminal

`src/tui/sse_client.zig` turns the bytes of a turn's response into events: frames end at a blank
line, the `data:` lines of a frame are put together in a buffer of 8 KiB, and what is there is
read as a JSON object with a `type`.  What cannot be read is dropped.

* `Parser.feed`, `dispatchFrame`, `parseAndDispatch`: the code.  An event for the sink is the value
  of the function.
* `frames`: the cutting at blank lines, as a `PullParser`.
* `feedAll_eq`: the events of a stream do not depend on how it is cut.
* `dispatchFrame_data`: a frame of one `data:` line, payload too long for the buffer or not.
-/

namespace TigerClaw
namespace Tui

open Json (Tree)

inductive StreamSide where
  | stdout
  | stderr
  deriving DecidableEq

inductive Event where
  | chunk (text : Bytes)
  | toolStart (id name argsSummary : Bytes)
  | toolProgress (id : Bytes) (stream : StreamSide) (chunk : Bytes)
  | toolDone (id name output : Bytes)
  | done
  | err (message : Bytes)
  deriving DecidableEq

/-- `parsed.value.object.get(name) orelse return`, and `return` if it is no string. -/
def getString (fields : List (Bytes × Tree)) (name : Bytes) : Option Bytes :=
  match Json.Tree.get fields name with
  | some (.string s) => some s
  | _ => none

/-- `parseAndDispatch`. -/
def parseAndDispatch (payload : Bytes) : Option Event :=
  match Json.Tree.parse true payload with
  | some (.object fields) => do
    let kind ← getString fields (ascii "type")
    if kind = ascii "chunk" then
      let text ← getString fields (ascii "text")
      return .chunk text
    else if kind = ascii "tool_start" then
      let id ← getString fields (ascii "id")
      let name ← getString fields (ascii "name")
      return .toolStart id name ((getString fields (ascii "args_summary")).getD [])
    else if kind = ascii "tool_progress" then
      let id ← getString fields (ascii "id")
      let stream ← getString fields (ascii "stream")
      let chunk ← getString fields (ascii "chunk")
      return .toolProgress id (if stream = ascii "stderr" then .stderr else .stdout) chunk
    else if kind = ascii "tool_done" then
      let id ← getString fields (ascii "id")
      let name ← getString fields (ascii "name")
      let output ← getString fields (ascii "output")
      return .toolDone id name output
    else if kind = ascii "done" then
      return .done
    else if kind = ascii "error" then
      match Json.Tree.get fields (ascii "message") with
      | none => return .err (ascii "unknown error")
      | some (.string message) => return .err message
      | some _ => none
    else none
  | _ => none

/-- The room in `data_buf`. -/
def dataBufLen : ℕ := 8 * 1024

/-- One line of a frame: what a `data:` line carries goes into the buffer, as far as there is
room. -/
def addLine (data raw : Bytes) : Bytes :=
  let line := raw.rdropWhile (· == 0x0D)
  if (ascii "data:").isPrefixOf line then
    let payload := line.drop 5
    let payload := if payload.head? = some 0x20 then payload.tail else payload
    data ++ payload.take (dataBufLen - data.length)
  else data

/-- `dispatchFrame`. -/
def dispatchFrame (frame : Bytes) : Option Event :=
  let data := (frame.splitOn 0x0A).foldl addLine []
  if data.length = 0 then none else parseAndDispatch data

/-- The next complete frame in the buffer, and what is left: one round of the loop in `feed`. -/
def nextFrame (buf : Bytes) : Except Empty (Option Bytes) × Bytes :=
  match indexOf [0x0A, 0x0A] buf with
  | some n => (.ok (some (buf.take n)), buf.drop (n + 2))
  | none => (.ok none, buf)

/-- The cutting at blank lines. -/
def frames : PullParser Bytes UInt8 Bytes Empty where
  feed buf bytes := buf ++ bytes
  next := nextFrame
  size := List.length
  feed_nil := List.append_nil
  feed_append buf as bs := (List.append_assoc buf as bs).symm
  next_item {buf buf' frame} bytes h := by
    rw [nextFrame] at h ⊢
    split at h
    · rename_i n hn
      obtain ⟨hle, hmore⟩ := indexOf_append hn bytes
      obtain ⟨hframe, rfl⟩ := Prod.mk.inj h
      obtain rfl := Option.some.inj (Except.ok.inj hframe)
      simp only [List.length_cons, List.length_nil] at hle
      rw [hmore]
      dsimp only
      rw [List.take_append_of_le_length (by omega), List.drop_append_of_le_length (by omega)]
    · cases (Prod.mk.inj h).1
  next_none {buf buf'} bytes h := by
    rw [nextFrame] at h
    split at h
    · cases (Prod.mk.inj h).1
    · obtain ⟨-, rfl⟩ := Prod.mk.inj h
      rfl
  next_error {buf buf' e} := e.elim
  size_lt {buf buf' frame} h := by
    rw [nextFrame] at h
    split at h
    · rename_i n hn
      obtain ⟨hle, -⟩ := indexOf_append hn []
      obtain ⟨-, rfl⟩ := Prod.mk.inj h
      simp only [List.length_cons, List.length_nil] at hle
      rw [List.length_drop]
      omega
    · cases (Prod.mk.inj h).1

structure Parser where
  buf : Bytes := []

namespace Parser

/-- `feed`: every complete frame is dispatched, and the incomplete rest stays in the buffer. -/
def feed (self : Parser) (bytes : Bytes) : Parser × List Event :=
  let buf := self.buf ++ bytes
  ({ buf := frames.settle buf }, (frames.drain buf).1.filterMap dispatchFrame)

/-- One `feed` after another, and the events of all of them. -/
def feedAll (self : Parser) : List Bytes → Parser × List Event
  | [] => (self, [])
  | bytes :: rest =>
    let (next, events) := self.feed bytes
    let (last, more) := next.feedAll rest
    (last, events ++ more)

end Parser

/-! ## Cutting -/

/-- No error stops the cutting. -/
theorem drain_snd (buf : Bytes) : (frames.drain buf).2 = none := by
  cases h : (frames.drain buf).2 with
  | none => rfl
  | some e => exact e.elim

/-- **The events of a stream do not depend on how it is cut.**  The buffer holds no complete frame
at first. -/
theorem feedAll_eq (self : Parser) (chunks : List Bytes)
    (hbuf : frames.drain self.buf = ([], none)) :
    (self.feedAll chunks).2 =
      (frames.drain (self.buf ++ chunks.flatten)).1.filterMap dispatchFrame := by
  induction chunks generalizing self with
  | nil => simp [Parser.feedAll, hbuf]
  | cons bytes rest ih =>
    have hnone := drain_snd (self.buf ++ bytes)
    have hrest := ih (self.feed bytes).1 (frames.drain_settle hnone)
    have hdrain := congrArg Prod.fst (frames.drain_feed hnone rest.flatten)
    rw [Parser.feedAll, List.flatten_cons, ← List.append_assoc]
    dsimp only
    rw [hrest, show (frames.drain (self.buf ++ bytes ++ rest.flatten)).1 = _ from hdrain,
      List.filterMap_append]
    rfl

/-! ## One frame -/

/-- Text without a newline, and a blank line behind it. -/
theorem indexOf_blankLine {line : Bytes} (h : (0x0A : UInt8) ∉ line) (rest : Bytes) :
    indexOf [0x0A, 0x0A] (line ++ 0x0A :: 0x0A :: rest) = some line.length := by
  induction line with
  | nil => rfl
  | cons b bs ih =>
    rw [List.mem_cons, not_or] at h
    have hnot : ¬ List.isPrefixOf [0x0A, 0x0A] (b :: (bs ++ 0x0A :: 0x0A :: rest)) = true := by
      simp [List.isPrefixOf, h.1]
    rw [List.cons_append, indexOf, if_neg hnot, ih h.2]
    rfl

theorem drain_frame {line : Bytes} (h : (0x0A : UInt8) ∉ line) (rest : Bytes) :
    (frames.drain (line ++ 0x0A :: 0x0A :: rest)).1 = line :: (frames.drain rest).1 := by
  have hnext : frames.next (line ++ 0x0A :: 0x0A :: rest) = (.ok (some line), rest) := by
    show nextFrame _ = _
    rw [nextFrame, indexOf_blankLine h]
    simp
  rw [frames.drain_item hnext]
  rfl

/-- **A frame of one `data:` line.**  Its payload is read as far as there is room in the buffer. -/
theorem dispatchFrame_data {body : Bytes} {last : UInt8} (hnl : (0x0A : UInt8) ∉ body ++ [last])
    (hcr : last ≠ 0x0D) :
    dispatchFrame (ascii "data: " ++ (body ++ [last])) =
      parseAndDispatch ((body ++ [last]).take dataBufLen) := by
  have hnl' : (0x0A : UInt8) ∉ ascii "data: " ++ (body ++ [last]) := by
    rw [List.mem_append, not_or]
    exact ⟨by decide, hnl⟩
  have hline : (ascii "data: " ++ (body ++ [last])).rdropWhile (· == 0x0D) =
      ascii "data: " ++ (body ++ [last]) := by
    rw [← List.append_assoc]
    exact List.rdropWhile_concat_neg _ _ _ (by simpa using hcr)
  have hdata : addLine [] (ascii "data: " ++ (body ++ [last])) =
      (body ++ [last]).take dataBufLen := by
    rw [addLine, hline]
    rfl
  have hpos : ((body ++ [last]).take dataBufLen).length ≠ 0 := by
    rw [List.length_take, List.length_append, List.length_singleton, dataBufLen]
    omega
  rw [dispatchFrame, List.splitOn_eq_singleton hnl', List.foldl_cons, List.foldl_nil, hdata]
  exact if_neg hpos

end Tui
end TigerClaw
