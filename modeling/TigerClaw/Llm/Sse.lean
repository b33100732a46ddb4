import TigerClaw.Basic
import TigerClaw.Library.Digits
import TigerClaw.Library.Loop
import TigerClaw.Library.PullParser
import Mathlib.Algebra.Group.Int.Defs

/-!
# The provider's event stream

`src/llm/transport/sse.zig`: bytes in, server-sent events out.  `feed` appends to a buffer;
`nextEvent` takes whole lines off its front, collects fields, and answers with an event at the
blank line that ends one.

* `Parser.consumeLine`, `Parser.handleLine`, `Parser.nextEvent`: the code.
* `Parser.round_feed`: what one round of the loop does to the front of the buffer, it does with
  any bytes behind it.
* `Parser.pull`: the parser as a `PullParser`, that is with the laws.
* `nextEvent_chunk_invariant`: where the stream is cut, and when events are pulled, does not
  matter.
-/

namespace TigerClaw
namespace Llm

structure Event where
  name : Bytes := []
  data : Bytes := []
  id : Bytes := []
  retryMs : Option UInt32 := none
  deriving DecidableEq

/-- The fields of the event that is being collected. -/
structure EventBuilder where
  name : Bytes := []
  data : Bytes := []
  id : Bytes := []
  retryMs : Option UInt32 := none
  deriving DecidableEq

inductive SseError where
  | incomplete
  | lineTooLong
  deriving DecidableEq

structure Parser where
  buf : Bytes := []
  current : EventBuilder := {}
  deriving DecidableEq

/-- `std.fmt.parseInt(u32, value, 10) catch null`. -/
def parseU32 (value : Bytes) : Option UInt32 :=
  match Digits.parseInt value with
  | some n => if 0 ≤ n ∧ n < 2 ^ 32 then some (UInt32.ofNat n.toNat) else none
  | none => none

namespace Parser

def feed (self : Parser) (bytes : Bytes) : Parser := { self with buf := self.buf ++ bytes }

/-- `consumeLine`.  `none` is a blank line.  A line that is too long stays in the buffer. -/
def consumeLine (self : Parser) : Except SseError (Option Bytes × Parser) :=
  match self.buf.idxOf? 0x0A with
  | none => .error .incomplete
  | some nl =>
    let lineEnd := if 0 < nl ∧ self.buf[nl - 1]? = some 0x0D then nl - 1 else nl
    let line := self.buf.take lineEnd
    let rest := { self with buf := self.buf.drop (nl + 1) }
    if line.length = 0 then .ok (none, rest)
    else if 4096 < line.length then .error .lineTooLong
    else .ok (some line, rest)

/-- `handleLine`. -/
def handleLine (self : Parser) (line : Bytes) : Parser :=
  if line.length = 0 ∨ line.head? = some 0x3A then self
  else
    let colon := line.idxOf? 0x3A
    let field := match colon with
      | some c => line.take c
      | none => line
    let afterColon := match colon with
      | some c => line.drop (c + 1)
      | none => []
    let value := if afterColon.head? = some 0x20 then afterColon.tail else afterColon
    if field = ascii "event" then { self with current := { self.current with name := value } }
    else if field = ascii "data" then
      { self with
        current := { self.current with
          data := (if self.current.data.length > 0 then self.current.data ++ [0x0A]
            else self.current.data) ++ value } }
    else if field = ascii "id" then { self with current := { self.current with id := value } }
    else if field = ascii "retry" then
      match parseU32 value with
      | some m => { self with current := { self.current with retryMs := some m } }
      | none => self
    else self

def hasContent (self : Parser) : Bool :=
  self.current.name.length > 0 || self.current.data.length > 0 || self.current.id.length > 0 ||
    self.current.retryMs.isSome

/-- `flushEvent`: the event, and an empty builder. -/
def flushEvent (self : Parser) : Event × Parser :=
  ({ name := self.current.name, data := self.current.data, id := self.current.id,
     retryMs := self.current.retryMs },
   { self with current := {} })

/-- What `nextEvent` returns, and the parser after it. -/
abbrev Reply : Type := Except SseError (Option Event) × Parser

/-- One round of the loop in `nextEvent`. -/
def round (self : Parser) : Loop.Round Parser Reply :=
  match self.consumeLine with
  | .error .incomplete => .leave (.ok none, self)
  | .error e => .leave (.error e, self)
  | .ok (none, rest) =>
    if !rest.hasContent then .again rest
    else
      let (event, rest) := rest.flushEvent
      .leave (.ok (some event), rest)
  | .ok (some line, rest) => .again (rest.handleLine line)

/-! ## One line -/

@[simp] theorem handleLine_buf (self : Parser) (line : Bytes) :
    (self.handleLine line).buf = self.buf := by
  unfold handleLine
  dsimp only
  split_ifs
  all_goals first | rfl | (split <;> rfl)

theorem handleLine_feed (self : Parser) (line bytes : Bytes) :
    (self.feed bytes).handleLine line = (self.handleLine line).feed bytes := by
  unfold handleLine feed
  dsimp only
  split_ifs
  all_goals first | rfl | (split <;> rfl)

theorem hasContent_feed (self : Parser) (bytes : Bytes) :
    (self.feed bytes).hasContent = self.hasContent := rfl

theorem idxOf?_lt_length {bytes : Bytes} {b : UInt8} {n : ℕ} (h : bytes.idxOf? b = some n) :
    n < bytes.length :=
  (List.findIdx?_eq_some_iff_getElem.mp h).1

theorem idxOf?_append_of_some {bytes : Bytes} {b : UInt8} {n : ℕ} (h : bytes.idxOf? b = some n)
    (more : Bytes) : (bytes ++ more).idxOf? b = some n :=
  (List.prefix_append bytes more).findIdx?_eq_some h

/-- A line that is taken off makes the buffer shorter. -/
theorem consumeLine_length {self rest : Parser} {line : Option Bytes}
    (h : self.consumeLine = .ok (line, rest)) : rest.buf.length < self.buf.length := by
  unfold consumeLine at h
  split at h
  · simp at h
  · rename_i nl hnl
    have hlt := idxOf?_lt_length hnl
    dsimp only at h
    generalize hend : (if 0 < nl ∧ self.buf[nl - 1]? = some 0x0D then nl - 1 else nl) = lineEnd at h
    split_ifs at h
    all_goals
      obtain ⟨-, rfl⟩ := Prod.mk.inj (Except.ok.inj h)
      simp only [List.length_drop]
      omega

/-- What is read off the front of the buffer does not depend on what is behind the line. -/
theorem consumeLine_feed {self : Parser} (h : self.consumeLine ≠ .error .incomplete)
    (bytes : Bytes) :
    (self.feed bytes).consumeLine = self.consumeLine.map fun r => (r.1, r.2.feed bytes) := by
  cases hnl : self.buf.idxOf? 0x0A with
  | none =>
    rw [consumeLine, hnl] at h
    exact absurd rfl h
  | some nl =>
    have hlt := idxOf?_lt_length hnl
    have hcr : (self.buf ++ bytes)[nl - 1]? = self.buf[nl - 1]? :=
      List.getElem?_append_left (by omega)
    simp only [consumeLine, feed, hnl, idxOf?_append_of_some hnl bytes, hcr]
    generalize hend : (if 0 < nl ∧ self.buf[nl - 1]? = some 0x0D then nl - 1 else nl) = lineEnd
    have hle : lineEnd ≤ nl := by
      rw [← hend]
      split <;> omega
    rw [List.take_append_of_le_length (by omega), List.drop_append_of_le_length (by omega)]
    split_ifs <;> rfl

/-- No line is complete: nothing happens. -/
theorem round_incomplete {self : Parser} (h : self.consumeLine = .error .incomplete) :
    self.round = .leave (.ok none, self) := by
  rw [round, h]

/-- **A round that finds a complete line does the same with more bytes in the buffer.** -/
theorem round_feed {self : Parser} (h : self.consumeLine ≠ .error .incomplete) (bytes : Bytes) :
    (self.feed bytes).round =
      match self.round with
      | .again p => .again (p.feed bytes)
      | .leave r => .leave (r.1, r.2.feed bytes) := by
  rw [round, round, consumeLine_feed h]
  match hline : self.consumeLine with
  | .error .incomplete => exact absurd hline h
  | .error .lineTooLong => rfl
  | .ok (none, rest) =>
    dsimp only [Except.map]
    rw [hasContent_feed]
    by_cases hcontent : rest.hasContent = true
    · simp only [hcontent, Bool.not_true, Bool.false_eq_true, if_false]
      rfl
    · simp only [hcontent, Bool.not_false, if_true]
  | .ok (some line, rest) =>
    dsimp only [Except.map]
    rw [handleLine_feed]

theorem round_leave_ne_none {self p : Parser} {a : Except SseError (Option Event)}
    (hinc : self.consumeLine ≠ .error .incomplete) (h : self.round = .leave (a, p)) :
    a ≠ .ok none := by
  rintro rfl
  unfold round at h
  split at h
  · exact hinc ‹_›
  · simp at h
  · split at h
    · cases h
    · simp [flushEvent] at h
  · cases h

/-- A round that goes round again has taken something out of the buffer, and so has one that leaves
with an event. -/
theorem round_length {self : Parser} :
    (∀ p, self.round = .again p → p.buf.length < self.buf.length) ∧
      ∀ e p, self.round = .leave (.ok (some e), p) → p.buf.length < self.buf.length := by
  unfold round
  match hline : self.consumeLine with
  | .error .incomplete => simp
  | .error .lineTooLong => simp
  | .ok (none, rest) =>
    have hlt := consumeLine_length hline
    by_cases hcontent : rest.hasContent = true
    · simp only [hcontent, Bool.not_true, Bool.false_eq_true, if_false, flushEvent]
      simpa using hlt
    · simpa [hcontent] using hlt
  | .ok (some line, rest) =>
    have hlt := consumeLine_length hline
    simpa using hlt

/-! ## The loop -/

/-- Every round takes a line off, so the loop ends. -/
theorem loop_round_isSome (self : Parser) :
    (Loop.loop round (self.buf.length + 1) self).isSome = true := by
  have hbody : ∀ p : Parser, True →
      (∃ p', p.round = .again p' ∧ True ∧ p'.buf.length < p.buf.length) ∨
        ∃ r, p.round = .leave r ∧ True := by
    intro p _
    cases hround : p.round with
    | again p' => exact .inl ⟨p', rfl, trivial, round_length.1 p' hround⟩
    | leave r => exact .inr ⟨r, rfl, trivial⟩
  obtain ⟨r, hr, -⟩ :=
    Loop.loop_total (fun p : Parser => p.buf.length) hbody trivial (Nat.lt_succ_self _)
  rw [hr]
  rfl

/-- `nextEvent`. -/
def nextEvent (self : Parser) : Reply :=
  (Loop.loop round (self.buf.length + 1) self).get (loop_round_isSome self)

theorem loop_eq_nextEvent (self : Parser) :
    Loop.loop round (self.buf.length + 1) self = some self.nextEvent :=
  (Option.some_get (loop_round_isSome self)).symm

theorem nextEvent_again {self p : Parser} (h : self.round = .again p) :
    self.nextEvent = p.nextEvent := by
  have hlt := round_length.1 p h
  have hself := loop_eq_nextEvent self
  rw [Loop.loop_again h] at hself
  have hp := Loop.loop_mono (loop_eq_nextEvent p) hlt
  exact Option.some.inj (hself.symm.trans hp)

theorem nextEvent_leave {self : Parser} {r : Reply} (h : self.round = .leave r) :
    self.nextEvent = r := by
  have hself := loop_eq_nextEvent self
  rw [Loop.loop_leave h] at hself
  exact (Option.some.inj hself).symm

/-- The reply with more bytes in the buffer than there were.  After `none` it takes another call to
say what it is; an event and an error stay what they are. -/
def Reply.withMore (self : Reply) (bytes : Bytes) : Reply :=
  match self with
  | (.ok none, p) => (p.feed bytes).nextEvent
  | (.ok (some event), p) => (.ok (some event), p.feed bytes)
  | (.error e, p) => (.error e, p.feed bytes)

theorem Reply.withMore_of_ne_none {self : Reply} (h : self.1 ≠ .ok none) (bytes : Bytes) :
    self.withMore bytes = (self.1, self.2.feed bytes) := by
  match self with
  | (.ok none, p) => exact absurd rfl h
  | (.ok (some event), p) => rfl
  | (.error e, p) => rfl

/-- **What more bytes in the buffer do to a reply.** -/
theorem nextEvent_feed (self : Parser) (bytes : Bytes) :
    (self.feed bytes).nextEvent = self.nextEvent.withMore bytes := by
  have hleave : ∀ (p : Parser) (r : Reply), p.round = .leave r →
      (p.feed bytes).nextEvent = r.withMore bytes := by
    intro p r hround
    by_cases hinc : p.consumeLine = .error .incomplete
    · rw [round_incomplete hinc] at hround
      rw [← Loop.Round.leave.inj hround]
      rfl
    · have hfeed := round_feed hinc bytes
      rw [hround] at hfeed
      rw [nextEvent_leave hfeed, Reply.withMore_of_ne_none (round_leave_ne_none hinc hround)]
  have hagain : ∀ (p p' : Parser) (r : Reply), p.round = .again p' →
      (p'.feed bytes).nextEvent = r.withMore bytes →
      (p.feed bytes).nextEvent = r.withMore bytes := by
    intro p p' r hround hr
    have hinc : p.consumeLine ≠ .error .incomplete := by
      intro hinc
      rw [round_incomplete hinc] at hround
      cases hround
    have hfeed := round_feed hinc bytes
    rw [hround] at hfeed
    rw [nextEvent_again hfeed, hr]
  exact Loop.loop_sound hleave hagain (loop_eq_nextEvent self)

/-- An event takes something out of the buffer. -/
theorem nextEvent_length {self p : Parser} {event : Event}
    (h : self.nextEvent = (.ok (some event), p)) : p.buf.length < self.buf.length := by
  have hleave : ∀ (q : Parser) (r : Reply), q.round = .leave r →
      r.1 = .ok (some event) → r.2.buf.length < q.buf.length := by
    rintro q ⟨a, p'⟩ hround rfl
    exact round_length.2 event p' hround
  have hagain : ∀ (q q' : Parser) (r : Reply), q.round = .again q' →
      (r.1 = .ok (some event) → r.2.buf.length < q'.buf.length) →
      r.1 = .ok (some event) → r.2.buf.length < q.buf.length :=
    fun q q' r hround hr ha => Nat.lt_trans (hr ha) (round_length.1 q' hround)
  have hsound := Loop.loop_sound hleave hagain (loop_eq_nextEvent self)
  rw [h] at hsound
  exact hsound rfl

/-- The parser with its laws. -/
def pull : PullParser Parser UInt8 Event SseError where
  feed := feed
  next := nextEvent
  size self := self.buf.length
  feed_nil self := by
    rw [feed, List.append_nil]
  feed_append self as bs := by
    simp only [feed, List.append_assoc]
  next_item cs h := by
    rw [nextEvent_feed, h]
    rfl
  next_none cs h := by
    rw [nextEvent_feed, h]
    rfl
  next_error cs h := by
    rw [nextEvent_feed, h]
    rfl
  size_lt h := nextEvent_length h

end Parser

/-- **Where the stream is cut, and when events are pulled, does not matter.**  Two lists of `feed`
and `nextEvent` calls with the same bytes, each drained at its end, give the same events and the
same first error. -/
theorem nextEvent_chunk_invariant {calls calls' : List (PullParser.Call UInt8)}
    (h : PullParser.fed calls = PullParser.fed calls') :
    Parser.pull.yield calls {} = Parser.pull.yield calls' {} :=
  Parser.pull.yield_congr h {}

/-- A cut, and a pull, between the two bytes of a line end. -/
theorem nextEvent_chunk_invariant_crlf :
    Parser.pull.yield [.feed (ascii "data: a\r"), .next, .feed (ascii "\n\r\n")] {} =
      Parser.pull.yield [.feed (ascii "data: a\r\n\r\n")] {} :=
  nextEvent_chunk_invariant (by decide)

end Llm
end TigerClaw
