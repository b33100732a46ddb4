import TigerClaw.Basic
import TigerClaw.Library.Checked
import TigerClaw.Library.Digits

/-!
# The outbox

`src/channels/outbox.zig` keeps the replies of one channel in a JSONL file.  Here the file is its
list of records, a missing file being the empty list; what one line looks like, and what a crash
does to it, is the subject of `TigerClaw.Channels.Log`.

* `append`, `Cursor.next`, `Cursor.ack`, `recordFailure`: the operations on the records they
  read.  Reading the file and writing it back are steps of their callers.
* `Record.reply`: what a record says, as opposed to where its delivery stands.
* `Cursor.ack_eq_ok`, `recordFailure_eq_ok`: the one record each of the two rewrites changes, with
  `Cursor.ack_replies` and `recordFailure_replies`: neither changes what any record says.
* `backoff_le`: the schedule never exceeds its cap.
-/

namespace TigerClaw
namespace Channels

inductive ReadError where
  | ioFailure
  | outOfMemory
  | corruptRecord
  deriving DecidableEq

inductive AckError where
  | ioFailure
  | outOfMemory
  | unknownId

/-- `spec.OutboundMessage`. -/
structure OutboundMessage where
  conversationKey : Bytes
  threadKey : Option Bytes := none
  text : Bytes

/-- The record on disk. -/
structure Record where
  id : Bytes
  conversationKey : Bytes
  threadKey : Option Bytes := none
  text : Bytes
  attempts : UInt32 := 0
  nextDueUnixMs : Int64
  ack : Bool := false
  deriving DecidableEq

/-- The view of a record that `next` hands to the sender. -/
structure Pending where
  id : Bytes
  conversationKey : Bytes
  threadKey : Option Bytes
  text : Bytes
  attempts : UInt32
  nextDueUnixMs : Int64

def Record.pending (self : Record) : Pending :=
  ⟨self.id, self.conversationKey, self.threadKey, self.text, self.attempts, self.nextDueUnixMs⟩

/-- What a record says: its id and the message. -/
structure Reply where
  id : Bytes
  conversationKey : Bytes
  threadKey : Option Bytes
  text : Bytes
  deriving DecidableEq

def Record.reply (self : Record) : Reply :=
  ⟨self.id, self.conversationKey, self.threadKey, self.text⟩

@[simp] theorem Record.pending_id (r : Record) : r.pending.id = r.id := rfl

/-! ## Appending -/

/-- `generateId`: the clock in microseconds and the process's counter, both in hexadecimal. -/
def generateId (nowUs : Int64) (n : UInt32) : Bytes :=
  let ts := max nowUs.toInt 0
  Digits.hexPad 16 ts.toNat ++ ascii "-" ++ Digits.hexPad 8 n.toNat

/-- The record `append` writes for a message. -/
def newRecord (id : Bytes) (msg : OutboundMessage) (nowMs : Int64) : Record :=
  { id
    conversationKey := msg.conversationKey
    threadKey := msg.threadKey
    text := msg.text
    attempts := 0
    nextDueUnixMs := nowMs
    ack := false }

/-- `Outbox.append` with the counter it draws the id from: the file and the counter after it, and
the id it returns.  The counter wraps. -/
def append (file : List Record) (idCounter : UInt32) (msg : OutboundMessage)
    (nowUs nowMs : Int64) : List Record × UInt32 × Bytes :=
  let id := generateId nowUs idCounter
  (file ++ [newRecord id msg nowMs], idCounter + 1, id)

/-! ## The cursor -/

structure Cursor where
  records : List Record
  index : ℕ := 0

/-- The loop of `next` over the records from `index` on: the first one that is neither acked nor
due later, and the index after it. -/
def scan (nowMs : Int64) : List Record → ℕ → Option Pending × ℕ
  | [], index => (none, index)
  | r :: rs, index =>
    if r.ack then scan nowMs rs (index + 1)
    else if nowMs < r.nextDueUnixMs then scan nowMs rs (index + 1)
    else (some r.pending, index + 1)

/-- `Cursor.next`. -/
def Cursor.next (self : Cursor) (nowMs : Int64) : Option Pending × Cursor :=
  let (pending, index) := scan nowMs (self.records.drop self.index) self.index
  (pending, { self with index })

/-- The loop both rewrites start with: the index of the first record of that id. -/
def targetIndex (records : List Record) (id : Bytes) : Option ℕ :=
  records.findIdx? fun r => r.id == id

def Record.acked (self : Record) : Record := { self with ack := true }

/-- `Cursor.ack` up to its `rewriteFile`: the caller writes the records back. -/
def Cursor.ack (self : Cursor) (id : Bytes) : Except AckError Cursor :=
  match targetIndex self.records id with
  | none => .error .unknownId
  | some idx => .ok { self with records := self.records.modify idx Record.acked }

/-! ## Failures -/

/-- `backoff`, in milliseconds. -/
def backoff (attempts : UInt32) : UInt64 :=
  let cap : UInt64 := 60000
  let shift := (min attempts 16).toUInt64
  let ms := (1000 : UInt64) <<< shift
  min ms cap

/-- The update of one record in `recordFailure`. -/
def Record.failed (self : Record) (nowMs : Int64) : Outcome AckError Record := do
  let prior := self.attempts
  let attempts ← UInt32.checkedAdd prior 1
  let delay ← UInt64.castInt64 (backoff prior)
  let nextDueUnixMs ← Int64.checkedAdd nowMs delay
  .ok { self with attempts, nextDueUnixMs }

/-- `recordFailure` between its `loadRecords` and its `rewriteFile`. -/
def recordFailure (records : List Record) (id : Bytes) (nowMs : Int64) :
    Outcome AckError (List Record) :=
  match targetIndex records id with
  | none => .error .unknownId
  | some idx =>
    match records[idx]? with
    | none => .trap .bounds
    | some r => do
      let r ← r.failed nowMs
      .ok (records.set idx r)

/-! ## What the operations do -/

theorem backoff_le (attempts : UInt32) : (backoff attempts).toNat ≤ 60000 := by
  have hmin : ∀ ms cap : UInt64, (min ms cap).toNat ≤ cap.toNat := by
    intro ms cap
    rw [show min ms cap = if ms ≤ cap then ms else cap from rfl]
    split
    · exact UInt64.le_iff_toNat_le.mp ‹_›
    · exact le_refl _
  exact hmin _ 60000

example : [0, 1, 3, 20].map backoff = [1000, 2000, 8000, 60000] := by decide

theorem targetIndex_eq_some {records : List Record} {id : Bytes} {i : ℕ} :
    targetIndex records id = some i ↔
      ∃ h : i < records.length, records[i].id = id ∧ ∀ j, ∀ hj : j < i, records[j].id ≠ id := by
  simp only [targetIndex, List.findIdx?_eq_some_iff_getElem, beq_iff_eq, ne_eq]

/-- An id that is in the file is found. -/
theorem exists_targetIndex {records : List Record} {r : Record} (hr : r ∈ records) :
    ∃ i, targetIndex records r.id = some i := by
  rw [targetIndex, ← Option.isSome_iff_exists, List.findIdx?_isSome]
  exact List.any_eq_true.mpr ⟨r, hr, beq_self_eq_true r.id⟩

/-- Only the ids decide which record is found. -/
theorem targetIndex_congr {records records' : List Record} (id : Bytes)
    (h : records.map Record.id = records'.map Record.id) :
    targetIndex records id = targetIndex records' id := by
  have hmap : ∀ l : List Record, targetIndex l id = (l.map Record.id).findIdx? (· == id) := by
    intro l
    rw [targetIndex, List.findIdx?_map]
    rfl
  rw [hmap, hmap, h]

/-- **`ack` flips the flag of the first record of that id**, and touches nothing else. -/
theorem Cursor.ack_eq_ok {c c' : Cursor} {id : Bytes} :
    c.ack id = .ok c' ↔ ∃ i, targetIndex c.records id = some i ∧
      c' = { c with records := c.records.modify i Record.acked } := by
  rw [Cursor.ack]
  cases targetIndex c.records id with
  | none => simp
  | some i => simp [eq_comm]

/-- What a recorded failure writes: one more attempt, a new due time, all else as it was. -/
theorem Record.failed_eq_ok {r r' : Record} {nowMs : Int64} :
    r.failed nowMs = .ok r' ↔
      r'.attempts.toNat = r.attempts.toNat + 1 ∧
        r'.nextDueUnixMs.toInt = nowMs.toInt + (backoff r.attempts).toNat ∧
        r'.reply = r.reply ∧ r'.ack = r.ack := by
  have hcap := backoff_le r.attempts
  have hdelay : UInt64.castInt64 (backoff r.attempts) =
      (.ok (Int64.ofInt (backoff r.attempts).toNat) : Outcome AckError Int64) :=
    UInt64.castInt64_of_lt (by omega)
  simp only [Record.failed, Outcome.bind_eq_ok, hdelay, Outcome.ok.injEq,
    UInt32.checkedAdd_eq_ok, Int64.checkedAdd_eq_ok, UInt32.toNat_one, exists_eq_left',
    Int64.toInt_ofInt_of_le (n := (backoff r.attempts).toNat) (by omega) (by omega)]
  constructor
  · rintro ⟨attempts, ha, due, hd, rfl⟩
    exact ⟨ha, hd, rfl, rfl⟩
  · rintro ⟨ha, hd, hreply, hack⟩
    refine ⟨r'.attempts, ha, r'.nextDueUnixMs, hd, ?_⟩
    obtain ⟨id, conv, thread, text, attempts, due, ack⟩ := r'
    simp only [Record.reply, Reply.mk.injEq] at hreply
    obtain ⟨rfl, rfl, rfl, rfl⟩ := hreply
    obtain rfl : ack = r.ack := hack
    rfl

/-- **`recordFailure` updates the first record of that id**, and touches nothing else. -/
theorem recordFailure_eq_ok {records records' : List Record} {id : Bytes} {nowMs : Int64} :
    recordFailure records id nowMs = .ok records' ↔
      ∃ i r r', targetIndex records id = some i ∧ records[i]? = some r ∧
        r.failed nowMs = .ok r' ∧ records' = records.set i r' := by
  rw [recordFailure]
  cases hi : targetIndex records id with
  | none => simp
  | some i =>
    cases hr : records[i]? with
    | none => simp [hr]
    | some r =>
      simp only [hr, Outcome.bind_eq_ok, Outcome.ok.injEq]
      constructor
      · rintro ⟨r', hfailed, rfl⟩
        exact ⟨i, r, r', rfl, hr, hfailed, rfl⟩
      · rintro ⟨j, q, r', hj, hq, hfailed, rfl⟩
        obtain rfl := Option.some.inj hj
        obtain rfl := Option.some.inj (hr.symm.trans hq)
        exact ⟨r', hfailed, rfl⟩

theorem Cursor.ack_replies {c c' : Cursor} {id : Bytes} (h : c.ack id = .ok c') :
    c'.records.map Record.reply = c.records.map Record.reply ∧ c'.index = c.index := by
  obtain ⟨i, -, rfl⟩ := Cursor.ack_eq_ok.mp h
  refine ⟨List.ext_getElem? fun j => ?_, rfl⟩
  simp only [List.getElem?_map, List.getElem?_modify]
  split
  · cases c.records[j]? <;> rfl
  · simp

theorem recordFailure_replies {records records' : List Record} {id : Bytes} {nowMs : Int64}
    (h : recordFailure records id nowMs = .ok records') :
    records'.map Record.reply = records.map Record.reply := by
  obtain ⟨i, r, r', -, hr, hfailed, rfl⟩ := recordFailure_eq_ok.mp h
  have hreply : r'.reply = r.reply := (Record.failed_eq_ok.mp hfailed).2.2.1
  obtain ⟨hi, rfl⟩ := List.getElem?_eq_some_iff.mp hr
  rw [List.map_set, hreply, ← List.getElem_map Record.reply (h := by simpa using hi),
    List.set_getElem_self]

end Channels
end TigerClaw
