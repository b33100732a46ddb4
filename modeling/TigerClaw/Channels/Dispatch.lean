import TigerClaw.Library.RingBuffer
import TigerClaw.Library.Service

/-!
# The dispatch queue

Channel threads push inbound messages, a dispatch worker takes them out.  The queue is a ring
of cells under a mutex: an enqueue is one critical section, and a dequeue is a loop of critical
sections that each find a message, or the cancel flag, or nothing yet.  A request is one critical
section, so a list of requests is any interleaving of producers and consumers.

* `Dispatch.enqueue`, `Dispatch.dequeueRound`: the two critical sections, with every index and
  every addition checked.
* `Dispatch.WellFormed`: the head is a cell, and there are no more messages than cells.
* `fifoStep`: the specification, a list that drops its oldest message on overflow.
* `Dispatch.step_refines`: one request, for any alignment of the ring.
* `serve_eq_fifo`: every list of requests is answered as the list answers it, and the counters
  say how many messages came in, fell out and were handed over.
-/

namespace TigerClaw
namespace Channels

/-- The slice of messages that `init` allocated, whatever its cells hold before they are written.
`init` asserts a positive capacity.  A message is more than two bytes, and the allocator
refuses a slice that spans the address space. -/
structure Buffer (Msg : Type) where
  cells : List Msg
  nonempty : 0 < cells.length
  fits : 2 * cells.length ≤ 2 ^ 64

namespace Buffer

variable {Msg : Type}

/-- `buffer.len`. -/
def capacity (buffer : Buffer Msg) : ℕ := buffer.cells.length

/-- `buffer[i]`. -/
def read (buffer : Buffer Msg) (i : ℕ) : Outcome Empty Msg :=
  match buffer.cells[i]? with
  | some msg => .ok msg
  | none => .trap .bounds

/-- `buffer[i] = msg`. -/
def write (buffer : Buffer Msg) (i : ℕ) (msg : Msg) : Outcome Empty (Buffer Msg) :=
  if i < buffer.capacity then
    .ok ⟨buffer.cells.set i msg, by rw [List.length_set]; exact buffer.nonempty,
      by rw [List.length_set]; exact buffer.fits⟩
  else .trap .bounds

theorem write_of_lt (buffer : Buffer Msg) {i : ℕ} (h : i < buffer.capacity) (msg : Msg) :
    ∃ buffer', buffer.write i msg = .ok buffer' ∧ buffer'.cells = buffer.cells.set i msg :=
  ⟨_, if_pos h, rfl⟩

end Buffer

structure Stats where
  enqueued : UInt64 := 0
  dropped : UInt64 := 0
  drained : UInt64 := 0

structure Dispatch (Msg : Type) where
  buffer : Buffer Msg
  head : ℕ := 0
  len : ℕ := 0
  stats : Stats := {}

/-- One critical section. -/
inductive Request (Msg : Type) where
  | enqueue (msg : Msg)
  /-- One round of the loop in `dequeue`, with the cancel flag it reads if the queue is empty. -/
  | dequeue (cancel : Bool)

inductive Answer (Msg : Type) where
  /-- `true` if the message landed in free space. -/
  | enqueued (acceptedCleanly : Bool)
  | message (msg : Msg)
  | cancelled
  /-- Nothing yet; `dequeue` sleeps and tries again. -/
  | waiting

variable {Msg : Type}

namespace Dispatch

def init (buffer : Buffer Msg) : Dispatch Msg := { buffer }

/-- A full queue gives up its oldest message. -/
def makeRoom (self : Dispatch Msg) : Outcome Empty (Bool × Dispatch Msg) :=
  if self.len = self.buffer.capacity then do
    let next ← usizeAdd self.head 1
    let len ← usizeSub self.len 1
    .ok (false, { self with
      head := next % self.buffer.capacity
      len := len
      stats := { self.stats with dropped := self.stats.dropped + 1 } })
  else .ok (true, self)

/-- Write behind the last message. -/
def append (self : Dispatch Msg) (msg : Msg) : Outcome Empty (Dispatch Msg) := do
  let sum ← usizeAdd self.head self.len
  let buffer ← self.buffer.write (sum % self.buffer.capacity) msg
  let len ← usizeAdd self.len 1
  .ok { self with
    buffer := buffer
    len := len
    stats := { self.stats with enqueued := self.stats.enqueued + 1 } }

def enqueue (self : Dispatch Msg) (msg : Msg) : Outcome Empty (Bool × Dispatch Msg) := do
  let (acceptedCleanly, self) ← self.makeRoom
  let self ← self.append msg
  .ok (acceptedCleanly, self)

/-- One round of the loop in `dequeue`. -/
def dequeueRound (self : Dispatch Msg) (cancel : Bool) :
    Outcome Empty (Answer Msg × Dispatch Msg) :=
  if 0 < self.len then do
    let msg ← self.buffer.read self.head
    let next ← usizeAdd self.head 1
    let len ← usizeSub self.len 1
    .ok (.message msg, { self with
      head := next % self.buffer.capacity
      len := len
      stats := { self.stats with drained := self.stats.drained + 1 } })
  else .ok (if cancel then .cancelled else .waiting, self)

/-- A request under the mutex. -/
def step (self : Dispatch Msg) : Request Msg → Outcome Empty (Answer Msg × Dispatch Msg)
  | .enqueue msg => do
    let (acceptedCleanly, self) ← self.enqueue msg
    .ok (.enqueued acceptedCleanly, self)
  | .dequeue cancel => self.dequeueRound cancel

theorem enqueue_of {q q₁ q₂ : Dispatch Msg} {msg : Msg} {acceptedCleanly : Bool}
    (hroom : q.makeRoom = .ok (acceptedCleanly, q₁)) (happend : q₁.append msg = .ok q₂) :
    q.enqueue msg = .ok (acceptedCleanly, q₂) := by
  simp only [enqueue, hroom, happend, Outcome.ok_bind]

/-! ## The messages in the ring -/

/-- The queued messages, oldest first. -/
def contents (self : Dispatch Msg) : List Msg :=
  Ring.contents self.buffer.cells self.head self.len

/-- The head is a cell, and there are no more messages than cells. -/
structure WellFormed (q : Dispatch Msg) : Prop where
  head_lt : q.head < q.buffer.capacity
  len_le : q.len ≤ q.buffer.capacity

theorem wellFormed_init (buffer : Buffer Msg) : (init buffer).WellFormed :=
  ⟨buffer.nonempty, Nat.zero_le _⟩

@[simp] theorem contents_init (buffer : Buffer Msg) : (init buffer).contents = [] :=
  Ring.contents_zero _ _

namespace WellFormed

variable {q : Dispatch Msg}

theorem length_contents (h : q.WellFormed) : q.contents.length = q.len :=
  Ring.length_contents h.len_le

/-- Neither the index behind the head nor the one behind the last message overflows. -/
theorem head_add_lt (h : q.WellFormed) {n : ℕ} (hn : n ≤ q.buffer.capacity) :
    q.head + n < 2 ^ 64 := by
  have hhead := h.head_lt
  have hfits := q.buffer.fits
  rw [Buffer.capacity] at hhead hn
  omega

/-- What `makeRoom` does to a full queue. -/
theorem makeRoom_full (h : q.WellFormed) (hfull : q.len = q.buffer.capacity) :
    ∃ q', q.makeRoom = .ok (false, q') ∧ q'.WellFormed ∧
      q'.buffer = q.buffer ∧ q'.contents = q.contents.tail ∧
      q'.len < q'.buffer.capacity ∧
      q'.stats = { q.stats with dropped := q.stats.dropped + 1 } := by
  have hpos : 0 < q.len := hfull ▸ q.buffer.nonempty
  refine ⟨{ q with
      head := (q.head + 1) % q.buffer.capacity
      len := q.len - 1
      stats := { q.stats with dropped := q.stats.dropped + 1 } }, ?_, ?_, rfl, ?_, ?_, rfl⟩
  · rw [makeRoom, if_pos hfull, usizeAdd_of_lt (h.head_add_lt q.buffer.nonempty),
      Outcome.ok_bind, usizeSub_of_le hpos, Outcome.ok_bind]
  · exact ⟨Nat.mod_lt _ q.buffer.nonempty, (Nat.sub_le _ _).trans h.len_le⟩
  · exact Ring.contents_advance h.len_le hpos
  · have hlen : q.len - 1 < q.buffer.capacity := by omega
    exact hlen

/-- What `append` does to a queue with a free cell. -/
theorem append_of_lt (h : q.WellFormed) (hlen : q.len < q.buffer.capacity) (msg : Msg) :
    ∃ q', q.append msg = .ok q' ∧ q'.WellFormed ∧
      q'.buffer.capacity = q.buffer.capacity ∧ q'.contents = q.contents ++ [msg] ∧
      q'.stats = { q.stats with enqueued := q.stats.enqueued + 1 } := by
  obtain ⟨buffer, hwrite, hcells⟩ := q.buffer.write_of_lt
    (Nat.mod_lt (q.head + q.len) q.buffer.nonempty) msg
  have hcapacity : buffer.capacity = q.buffer.capacity := by
    rw [Buffer.capacity, hcells, List.length_set, Buffer.capacity]
  have hadd : q.len + 1 < 2 ^ 64 := by
    have hfits := q.buffer.fits
    rw [Buffer.capacity] at hlen
    omega
  refine ⟨{ q with
      buffer := buffer
      len := q.len + 1
      stats := { q.stats with enqueued := q.stats.enqueued + 1 } }, ?_, ?_, hcapacity, ?_, rfl⟩
  · rw [append, usizeAdd_of_lt (h.head_add_lt hlen.le), Outcome.ok_bind, hwrite, Outcome.ok_bind,
      usizeAdd_of_lt hadd, Outcome.ok_bind]
  · exact ⟨hcapacity ▸ h.head_lt, hcapacity ▸ hlen⟩
  · rw [contents, hcells]
    exact Ring.contents_set hlen msg

/-- **An enqueue is a push on the list of messages**, with or without a message to drop. -/
theorem enqueue_eq (h : q.WellFormed) (msg : Msg) :
    ∃ q', q.enqueue msg = .ok (decide (q.contents.length ≠ q.buffer.capacity), q') ∧
      q'.WellFormed ∧ q'.buffer.capacity = q.buffer.capacity ∧
      q'.contents = BoundedFifo.push q.buffer.capacity q.contents msg ∧
      q'.stats = { q.stats with
        enqueued := q.stats.enqueued + 1
        dropped := q.stats.dropped
          + if q.contents.length = q.buffer.capacity then 1 else 0 } := by
  by_cases hfull : q.len = q.buffer.capacity
  · have hlength : q.contents.length = q.buffer.capacity := h.length_contents.trans hfull
    obtain ⟨q₁, hroom, h₁, hbuffer, hcontents, hlt, hstats⟩ := h.makeRoom_full hfull
    obtain ⟨q₂, happend, h₂, hcapacity, hcontents', hstats'⟩ := h₁.append_of_lt hlt msg
    refine ⟨q₂, ?_, h₂, hcapacity.trans (by rw [hbuffer]), ?_, ?_⟩
    · rw [enqueue_of hroom happend, decide_eq_false (not_not.mpr hlength)]
    · rw [BoundedFifo.push_of_full hlength, hcontents', hcontents]
    · rw [hstats', hstats, if_pos hlength]
  · have hlt : q.len < q.buffer.capacity := lt_of_le_of_ne h.len_le hfull
    have hlength : q.contents.length < q.buffer.capacity := by rwa [h.length_contents]
    obtain ⟨q', happend, h', hcapacity, hcontents, hstats⟩ := h.append_of_lt hlt msg
    refine ⟨q', ?_, h', hcapacity, ?_, ?_⟩
    · rw [enqueue_of (if_neg hfull) happend, decide_eq_true hlength.ne]
    · rw [BoundedFifo.push_of_lt hlength, hcontents]
    · rw [hstats, if_neg hlength.ne, UInt64.add_zero]

/-- A round on an empty queue finds nothing and changes nothing. -/
theorem dequeueRound_nil (h : q.WellFormed) (hnil : q.contents = []) (cancel : Bool) :
    q.dequeueRound cancel = .ok (if cancel then .cancelled else .waiting, q) := by
  have hlen : q.len = 0 := by rw [← h.length_contents, hnil, List.length_nil]
  rw [dequeueRound, if_neg (by omega)]

/-- **A round on any other queue takes the oldest message.** -/
theorem dequeueRound_cons (h : q.WellFormed) {msg : Msg} {rest : List Msg}
    (hcons : q.contents = msg :: rest) (cancel : Bool) :
    ∃ q', q.dequeueRound cancel = .ok (.message msg, q') ∧ q'.WellFormed ∧
      q'.buffer = q.buffer ∧ q'.contents = rest ∧
      q'.stats = { q.stats with drained := q.stats.drained + 1 } := by
  have hpos : 0 < q.len := by
    rw [← h.length_contents, hcons]
    exact Nat.succ_pos _
  have hread : q.buffer.read q.head = .ok msg := by
    rw [Buffer.read, Ring.getElem?_head h.head_lt hpos h.len_le]
    change (match q.contents.head? with | some msg => _ | none => _) = _
    rw [hcons]
    rfl
  refine ⟨{ q with
      head := (q.head + 1) % q.buffer.capacity
      len := q.len - 1
      stats := { q.stats with drained := q.stats.drained + 1 } }, ?_, ?_, rfl, ?_, rfl⟩
  · rw [dequeueRound, if_pos hpos, hread, Outcome.ok_bind,
      usizeAdd_of_lt (h.head_add_lt q.buffer.nonempty), Outcome.ok_bind, usizeSub_of_le hpos,
      Outcome.ok_bind]
  · exact ⟨Nat.mod_lt _ q.buffer.nonempty, (Nat.sub_le _ _).trans h.len_le⟩
  · have htail := @Ring.contents_advance _ q.buffer.cells q.head _ h.len_le hpos
    exact htail.trans (congrArg List.tail hcons)

end WellFormed
end Dispatch

/-! ## The specification -/

/-- **A list of at most `capacity` messages that drops its oldest on overflow.** -/
def fifoStep (capacity : ℕ) (queue : List Msg) : Request Msg → Answer Msg × List Msg
  | .enqueue msg =>
    (.enqueued (decide (queue.length ≠ capacity)), BoundedFifo.push capacity queue msg)
  | .dequeue cancel =>
    match BoundedFifo.pop queue with
    | some (msg, rest) => (.message msg, rest)
    | none => (if cancel then .cancelled else .waiting, queue)

/-- The message a request brings in. -/
def Request.brought : Request Msg → Option Msg
  | .enqueue msg => some msg
  | .dequeue _ => none

/-- The message an answer hands over. -/
def Answer.handed : Answer Msg → Option Msg
  | .message msg => some msg
  | _ => none

/-- The answer reports that a message was dropped. -/
def Answer.reportsDrop : Answer Msg → Bool
  | .enqueued acceptedCleanly => !acceptedCleanly
  | _ => false

attribute [simp] Request.brought Answer.handed Answer.reportsDrop

@[simp] theorem fifoStep_enqueue (capacity : ℕ) (queue : List Msg) (msg : Msg) :
    fifoStep capacity queue (.enqueue msg) =
      (.enqueued (decide (queue.length ≠ capacity)), BoundedFifo.push capacity queue msg) := rfl

@[simp] theorem fifoStep_dequeue_nil (capacity : ℕ) (cancel : Bool) :
    fifoStep capacity ([] : List Msg) (.dequeue cancel) =
      (if cancel then .cancelled else .waiting, []) := rfl

@[simp] theorem fifoStep_dequeue_cons (capacity : ℕ) (msg : Msg) (queue : List Msg)
    (cancel : Bool) : fifoStep capacity (msg :: queue) (.dequeue cancel) =
      (.message msg, queue) := rfl

/-- Every message brought in, in order. -/
def brought (requests : List (Request Msg)) : List Msg := requests.filterMap Request.brought

/-- Every message handed over, in order. -/
def handedOver (answers : List (Answer Msg)) : List Msg := answers.filterMap Answer.handed

/-- How many messages were dropped. -/
def drops (answers : List (Answer Msg)) : ℕ := answers.countP Answer.reportsDrop

theorem brought_cons (request : Request Msg) (requests : List (Request Msg)) :
    brought (request :: requests) = request.brought.toList ++ brought requests := by
  cases request <;> rfl

theorem handedOver_cons (answer : Answer Msg) (answers : List (Answer Msg)) :
    handedOver (answer :: answers) = answer.handed.toList ++ handedOver answers := by
  cases answer <;> rfl

theorem drops_cons (answer : Answer Msg) (answers : List (Answer Msg)) :
    drops (answer :: answers) = drops answers + if answer.reportsDrop then 1 else 0 :=
  List.countP_cons

/-- One request hands over the front of the list, keeps the order and accounts for every
message. -/
theorem fifoStep_conserves {capacity : ℕ} (hcapacity : 0 < capacity) (queue : List Msg)
    (request : Request Msg) :
    ((fifoStep capacity queue request).1.handed.toList
        ++ (fifoStep capacity queue request).2).Sublist (queue ++ request.brought.toList) ∧
      queue.length + request.brought.toList.length
        = (if (fifoStep capacity queue request).1.reportsDrop then 1 else 0)
          + (fifoStep capacity queue request).1.handed.toList.length
          + (fifoStep capacity queue request).2.length := by
  cases request with
  | enqueue msg =>
    refine ⟨BoundedFifo.push_sublist capacity queue msg, ?_⟩
    have hlength := BoundedFifo.length_push hcapacity queue msg
    by_cases hfull : queue.length = capacity
    · rw [if_pos hfull] at hlength
      simp [hfull, hlength, Nat.add_comm]
    · rw [if_neg hfull, Nat.add_zero] at hlength
      simp [hfull, hlength]
  | dequeue cancel =>
    cases queue with
    | nil => cases cancel <;> simp
    | cons msg queue => exact ⟨by simp, by simp [Nat.add_comm]⟩

/-- The list hands messages over in the order they came in, and accounts for every one of
them. -/
theorem answers_conserve {capacity : ℕ} (hcapacity : 0 < capacity) (queue : List Msg)
    (requests : List (Request Msg)) :
    (handedOver (Service.answers (fifoStep capacity) queue requests).1
        ++ (Service.answers (fifoStep capacity) queue requests).2).Sublist
          (queue ++ brought requests) ∧
      queue.length + (brought requests).length
        = drops (Service.answers (fifoStep capacity) queue requests).1
          + (handedOver (Service.answers (fifoStep capacity) queue requests).1).length
          + (Service.answers (fifoStep capacity) queue requests).2.length := by
  induction requests generalizing queue with
  | nil => simp [handedOver, brought, drops]
  | cons request requests ih =>
    obtain ⟨horder, hcount⟩ := fifoStep_conserves hcapacity queue request
    obtain ⟨horder', hcount'⟩ := ih (fifoStep capacity queue request).2
    rw [Service.answers_cons, handedOver_cons, brought_cons, drops_cons]
    constructor
    · rw [List.append_assoc, ← List.append_assoc queue]
      refine (horder'.append_left _).trans ?_
      rw [← List.append_assoc]
      exact horder.append_right _
    · dsimp only
      rw [List.length_append, List.length_append]
      omega

/-! ## The refinement -/

/-- How a request and its answer move the counters. -/
def Stats.book (stats : Stats) (request : Request Msg) (answer : Answer Msg) : Stats where
  enqueued := stats.enqueued + UInt64.ofNat request.brought.toList.length
  dropped := stats.dropped + UInt64.ofNat (if answer.reportsDrop then 1 else 0)
  drained := stats.drained + UInt64.ofNat answer.handed.toList.length

/-- The counters, as wrapping sums, count messages. -/
theorem Stats.tally_book (stats : Stats) {requests : List (Request Msg)}
    {answers : List (Answer Msg)} (h : answers.length = requests.length) :
    Service.tally Stats.book stats requests answers =
      ⟨stats.enqueued + UInt64.ofNat (brought requests).length,
        stats.dropped + UInt64.ofNat (drops answers),
        stats.drained + UInt64.ofNat (handedOver answers).length⟩ := by
  induction requests generalizing stats answers with
  | nil =>
    obtain rfl := List.length_eq_zero_iff.mp h
    simp [brought, drops, handedOver]
  | cons request requests ih =>
    obtain ⟨answer, answers, rfl⟩ := List.exists_cons_of_length_eq_add_one h
    rw [Service.tally_cons, ih _ (Nat.succ.inj h), brought_cons, drops_cons, handedOver_cons,
      List.length_append, List.length_append]
    simp only [Stats.book, UInt64.ofNat_add, UInt64.add_assoc,
      UInt64.add_comm (UInt64.ofNat (drops answers))]

namespace Dispatch

/-- The ring stands for the list of its messages. -/
structure Represents (capacity : ℕ) (q : Dispatch Msg) (queue : List Msg) : Prop where
  wellFormed : q.WellFormed
  capacity_eq : q.buffer.capacity = capacity
  contents_eq : q.contents = queue

/-- **One request to the ring is one request to the list**, for any alignment of the ring. -/
theorem step_refines {capacity : ℕ} (q : Dispatch Msg) (queue : List Msg) (request : Request Msg)
    (h : q.Represents capacity queue) :
    ∃ q', q.step request = .ok ((fifoStep capacity queue request).1, q') ∧
      q'.Represents capacity (fifoStep capacity queue request).2 ∧
      q'.stats = Stats.book q.stats request (fifoStep capacity queue request).1 := by
  obtain ⟨h, rfl, rfl⟩ := h
  cases request with
  | enqueue msg =>
    obtain ⟨q', henqueue, h', hcapacity, hcontents, hstats⟩ := h.enqueue_eq msg
    refine ⟨q', ?_, ⟨h', hcapacity, hcontents⟩, ?_⟩
    · simp only [step, henqueue, Outcome.ok_bind, fifoStep]
    · rw [hstats]
      by_cases hfull : q.contents.length = q.buffer.capacity <;> simp [Stats.book, hfull]
  | dequeue cancel =>
    cases hcontents : q.contents with
    | nil =>
      refine ⟨q, h.dequeueRound_nil hcontents cancel, ⟨h, rfl, hcontents⟩, ?_⟩
      cases cancel <;> simp [Stats.book]
    | cons msg rest =>
      obtain ⟨q', hround, h', hbuffer, hcontents', hstats⟩ := h.dequeueRound_cons hcontents cancel
      refine ⟨q', hround, ⟨h', by rw [hbuffer], hcontents'⟩, ?_⟩
      rw [hstats]
      simp [Stats.book]

/-- **The dispatch queue is a bounded FIFO list that drops its oldest message on overflow.**  For
every capacity, whatever the cells held, and every interleaving of producers and consumers: no
check trips, the answers are those of the list, what is handed over and what is queued is in the
order of the enqueues, and every message brought in was dropped, handed over or is queued.  The
counters say so too, as the wrapping counters they are. -/
theorem serve_eq_fifo (buffer : Buffer Msg) (requests : List (Request Msg)) :
    ∃ answers q, Service.serve step (init buffer) requests = .ok (answers, q) ∧
      (answers, q.contents) = Service.answers (fifoStep buffer.capacity) [] requests ∧
      (handedOver answers ++ q.contents).Sublist (brought requests) ∧
      (brought requests).length = drops answers + (handedOver answers).length + q.len ∧
      q.stats = ⟨UInt64.ofNat (brought requests).length, UInt64.ofNat (drops answers),
        UInt64.ofNat (handedOver answers).length⟩ ∧
      q.stats.enqueued = q.stats.dropped + q.stats.drained + UInt64.ofNat q.len := by
  have hinit : (init buffer).Represents buffer.capacity [] :=
    ⟨wellFormed_init buffer, rfl, contents_init buffer⟩
  have hcapacity : 0 < buffer.capacity := buffer.nonempty
  obtain ⟨q, hserve, hq, hstats⟩ :=
    Service.serve_refines (f := Dispatch.stats) step_refines hinit requests
  obtain ⟨horder, hcount⟩ := answers_conserve hcapacity ([] : List Msg) requests
  rw [Stats.tally_book _ (Service.length_answers _ _ _)] at hstats
  rw [← hq.contents_eq, List.nil_append] at horder
  rw [← hq.contents_eq, hq.wellFormed.length_contents, List.length_nil, Nat.zero_add] at hcount
  refine ⟨_, q, hserve, ?_, horder, hcount, ?_, ?_⟩
  · rw [hq.contents_eq]
  · rw [hstats]
    simp [init]
  · rw [hstats, hcount]
    simp [init, UInt64.ofNat_add]

end Dispatch
end Channels
end TigerClaw
