import TigerClaw.Channels.Sender
import TigerClaw.Library.Snapshot

/-!
# What one drain pass leaves in the file

A pass acks through the cursor, whose records are as old as the pass, and records a failure in the
file itself.  These are the two kinds of update of `TigerClaw.Library.Snapshot`, and the pass is
a run of them.

* `handed`: the positions whose records are passed to `send`, in order.
* `drainOnce_eq`: without failures of file operations, a pass is the run of the updates `sentOp` at
  these positions.
* `Settles`: what the file should look like afterwards.
* `drainOnce_settles_iff`: it does exactly when the outcomes are `Orderly`.
-/

namespace TigerClaw
namespace Channels

open Snapshot (Copies Op)

/-! ## The records that are sent -/

/-- The positions passed to `send` among the records from position `i` on, `nowMs` being the last
reading of the clock; `skip` says which ids are in `failed_acks`. -/
def handedFrom (env : Env) (skip : Bytes → Bool) : List Record → ℕ → Int64 → List ℕ
  | [], _, _ => []
  | r :: rs, i, nowMs =>
    if r.ack then handedFrom env skip rs (i + 1) nowMs
    else if nowMs < r.nextDueUnixMs then handedFrom env skip rs (i + 1) nowMs
    else
      (if skip r.id then [] else [i]) ++ handedFrom env skip rs (i + 1) (env.nowMs (i + 1))

/-- The positions of the file that a pass passes to `send`. -/
def handed (env : Env) (self : Sender) : List ℕ :=
  handedFrom env self.hasFailedAck self.file 0 (env.nowMs 0)

theorem handedFrom_of_scan_none {env : Env} {skip : Bytes → Bool} {nowMs : Int64}
    {l : List Record} {i i' : ℕ} (h : scan nowMs l i = (none, i')) :
    handedFrom env skip l i nowMs = [] := by
  induction l generalizing i with
  | nil => rfl
  | cons r rs ih =>
    rw [scan] at h
    rw [handedFrom]
    split at h
    · rw [if_pos ‹_›]
      exact ih h
    · rw [if_neg ‹_›]
      split at h
      · rw [if_pos ‹_›]
        exact ih h
      · simp at h

/-- What the loop of `next` finds is the next position to be handed out or skipped. -/
theorem handedFrom_of_scan_some (env : Env) (skip : Bytes → Bool) {nowMs : Int64}
    {l : List Record} {i i' : ℕ} {p : Pending} (h : scan nowMs l i = (some p, i')) :
    ∃ j r, i' = i + j + 1 ∧ l[j]? = some r ∧ p = r.pending ∧
      handedFrom env skip l i nowMs =
        (if skip r.id then [] else [i + j]) ++
          handedFrom env skip (l.drop (j + 1)) (i + j + 1) (env.nowMs (i + j + 1)) := by
  induction l generalizing i with
  | nil => simp [scan] at h
  | cons r rs ih =>
    rw [scan] at h
    rw [handedFrom]
    -- a record that is passed over shifts the position by one
    have hshift : scan nowMs rs (i + 1) = (some p, i') →
        ∃ j q, i' = i + j + 1 ∧ (r :: rs)[j]? = some q ∧ p = q.pending ∧
          handedFrom env skip rs (i + 1) nowMs =
            (if skip q.id then [] else [i + j]) ++
              handedFrom env skip ((r :: rs).drop (j + 1)) (i + j + 1)
                (env.nowMs (i + j + 1)) := by
      intro h
      obtain ⟨j, q, hi, hq, hp, hrest⟩ := ih h
      rw [show i + 1 + j = i + (j + 1) by omega] at hi hrest
      exact ⟨j + 1, q, hi, hq, hp, hrest⟩
    split at h
    · rw [if_pos ‹_›]
      exact hshift h
    · rw [if_neg ‹_›]
      split at h
      · rw [if_pos ‹_›]
        exact hshift h
      · rw [if_neg ‹_›]
        obtain ⟨rfl, rfl⟩ := by simpa using h
        exact ⟨0, r, rfl, rfl, rfl, rfl⟩

/-- They are unacked records of the file, in the order of the file. -/
theorem handedFrom_spec (env : Env) (skip : Bytes → Bool) (l : List Record) (i : ℕ)
    (nowMs : Int64) :
    (handedFrom env skip l i nowMs).Pairwise (· < ·) ∧
      ∀ j ∈ handedFrom env skip l i nowMs, i ≤ j ∧ ∃ r, l[j - i]? = some r ∧ r.ack = false := by
  induction l generalizing i nowMs with
  | nil => simp [handedFrom]
  | cons r rs ih =>
    have hshift : ∀ nowMs, ∀ j ∈ handedFrom env skip rs (i + 1) nowMs,
        i < j ∧ ∃ q, (r :: rs)[j - i]? = some q ∧ q.ack = false := by
      intro nowMs j hj
      obtain ⟨hle, q, hq, hack⟩ := (ih (i + 1) nowMs).2 j hj
      refine ⟨hle, q, ?_, hack⟩
      rw [show j - i = j - (i + 1) + 1 by omega]
      exact hq
    rw [handedFrom]
    split
    · exact ⟨(ih _ _).1, fun j hj => ⟨Nat.le_of_lt (hshift _ j hj).1, (hshift _ j hj).2⟩⟩
    · split
      · exact ⟨(ih _ _).1, fun j hj => ⟨Nat.le_of_lt (hshift _ j hj).1, (hshift _ j hj).2⟩⟩
      · rename_i hack _
        constructor
        · refine List.pairwise_append.mpr ⟨by split <;> simp, (ih _ _).1, fun a ha b hb => ?_⟩
          obtain rfl : a = i := by
            split at ha <;> simp at ha
            exact ha
          exact (hshift _ b hb).1
        · intro j hj
          rcases List.mem_append.mp hj with hj | hj
          · obtain rfl : j = i := by
              split at hj <;> simp at hj
              exact hj
            exact ⟨le_refl _, r, by simp, by simpa using hack⟩
          · exact ⟨Nat.le_of_lt (hshift _ j hj).1, (hshift _ j hj).2⟩

theorem handed_pairwise (env : Env) (self : Sender) : (handed env self).Pairwise (· < ·) :=
  (handedFrom_spec env _ _ 0 _).1

theorem unacked_of_mem_handed {env : Env} {self : Sender} {i : ℕ} (h : i ∈ handed env self) :
    ∃ r, self.file[i]? = some r ∧ r.ack = false :=
  ((handedFrom_spec env _ _ 0 _).2 i h).2

/-! ## A pass as a run of updates -/

/-- The position that the two rewrites find for the record at position `i`. -/
def target (file : List Record) (i : ℕ) : ℕ :=
  match file[i]? with
  | some r => (targetIndex file r.id).getD i
  | none => i

theorem targetIndex_eq_target {file : List Record} {i : ℕ} {r : Record} (h : file[i]? = some r) :
    targetIndex file r.id = some (target file i) := by
  obtain ⟨j, hj⟩ := exists_targetIndex (List.mem_of_getElem? h)
  simp only [target, h, hj, Option.getD_some]

theorem target_le {file : List Record} {i : ℕ} {r : Record} (h : file[i]? = some r) :
    target file i ≤ i := by
  obtain ⟨hlt, -, hfirst⟩ := targetIndex_eq_some.mp (targetIndex_eq_target h)
  by_contra hgt
  obtain ⟨hi, rfl⟩ := List.getElem?_eq_some_iff.mp h
  exact hfirst i (by omega) rfl

/-- The record that is found is found for itself. -/
theorem target_target {file : List Record} {i : ℕ} {r : Record} (h : file[i]? = some r) :
    target file (target file i) = target file i := by
  have htarget := targetIndex_eq_target h
  obtain ⟨hlt, hid, -⟩ := targetIndex_eq_some.mp htarget
  have hself := targetIndex_eq_target (List.getElem?_eq_getElem hlt)
  rw [hid, htarget] at hself
  exact (Option.some.inj hself).symm

/-- What a retryable failure makes of the record it is booked on, `attempts` being the count of the
one that was sent. -/
def Record.retried (self : Record) (attempts : UInt32) (nowMs : Int64) : Option Record :=
  if attempts.toNat + 1 = 2 ^ 32 then none else (self.failed nowMs).toOption

/-- A record's own count says nothing that `recordFailure` does not check itself. -/
theorem Record.retried_self (r : Record) (nowMs : Int64) :
    r.retried r.attempts nowMs = (r.failed nowMs).toOption := by
  rw [Record.retried]
  split
  · rename_i hcount
    have hadd : UInt32.checkedAdd r.attempts 1 = (.trap .overflow : Outcome AckError UInt32) :=
      if_neg (by rw [UInt32.toNat_one]; omega)
    rw [Record.failed, hadd]
    rfl
  · rfl

/-- What sending the record at position `i` does to the cursor's records and the file. -/
def sentOp (env : Env) (file : List Record) (i : ℕ) : Op Record :=
  if retries (env.send i) then
    .update (target file i) fun r =>
      file[i]?.bind fun sent => r.retried sent.attempts (env.failedAtMs i)
  else .writeBack (target file i) Record.acked

theorem sentOp_index (env : Env) (file : List Record) (i : ℕ) :
    (sentOp env file i).index = target file i := by
  rw [sentOp]
  split <;> rfl

theorem sentOp_isUpdate (env : Env) (file : List Record) (i : ℕ) :
    (sentOp env file i).isUpdate = retries (env.send i) := by
  rw [sentOp]
  split <;> simp_all [Op.isUpdate]

/-- The updates of a pass over the file, from two equal copies on. -/
def sentRun (env : Env) (self : Sender) : Option (Copies Record) :=
  StepMachine.run Snapshot.apply ⟨self.file, self.file⟩
    ((handed env self).map (sentOp env self.file))

theorem Record.failed_ne_error (r : Record) (nowMs : Int64) (e : AckError) :
    r.failed nowMs ≠ .error e := by
  have h32 : ∀ a b : UInt32, UInt32.checkedAdd a b ≠ (.error e : Outcome AckError UInt32) := by
    intro a b
    rw [UInt32.checkedAdd]
    split <;> simp
  have h64 : ∀ a b : Int64, Int64.checkedAdd a b ≠ (.error e : Outcome AckError Int64) := by
    intro a b
    rw [Int64.checkedAdd]
    split <;> simp
  have hcast : ∀ a : UInt64, UInt64.castInt64 a ≠ (.error e : Outcome AckError Int64) := by
    intro a
    rw [UInt64.castInt64]
    split <;> simp
  simp [Record.failed, Outcome.bind_eq_error, h32, h64, hcast]

/-- The state of a pass against the updates still to come: they lead to where all of them do. -/
structure Progress (env : Env) (init : Sender) (p : Pass) : Prop where
  cursorIds : p.cursor.records.map Record.id = init.file.map Record.id
  fileIds : p.sender.file.map Record.id = init.file.map Record.id
  /-- An ack reaches no further than the record it is for. -/
  rest : p.cursor.records.drop p.cursor.index = init.file.drop p.cursor.index
  failedAcks : p.sender.failedAcks = init.failedAcks
  run : StepMachine.run Snapshot.apply ⟨p.cursor.records, p.sender.file⟩
      ((handedFrom env init.hasFailedAck (init.file.drop p.cursor.index) p.cursor.index
        (env.nowMs p.cursor.index)).map (sentOp env init.file)) = sentRun env init

theorem progress_start (env : Env) (self : Sender) :
    Progress env self ⟨self, { records := self.file }⟩ :=
  ⟨rfl, rfl, rfl, rfl, rfl⟩

/-- What the pass should return. -/
def Drained (env : Env) (self : Sender) (r : Outcome ReadError Sender) : Prop :=
  ∀ sender, r = .ok sender ↔ ∃ t, sentRun env self = some t ∧ sender = { self with file := t.live }

theorem ids_of_replies {records records' : List Record}
    (h : records'.map Record.reply = records.map Record.reply) :
    records'.map Record.id = records.map Record.id := by
  have hid := congrArg (List.map Reply.id) h
  rw [List.map_map, List.map_map] at hid
  exact hid

theorem Progress.hasFailedAck {env : Env} {self : Sender} {p : Pass} (hp : Progress env self p)
    (id : Bytes) : p.sender.hasFailedAck id = self.hasFailedAck id := by
  rw [Sender.hasFailedAck, hp.failedAcks]
  rfl

/-- Where a pass stands once `next` has found the record at position `i`. -/
structure Found (env : Env) (init : Sender) (p : Pass) (i : ℕ) (r : Record) : Prop where
  next : p.cursor.next (env.nowMs p.cursor.index) =
    (some r.pending, { p.cursor with index := i + 1 })
  record : init.file[i]? = some r
  le : p.cursor.index ≤ i
  rest : p.cursor.records.drop (i + 1) = init.file.drop (i + 1)
  run : StepMachine.run Snapshot.apply ⟨p.cursor.records, p.sender.file⟩
      ((if init.hasFailedAck r.id then [] else [sentOp env init.file i]) ++
        (handedFrom env init.hasFailedAck (init.file.drop (i + 1)) (i + 1)
          (env.nowMs (i + 1))).map (sentOp env init.file)) = sentRun env init

/-- `next` finds nothing when no update is left, or else the record of the next update. -/
theorem Progress.next {env : Env} {self : Sender} {p : Pass} (hp : Progress env self p) :
    (∃ c, p.cursor.next (env.nowMs p.cursor.index) = (none, c) ∧
        sentRun env self = some ⟨p.cursor.records, p.sender.file⟩) ∨
      ∃ i r, Found env self p i r := by
  have hrun := hp.run
  rcases hscan : scan (env.nowMs p.cursor.index) (p.cursor.records.drop p.cursor.index)
    p.cursor.index with ⟨found, index⟩
  have hnext : p.cursor.next (env.nowMs p.cursor.index) = (found, { p.cursor with index }) := by
    rw [Cursor.next, hscan]
  rw [hp.rest] at hscan
  cases found with
  | none =>
    rw [handedFrom_of_scan_none hscan] at hrun
    exact .inl ⟨_, hnext, hrun.symm⟩
  | some pending =>
    obtain ⟨j, r, rfl, hr, rfl, hhanded⟩ :=
      handedFrom_of_scan_some env self.hasFailedAck hscan
    rw [hhanded, List.drop_drop, ← Nat.add_assoc, List.map_append] at hrun
    refine .inr ⟨p.cursor.index + j, r, hnext, ?_, Nat.le_add_right _ _, ?_, ?_⟩
    · rw [← hr, List.getElem?_drop]
    · have hdrop := congrArg (List.drop (j + 1)) hp.rest
      rw [List.drop_drop, List.drop_drop, ← Nat.add_assoc] at hdrop
      exact hdrop
    · rw [← hrun]
      split <;> rfl

section Round

variable {env : Env} {self : Sender} {p : Pass} {i : ℕ} {r : Record}

/-- A record whose id is in `failed_acks` is passed over. -/
theorem Found.skipped (hf : Found env self p i r) (hp : Progress env self p)
    (hskip : self.hasFailedAck r.id = true) :
    ∃ p', p.turn env {} = .again p' ∧ Progress env self p' ∧ p'.cursor.index = i + 1 := by
  have hrun := hf.run
  rw [if_pos hskip, List.nil_append] at hrun
  refine ⟨{ p with cursor := { p.cursor with index := i + 1 } }, ?_,
    ⟨hp.cursorIds, hp.fileIds, hf.rest, hp.failedAcks, hrun⟩, rfl⟩
  simp [Pass.turn, hf.next, hp.hasFailedAck, hskip]

/-- The update of a record that is sent is the first one left. -/
theorem Found.run_cons (hf : Found env self p i r) (hskip : ¬ self.hasFailedAck r.id = true) :
    ((Snapshot.apply ⟨p.cursor.records, p.sender.file⟩ (sentOp env self.file i)).bind fun s =>
        StepMachine.run Snapshot.apply s
          ((handedFrom env self.hasFailedAck (self.file.drop (i + 1)) (i + 1)
            (env.nowMs (i + 1))).map (sentOp env self.file))) = sentRun env self := by
  have hrun := hf.run
  rw [if_neg hskip, List.singleton_append, StepMachine.run_cons] at hrun
  exact hrun

/-- An ack changes the target's record in the cursor, and then puts the cursor in the file. -/
theorem Found.acked (hf : Found env self p i r) (hp : Progress env self p)
    (hskip : ¬ self.hasFailedAck r.id = true) (hsend : ¬ retries (env.send i) = true) :
    ∃ p', p.turn env {} = .again p' ∧ Progress env self p' ∧ p'.cursor.index = i + 1 := by
  have hrun := hf.run_cons hskip
  rw [sentOp, if_neg hsend] at hrun
  set records := p.cursor.records.modify (target self.file i) Record.acked with hrecords
  have hack : Cursor.ack { p.cursor with index := i + 1 } r.id = .ok ⟨records, i + 1⟩ :=
    Cursor.ack_eq_ok.mpr
      ⟨_, (targetIndex_congr r.id hp.cursorIds).trans (targetIndex_eq_target hf.record), rfl⟩
  have hids := (ids_of_replies (Cursor.ack_replies hack).1).trans hp.cursorIds
  have hrest : records.drop (i + 1) = self.file.drop (i + 1) := by
    have hle := target_le hf.record
    rw [hrecords, List.drop_modify_of_lt _ _ _ _ (by omega), hf.rest]
  refine ⟨⟨{ p.sender with file := records }, ⟨records, i + 1⟩⟩, ?_,
    ⟨hids, hids, hrest, hp.failedAcks, hrun⟩, rfl⟩
  simp [Pass.turn, hf.next, hp.hasFailedAck, hskip, hsend, Sender.ackOrRemember, hack]

/-- A failure changes the target's record in the file as it now is, or traps. -/
theorem Found.failed (hf : Found env self p i r) (hp : Progress env self p)
    (hskip : ¬ self.hasFailedAck r.id = true) (hsend : retries (env.send i) = true) :
    (∃ p', p.turn env {} = .again p' ∧ Progress env self p' ∧ p'.cursor.index = i + 1) ∨
      ∃ t, p.turn env {} = .leave (.trap t) ∧ sentRun env self = none := by
  have hrun := hf.run_cons hskip
  rw [sentOp, if_pos hsend] at hrun
  have hfound : targetIndex p.sender.file r.id = some (target self.file i) :=
    (targetIndex_congr r.id hp.fileIds).trans (targetIndex_eq_target hf.record)
  obtain ⟨hlt, -⟩ := targetIndex_eq_some.mp hfound
  set q := p.sender.file[target self.file i]
  have hq : p.sender.file[target self.file i]? = some q := List.getElem?_eq_getElem hlt
  have hsent : self.file[i]? = some r := hf.record
  by_cases hcount : r.pending.attempts.toNat + 1 = 2 ^ 32
  · have hload : p.sender.loadFailure r.pending (env.failedAtMs i) none = .error .overflow :=
      if_pos hcount
    have hretried : q.retried r.attempts (env.failedAtMs i) = none := if_pos hcount
    refine .inr ⟨.overflow, ?_, ?_⟩
    · simp [Pass.turn, hf.next, hp.hasFailedAck, hskip, hsend, hload]
    · rw [← hrun]
      simp [Snapshot.apply, hq, hsent, hretried]
  · have hretried : q.retried r.attempts (env.failedAtMs i) =
        (q.failed (env.failedAtMs i)).toOption := if_neg hcount
    cases hfailed : q.failed (env.failedAtMs i) with
    | ok q' =>
      have hrec : recordFailure p.sender.file r.id (env.failedAtMs i) =
          .ok (p.sender.file.set (target self.file i) q') :=
        recordFailure_eq_ok.mpr ⟨_, q, q', hfound, hq, hfailed, rfl⟩
      have hload : p.sender.loadFailure r.pending (env.failedAtMs i) none =
          .ok (some (p.sender.file.set (target self.file i) q')) := by
        rw [Sender.loadFailure, if_neg hcount, Record.pending_id, hrec]
      have hids := (ids_of_replies (recordFailure_replies hrec)).trans hp.fileIds
      refine .inl ⟨⟨{ p.sender with file := p.sender.file.set (target self.file i) q' },
        { p.cursor with index := i + 1 }⟩, ?_,
        ⟨hp.cursorIds, hids, hf.rest, hp.failedAcks, ?_⟩, rfl⟩
      · simp [Pass.turn, hf.next, hp.hasFailedAck, hskip, hsend, hload, Sender.rewriteFile]
      · rw [← hrun]
        simp [Snapshot.apply, hq, hsent, hretried, hfailed, Outcome.toOption]
    | error e => exact absurd hfailed (Record.failed_ne_error _ _ _)
    | trap t =>
      have hrec : recordFailure p.sender.file r.id (env.failedAtMs i) = .trap t := by
        simp [recordFailure, hfound, hq, hfailed]
      have hload : p.sender.loadFailure r.pending (env.failedAtMs i) none = .error t := by
        rw [Sender.loadFailure, if_neg hcount, Record.pending_id, hrec]
      refine .inr ⟨t, ?_, ?_⟩
      · simp [Pass.turn, hf.next, hp.hasFailedAck, hskip, hsend, hload]
      · rw [← hrun]
        simp [Snapshot.apply, hq, hsent, hretried, hfailed, Outcome.toOption]

/-- **One round of the loop is one update**, or none for a record that is skipped. -/
theorem turn_progress (hp : Progress env self p) :
    (∃ p', p.turn env {} = .again p' ∧ Progress env self p' ∧
        self.file.length - p'.cursor.index < self.file.length - p.cursor.index) ∨
      ∃ r, p.turn env {} = .leave r ∧ Drained env self r := by
  rcases hp.next with ⟨c, hnext, hrun⟩ | ⟨i, r, hf⟩
  · refine .inr ⟨.ok p.sender, by simp [Pass.turn, hnext], fun sender => ?_⟩
    have hsender : p.sender = { self with file := p.sender.file } := by
      rw [← hp.failedAcks]
    rw [hrun, Outcome.ok.injEq]
    constructor
    · rintro rfl
      exact ⟨_, rfl, hsender⟩
    · rintro ⟨t, ht, rfl⟩
      obtain rfl := Option.some.inj ht
      exact hsender
  · have hlt : i < self.file.length := (List.getElem?_eq_some_iff.mp hf.record).1
    have hle := hf.le
    have hagain : (∃ p', p.turn env {} = .again p' ∧ Progress env self p' ∧
        p'.cursor.index = i + 1) →
        ∃ p', p.turn env {} = .again p' ∧ Progress env self p' ∧
          self.file.length - p'.cursor.index < self.file.length - p.cursor.index := by
      rintro ⟨p', hturn, hp', hindex⟩
      exact ⟨p', hturn, hp', by omega⟩
    by_cases hskip : self.hasFailedAck r.id = true
    · exact .inl (hagain (hf.skipped hp hskip))
    · by_cases hsend : retries (env.send i) = true
      · rcases hf.failed hp hskip hsend with hp' | ⟨t, hturn, hnone⟩
        · exact .inl (hagain hp')
        · exact .inr ⟨.trap t, hturn, fun sender => by simp [hnone]⟩
      · exact .inl (hagain (hf.acked hp hskip hsend))

end Round

/-- **A pass is the run of its updates**: it returns when they all go through, and leaves the file
that they leave. -/
theorem drainOnce_eq (env : Env) (self : Sender) :
    ∃ r, drainOnce env {} self = some r ∧ Drained env self r :=
  Loop.loop_total (fun p => self.file.length - p.cursor.index) (fun _ => turn_progress)
    (progress_start env self) (by simp)

/-! ## What should be left -/

/-- **Backoff survives the pass.**  `after` is the file after a pass over `sender.file`: a record
whose send failed retryably has one more attempt, a due time moved on by the backoff of its old
count, and no ack; one that was delivered or rejected for good is acked; all others are as they
were. -/
structure Settles (env : Env) (sender : Sender) (after : List Record) : Prop where
  length : after.length = sender.file.length
  retried : ∀ i ∈ handed env sender, retries (env.send i) → ∀ r r', sender.file[i]? = some r →
    after[i]? = some r' →
      r'.attempts.toNat = r.attempts.toNat + 1 ∧
        r'.nextDueUnixMs.toInt = (env.failedAtMs i).toInt + (backoff r.attempts).toNat ∧
        r'.ack = false
  settled : ∀ i ∈ handed env sender, ¬ retries (env.send i) → ∀ r', after[i]? = some r' →
    r'.ack = true
  others : ∀ i, i ∉ handed env sender → after[i]? = sender.file[i]?

/-- When a pass leaves what it should. -/
structure Orderly (env : Env) (sender : Sender) : Prop where
  /-- A record that is sent is the first of its id in the file. -/
  first : ∀ i ∈ handed env sender, ∀ r, sender.file[i]? = some r →
    ∀ j < i, ∀ q, sender.file[j]? = some q → q.id ≠ r.id
  /-- After a retryable failure nothing is delivered or rejected for good. -/
  ordered : ∀ i ∈ handed env sender, ∀ j ∈ handed env sender, i < j →
    retries (env.send i) → retries (env.send j)
  /-- The new count and the new due time of a failed record fit their types. -/
  fits : ∀ i ∈ handed env sender, retries (env.send i) → ∀ r, sender.file[i]? = some r →
    r.attempts.toNat + 1 < 2 ^ 32 ∧
      -2 ^ 63 ≤ (env.failedAtMs i).toInt + (backoff r.attempts).toNat ∧
      (env.failedAtMs i).toInt + (backoff r.attempts).toNat < 2 ^ 63

/-- Being the first of one's id is being one's own target. -/
theorem target_eq_self_iff {file : List Record} {i : ℕ} {r : Record} (h : file[i]? = some r) :
    target file i = i ↔ ∀ j < i, ∀ q, file[j]? = some q → q.id ≠ r.id := by
  have htarget := targetIndex_eq_target h
  obtain ⟨hlt, hid, hfirst⟩ := targetIndex_eq_some.mp htarget
  constructor
  · rintro heq j hj q hq
    obtain ⟨hjl, rfl⟩ := List.getElem?_eq_some_iff.mp hq
    exact hfirst j (by omega)
  · intro hne
    by_contra hself
    have hlt' : target file i < i := lt_of_le_of_ne (target_le h) hself
    exact hne _ hlt' _ (List.getElem?_eq_getElem hlt) hid

theorem Record.exists_failed {r : Record} {nowMs : Int64}
    (ha : r.attempts.toNat + 1 < 2 ^ 32)
    (hl : -2 ^ 63 ≤ nowMs.toInt + (backoff r.attempts).toNat)
    (hu : nowMs.toInt + (backoff r.attempts).toNat < 2 ^ 63) : ∃ r', r.failed nowMs = .ok r' := by
  refine ⟨{ r with
    attempts := r.attempts + 1
    nextDueUnixMs := Int64.ofInt (nowMs.toInt + (backoff r.attempts).toNat) },
    Record.failed_eq_ok.mpr ⟨?_, Int64.toInt_ofInt_of_le hl hu, rfl, rfl⟩⟩
  rw [UInt32.toNat_add, UInt32.toNat_one]
  omega

section Result

variable {env : Env} {self : Sender} {t : Copies Record}

/-- A record that only shares its id with the one that is found is left alone. -/
theorem untouched_of_target_ne (h : sentRun env self = some t) {i : ℕ} {r : Record}
    (hr : self.file[i]? = some r) (hi : target self.file i ≠ i) : t.live[i]? = some r := by
  have hne : ∀ op ∈ (handed env self).map (sentOp env self.file), op.index ≠ i := by
    intro op hop heq
    obtain ⟨k, hk, rfl⟩ := List.mem_map.mp hop
    obtain ⟨q, hq, -⟩ := unacked_of_mem_handed hk
    rw [sentOp_index] at heq
    have := target_target hq
    rw [heq] at this
    exact hi this
  rw [(Snapshot.run_frame_eq h hne rfl).2, hr]

/-- Where every record that is sent is its own target, position `i` cuts the pass in two. -/
theorem handed_split (htarget : ∀ k ∈ handed env self, target self.file k = k) {i : ℕ}
    (hi : i ∈ handed env self) :
    ∃ as bs, handed env self = as ++ i :: bs ∧ (∀ k ∈ bs, i < k) ∧
      (∀ op ∈ as.map (sentOp env self.file), op.index ≠ i) ∧
      ∀ op ∈ bs.map (sentOp env self.file), op.index ≠ i := by
  obtain ⟨as, bs, hsplit⟩ := List.append_of_mem hi
  have hpw := handed_pairwise env self
  rw [hsplit] at hpw htarget
  obtain ⟨-, hpw', hcross⟩ := List.pairwise_append.mp hpw
  have hafter := (List.pairwise_cons.mp hpw').1
  refine ⟨as, bs, hsplit, hafter, ?_, ?_⟩
  · intro op hop
    obtain ⟨k, hk, rfl⟩ := List.mem_map.mp hop
    rw [sentOp_index, htarget k (by simp [hk])]
    exact ne_of_lt (hcross k hk i List.mem_cons_self)
  · intro op hop
    obtain ⟨k, hk, rfl⟩ := List.mem_map.mp hop
    rw [sentOp_index, htarget k (by simp [hk])]
    exact ne_of_gt (hafter k hk)

/-- A record that is sent and not retried ends up acked. -/
theorem acked_of_settled (h : sentRun env self = some t)
    (htarget : ∀ k ∈ handed env self, target self.file k = k) {i : ℕ} (hi : i ∈ handed env self)
    (hsend : ¬ retries (env.send i)) : t.live[i]? = self.file[i]?.map Record.acked := by
  obtain ⟨as, bs, hsplit, -, has, hbs⟩ := handed_split htarget hi
  have hop : sentOp env self.file i = .writeBack i Record.acked := by
    rw [sentOp, if_neg hsend, htarget i hi]
  rw [sentRun, hsplit, List.map_append, List.map_cons, hop] at h
  exact Snapshot.run_writeBack h has hbs

theorem sentOp_of_retried (htarget : ∀ k ∈ handed env self, target self.file k = k) {i : ℕ}
    (hi : i ∈ handed env self) (hsend : retries (env.send i)) {r : Record}
    (hr : self.file[i]? = some r) :
    sentOp env self.file i =
      .update i fun live => live.retried r.attempts (env.failedAtMs i) := by
  rw [sentOp, if_pos hsend, htarget i hi, hr]
  rfl

/-- A failure that nothing is written back after is there at the end. -/
theorem failed_of_retried (h : sentRun env self = some t)
    (htarget : ∀ k ∈ handed env self, target self.file k = k) {i : ℕ} (hi : i ∈ handed env self)
    (hsend : retries (env.send i)) {r : Record} (hr : self.file[i]? = some r)
    (hlater : ∀ j ∈ handed env self, i < j → retries (env.send j)) :
    t.live[i]? = (r.failed (env.failedAtMs i)).toOption := by
  obtain ⟨as, bs, hsplit, hlt, has, hbs⟩ := handed_split htarget hi
  rw [sentRun, hsplit, List.map_append, List.map_cons, sentOp_of_retried htarget hi hsend hr] at h
  rw [Snapshot.run_update h has hbs, hr, Option.bind_some, Record.retried_self]
  intro op hop
  obtain ⟨k, hk, rfl⟩ := List.mem_map.mp hop
  rw [sentOp_isUpdate]
  exact hlater k (by simp [hsplit, hk]) (hlt k hk)

/-- A failure that something is written back after is undone. -/
theorem undone_of_retried (h : sentRun env self = some t)
    (htarget : ∀ k ∈ handed env self, target self.file k = k) {i j : ℕ}
    (hi : i ∈ handed env self) (hj : j ∈ handed env self) (hlt : i < j)
    (hsend : retries (env.send i)) (hback : ¬ retries (env.send j)) :
    t.live[i]? = self.file[i]? := by
  obtain ⟨as, bs, hsplit, -, has, hbs⟩ := handed_split htarget hi
  have hjbs : j ∈ bs := by
    have hpw := handed_pairwise env self
    rw [hsplit] at hj hpw
    rcases List.mem_append.mp hj with hj | hj
    · have := (List.pairwise_append.mp hpw).2.2 j hj i List.mem_cons_self
      omega
    · exact (List.mem_cons.mp hj).resolve_left (by omega)
  obtain ⟨r, hr, -⟩ := unacked_of_mem_handed hi
  rw [sentRun, hsplit, List.map_append, List.map_cons, sentOp_of_retried htarget hi hsend hr] at h
  refine Snapshot.run_undone h has hbs ⟨_, List.mem_map_of_mem hjbs, ?_⟩
  rwa [sentOp_isUpdate]

end Result

theorem not_settles_of_same {env : Env} {self : Sender} {after : List Record}
    (hs : Settles env self after) {i : ℕ} (hi : i ∈ handed env self)
    (hsend : retries (env.send i)) : after[i]? ≠ self.file[i]? := by
  intro hsame
  obtain ⟨r, hr, -⟩ := unacked_of_mem_handed hi
  have hattempts := (hs.retried i hi hsend r r hr (hsame.trans hr)).1
  omega

/-- **A pass that leaves what it should was orderly.** -/
theorem orderly_of_settles {env : Env} {self : Sender} {t : Copies Record}
    (h : sentRun env self = some t) (hs : Settles env self t.live) : Orderly env self := by
  have htarget : ∀ i ∈ handed env self, target self.file i = i := by
    intro i hi
    by_contra hne
    obtain ⟨r, hr, hack⟩ := unacked_of_mem_handed hi
    have hsame := untouched_of_target_ne h hr hne
    by_cases hsend : retries (env.send i)
    · exact not_settles_of_same hs hi hsend (hsame.trans hr.symm)
    · have hacked := hs.settled i hi hsend r hsame
      rw [hack] at hacked
      exact absurd hacked (by decide)
  refine ⟨fun i hi r hr => (target_eq_self_iff hr).mp (htarget i hi), ?_, ?_⟩
  · intro i hi j hj hlt hsend
    by_contra hback
    exact not_settles_of_same hs hi hsend (undone_of_retried h htarget hi hj hlt hsend hback)
  · intro i hi hsend r hr
    have hlt : i < t.live.length := hs.length ▸ (List.getElem?_eq_some_iff.mp hr).1
    obtain ⟨ha, hd, -⟩ := hs.retried i hi hsend r _ hr (List.getElem?_eq_getElem hlt)
    have hlt32 := t.live[i].attempts.toNat_lt
    have hl := t.live[i].nextDueUnixMs.le_toInt
    have hu := t.live[i].nextDueUnixMs.toInt_lt
    exact ⟨by omega, by omega, by omega⟩

theorem Orderly.target_eq {env : Env} {self : Sender} (ho : Orderly env self) :
    ∀ i ∈ handed env self, target self.file i = i := by
  intro i hi
  obtain ⟨r, hr, -⟩ := unacked_of_mem_handed hi
  exact (target_eq_self_iff hr).mpr (ho.first i hi r hr)

/-- The updates of an orderly pass are at the positions that are sent. -/
theorem Orderly.map_index {env : Env} {self : Sender} (ho : Orderly env self) :
    ((handed env self).map (sentOp env self.file)).map Op.index = handed env self := by
  rw [List.map_map]
  conv_rhs => rw [← List.map_id (handed env self)]
  exact List.map_congr_left fun i hi => (sentOp_index env self.file i).trans (ho.target_eq i hi)

/-- No check trips in an orderly pass. -/
theorem exists_sentRun_of_orderly {env : Env} {self : Sender} (ho : Orderly env self) :
    ∃ t, sentRun env self = some t := by
  refine Snapshot.exists_run ?_ (fun _ _ => rfl) ?_
  · rw [ho.map_index]
    exact (handed_pairwise env self).imp fun hlt => ne_of_lt hlt
  · intro op hop
    obtain ⟨i, hi, rfl⟩ := List.mem_map.mp hop
    by_cases hsend : retries (env.send i)
    · obtain ⟨r, hr, -⟩ := unacked_of_mem_handed hi
      obtain ⟨ha, hl, hu⟩ := ho.fits i hi hsend r hr
      obtain ⟨r', hfailed⟩ := Record.exists_failed ha hl hu
      rw [sentOp_of_retried ho.target_eq hi hsend hr]
      refine ⟨r, r', hr, ?_⟩
      exact (r.retried_self _).trans (Outcome.toOption_eq_some.mpr hfailed)
    · rw [sentOp, if_neg hsend]
      trivial

/-- **An orderly pass leaves what it should.** -/
theorem settles_of_orderly {env : Env} {self : Sender} {t : Copies Record}
    (ho : Orderly env self) (ht : sentRun env self = some t) : Settles env self t.live := by
  refine ⟨(Snapshot.run_length ht rfl).1, ?_, ?_, ?_⟩
  · intro i hi hsend r r' hr hr'
    have hfailed := failed_of_retried ht ho.target_eq hi hsend hr fun j hj hlt =>
      ho.ordered i hi j hj hlt hsend
    rw [hr', eq_comm, Outcome.toOption_eq_some] at hfailed
    obtain ⟨ha, hd, -, hack⟩ := Record.failed_eq_ok.mp hfailed
    obtain ⟨q, hq, hunacked⟩ := unacked_of_mem_handed hi
    obtain rfl := Option.some.inj (hr.symm.trans hq)
    exact ⟨ha, hd, hack.trans hunacked⟩
  · intro i hi hsend r' hr'
    rw [acked_of_settled ht ho.target_eq hi hsend] at hr'
    obtain ⟨r, -, rfl⟩ := Option.map_eq_some_iff.mp hr'
    rfl
  · intro i hi
    refine (Snapshot.run_frame_eq ht (fun op hop heq => hi ?_) rfl).2
    rw [← ho.map_index, ← heq]
    exact List.mem_map_of_mem hop

/-- **When backoff survives a drain pass.**  For every file, every list of remembered ids and every
outcome of `send` for every due record, with no failure of a file operation: the pass returns with
a file in which every failed, delivered and untouched record is as it should be, exactly when the
pass was orderly. -/
theorem drainOnce_settles_iff (env : Env) (self : Sender) :
    (∃ after, drainOnce env {} self = some (.ok { self with file := after }) ∧
        Settles env self after) ↔
      Orderly env self := by
  obtain ⟨r, hdrain, hdrained⟩ := drainOnce_eq env self
  constructor
  · rintro ⟨after, hafter, hs⟩
    obtain rfl : r = .ok { self with file := after } :=
      Option.some.inj (hdrain.symm.trans hafter)
    obtain ⟨t, ht, heq⟩ := (hdrained _).mp rfl
    obtain rfl : after = t.live := congrArg Sender.file heq
    exact orderly_of_settles ht hs
  · intro ho
    obtain ⟨t, ht⟩ := exists_sentRun_of_orderly ho
    refine ⟨t.live, ?_, settles_of_orderly ho ht⟩
    rw [hdrain, (hdrained _).mpr ⟨t, ht, rfl⟩]

/-- A failure, then a delivery: the ack of the second record writes the first one back as it was
when the pass began. -/
theorem drainOnce_not_settles :
    ¬ ∀ (env : Env) (self : Sender),
      ∃ after, drainOnce env {} self = some (.ok { self with file := after }) ∧
        Settles env self after := by
  intro h
  let record (id : UInt8) : Record :=
    { id := [id], conversationKey := [], text := [], nextDueUnixMs := 0 }
  let env : Env :=
    { nowMs := fun _ => 0
      send := fun i => if i = 0 then .error .transportFailure else .ok ()
      failedAtMs := fun _ => 0 }
  let self : Sender := { file := [record 1, record 2] }
  obtain ⟨after, hdrain, hs⟩ := h env self
  have hrun : drainOnce env {} self =
      some (.ok { self with file := [record 1, (record 2).acked] }) := by decide
  have hafter : [record 1, (record 2).acked] = after :=
    congrArg Sender.file (Outcome.ok.inj (Option.some.inj (hrun.symm.trans hdrain)))
  refine not_settles_of_same hs (i := 0) (by decide) (by decide) ?_
  rw [← hafter]
  rfl

end Channels
end TigerClaw
