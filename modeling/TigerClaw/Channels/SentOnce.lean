import TigerClaw.Channels.Sender

/-!
# Sending a record at most once

A sender acks a record after it has been sent; where the ack does not get to the file, it keeps the
id in memory and passes the record over from then on.  Both go by the id of the record.  This module
is about runs of the sender's steps over a file that is left to the sender, pass after pass, with
any failures of its file operations.

* `copies`: the file, and what the sender has read of it.  `copies_step`: what a copy keeps.
* `Sound`: what holds in every state, of the copies and of the record in hand.
* `Settled`: what holds of a record from its `send` on.
* `Overlooked`: what holds of an unacked record behind another one with its id.
* `atMostOnce_iff`: no record is sent again after it has been sent, in any run over a file, exactly
  if the id of every unacked record leads to the record.
-/

namespace TigerClaw
namespace Channels
namespace SentOnce

/-! ## Copies of the file -/

/-- The records that a phase has in hand. -/
def Phase.copies : Phase → List (List Record)
  | .idle => []
  | .draining cursor | .sending cursor _ | .acking cursor _ | .failing cursor _ =>
    [cursor.records]
  | .recording cursor records => [cursor.records, records]

/-- The file and what has been read of it. -/
def copies (s : State) : List (List Record) := s.sender.file :: Phase.copies s.phase

/-- What neither an ack nor a recorded failure undoes. -/
structure Kept (P : List Record → Prop) : Prop where
  ack : ∀ l id i, P l → targetIndex l id = some i → P (l.modify i Record.acked)
  fail : ∀ l i r r', P l → l[i]? = some r → r'.id = r.id → r'.ack = r.ack → P (l.set i r')

/-- The record at a position has been acked. -/
def Acked (l : List Record) (i : ℕ) : Prop := ∃ r, l[i]? = some r ∧ r.ack = true

theorem kept_ids (ids : List Bytes) : Kept fun l => l.map Record.id = ids where
  ack l _ i h _ := by
    rw [← h]
    refine List.ext_getElem? fun j => ?_
    rw [List.getElem?_map, List.getElem?_map, List.getElem?_modify]
    cases l[j]? with
    | none => rfl
    | some r =>
      simp only [Option.map_some]
      split <;> rfl
  fail l i r r' h hr hid _ := by
    obtain ⟨hi, rfl⟩ := List.getElem?_eq_some_iff.mp hr
    have hi' : i < (l.map Record.id).length := by rwa [List.length_map]
    have hsame : r'.id = (l.map Record.id)[i] := by rw [List.getElem_map, hid]
    rw [List.map_set, hsame, List.set_getElem_self, h]

theorem kept_acked (i : ℕ) : Kept fun l => Acked l i where
  ack l _ j h _ := by
    obtain ⟨r, hr, hack⟩ := h
    rw [Acked, List.getElem?_modify, hr]
    refine ⟨_, rfl, ?_⟩
    split
    · rfl
    · exact hack
  fail l j r r' h hr _ hack := by
    obtain ⟨q, hq, hacked⟩ := h
    by_cases hj : j = i
    · subst hj
      obtain ⟨hlt, -⟩ := List.getElem?_eq_some_iff.mp hr
      obtain rfl := Option.some.inj (hr.symm.trans hq)
      exact ⟨r', List.getElem?_set_self hlt, hack.trans hacked⟩
    · exact ⟨q, (List.getElem?_set_ne hj).trans hq, hacked⟩

/-- A recorded failure keeps what is kept. -/
theorem Kept.recordFailure {P : List Record → Prop} (hP : Kept P) {l l' : List Record} {id : Bytes}
    {nowMs : Int64} (h : recordFailure l id nowMs = .ok l') (hl : P l) : P l' := by
  obtain ⟨i, r, r', -, hr, hfailed, rfl⟩ := recordFailure_eq_ok.mp h
  obtain ⟨-, -, hreply, hack⟩ := Record.failed_eq_ok.mp hfailed
  exact hP.fail l i r r' hl hr (congrArg Reply.id hreply) hack

/-! ## The steps of the sender -/

section Steps

variable {s s' : State}

theorem step_snapshot {fault : Option ReadError} (h : step s (.snapshot fault) = some s') :
    s.phase = .idle ∧
      (s' = { s with phase := .draining { records := s.sender.file } } ∨ s' = s) := by
  obtain ⟨sender, idCounter, phase, accepted⟩ := s
  cases phase <;> cases fault <;> cases h
  · exact ⟨rfl, .inl rfl⟩
  · exact ⟨rfl, .inr rfl⟩

/-- What `next` finds is an unacked record from where the cursor stands on. -/
theorem scan_eq_some {nowMs : Int64} {l : List Record} {i i' : ℕ} {p : Pending}
    (h : scan nowMs l i = (some p, i')) :
    ∃ j r, i' = i + j + 1 ∧ l[j]? = some r ∧ r.ack = false ∧ p = r.pending := by
  induction l generalizing i with
  | nil => cases h
  | cons r rs ih =>
    rw [scan] at h
    split at h
    · obtain ⟨j, q, hi, hq⟩ := ih h
      exact ⟨j + 1, q, by omega, hq⟩
    · rename_i hack
      split at h
      · obtain ⟨j, q, hi, hq⟩ := ih h
        exact ⟨j + 1, q, by omega, hq⟩
      · cases h
        exact ⟨0, r, rfl, rfl, eq_false_of_ne_true hack, rfl⟩

/-- What a cursor has in hand after `next`. -/
structure InHand (c : Cursor) (p : Pending) : Prop where
  pos : 0 < c.index
  record : ∃ r, c.records[c.index - 1]? = some r ∧ r.ack = false ∧ p = r.pending

theorem next_eq_some {c c' : Cursor} {nowMs : Int64} {p : Pending}
    (h : c.next nowMs = (some p, c')) :
    c'.records = c.records ∧ c.index < c'.index ∧ InHand c' p := by
  rw [Cursor.next] at h
  rcases hscan : scan nowMs (c.records.drop c.index) c.index with ⟨found, index⟩
  rw [hscan] at h
  obtain ⟨rfl, rfl⟩ := Prod.mk.inj h
  obtain ⟨j, r, rfl, hr, hack, rfl⟩ := scan_eq_some hscan
  rw [List.getElem?_drop] at hr
  exact ⟨rfl, by simp only; omega, Nat.succ_pos _, r, hr, hack, rfl⟩

theorem step_next {nowMs : Int64} (h : step s (.next nowMs) = some s') :
    ∃ c, s.phase = .draining c ∧
      (s' = { s with phase := .idle } ∨
        ∃ p c', c.next nowMs = (some p, c') ∧
          (s' = { s with phase := .draining c' } ∨
            s.sender.hasFailedAck p.id = false ∧ s' = { s with phase := .sending c' p })) := by
  obtain ⟨sender, idCounter, phase, accepted⟩ := s
  cases phase with
  | draining c =>
    refine ⟨c, rfl, ?_⟩
    simp only [step] at h
    split at h
    · exact .inl (Option.some.inj h).symm
    · rename_i p c' hnext
      refine .inr ⟨p, c', hnext, ?_⟩
      split at h
      · exact .inl (Option.some.inj h).symm
      · exact .inr ⟨eq_false_of_ne_true ‹_›, (Option.some.inj h).symm⟩
  | _ => cases h

theorem step_send {result : Except SendError Unit} (h : step s (.send result) = some s') :
    ∃ c p, s.phase = .sending c p ∧
      s' = { s with phase := if retries result then .failing c p else .acking c p } := by
  obtain ⟨sender, idCounter, phase, accepted⟩ := s
  cases phase with
  | sending c p =>
    refine ⟨c, p, rfl, ?_⟩
    simp only [step] at h
    split at h
    · rw [if_pos ‹_›]
      exact (Option.some.inj h).symm
    · rw [if_neg ‹_›]
      exact (Option.some.inj h).symm
  | _ => cases h

theorem step_ack {fault : Option AckError} (h : step s (.ack fault) = some s') :
    ∃ c p, s.phase = .acking c p ∧ s' = { s with
      sender := (s.sender.ackOrRemember c p.id fault).1
      phase := .draining (s.sender.ackOrRemember c p.id fault).2 } := by
  obtain ⟨sender, idCounter, phase, accepted⟩ := s
  cases phase with
  | acking c p => exact ⟨c, p, rfl, (Option.some.inj h).symm⟩
  | _ => cases h

theorem step_load {nowMs : Int64} {fault : Option ReadError}
    (h : step s (.load nowMs fault) = some s') :
    ∃ c p, s.phase = .failing c p ∧
      (s' = { s with phase := .draining c } ∨
        ∃ records, recordFailure s.sender.file p.id nowMs = .ok records ∧
          s' = { s with phase := .recording c records }) := by
  obtain ⟨sender, idCounter, phase, accepted⟩ := s
  cases phase with
  | failing c p =>
    refine ⟨c, p, rfl, ?_⟩
    simp only [step] at h
    split at h
    · cases h
    · exact .inl (Option.some.inj h).symm
    · rename_i records hload
      refine .inr ⟨records, ?_, (Option.some.inj h).symm⟩
      unfold Sender.loadFailure at hload
      split at hload
      · cases hload
      · split at hload
        · cases hload
        · split at hload
          · rename_i hrecords
            rw [hrecords]
            cases hload
            rfl
          · cases hload
          · cases hload
  | _ => cases h

theorem step_rewrite {fault : Option AckError} (h : step s (.rewrite fault) = some s') :
    ∃ c records, s.phase = .recording c records ∧
      s' = { s with sender := s.sender.rewriteFile records fault, phase := .draining c } := by
  obtain ⟨sender, idCounter, phase, accepted⟩ := s
  cases phase with
  | recording c records => exact ⟨c, records, rfl, (Option.some.inj h).symm⟩
  | _ => cases h

end Steps

/-- What an ack makes of the sender and the cursor. -/
theorem ackOrRemember_cases (sender : Sender) (c : Cursor) (id : Bytes) (fault : Option AckError) :
    (∃ i, targetIndex c.records id = some i ∧
      (sender.ackOrRemember c id fault).2 =
        { c with records := c.records.modify i Record.acked } ∧
      (fault = none ∧ (sender.ackOrRemember c id fault).1 =
          { sender with file := c.records.modify i Record.acked } ∨
        fault.isSome = true ∧
          (sender.ackOrRemember c id fault).1 = sender.rememberFailedAck id)) ∨
    targetIndex c.records id = none ∧
      sender.ackOrRemember c id fault = (sender.rememberFailedAck id, c) := by
  rw [Sender.ackOrRemember, Cursor.ack]
  cases targetIndex c.records id with
  | none => exact .inr ⟨rfl, rfl⟩
  | some i => cases fault <;> exact .inl ⟨i, rfl, rfl, by simp⟩

@[simp] theorem file_rememberFailedAck (sender : Sender) (id : Bytes) :
    (sender.rememberFailedAck id).file = sender.file := by
  unfold Sender.rememberFailedAck
  split <;> rfl

/-- **What is kept of all copies**: no step of the sender makes a copy but from another one, by an
ack or by a recorded failure. -/
theorem copies_step {P : List Record → Prop} (hP : Kept P) {s s' : State} {a : Action}
    (ha : a.isSender = true) (hstep : step s a = some s') (h : ∀ l ∈ copies s, P l) :
    ∀ l ∈ copies s', P l := by
  obtain ⟨hfile, hphase⟩ := List.forall_mem_cons.mp h
  cases a with
  | append msg nowUs nowMs => cases ha
  | snapshot fault =>
    obtain ⟨-, rfl | rfl⟩ := step_snapshot hstep
    · exact List.forall_mem_cons.mpr ⟨hfile, List.forall_mem_singleton.mpr hfile⟩
    · exact h
  | next nowMs =>
    obtain ⟨c, hc, rfl | ⟨p, c', hnext, rfl | ⟨-, rfl⟩⟩⟩ := step_next hstep
    · exact List.forall_mem_singleton.mpr hfile
    all_goals
      rw [hc, Phase.copies, List.forall_mem_singleton, ← (next_eq_some hnext).1] at hphase
      exact List.forall_mem_cons.mpr ⟨hfile, List.forall_mem_singleton.mpr hphase⟩
  | send result =>
    obtain ⟨c, p, hc, rfl⟩ := step_send hstep
    rw [hc] at hphase
    refine List.forall_mem_cons.mpr ⟨hfile, ?_⟩
    dsimp only
    split <;> exact hphase
  | ack fault =>
    obtain ⟨c, p, hc, rfl⟩ := step_ack hstep
    rw [hc, Phase.copies, List.forall_mem_singleton] at hphase
    rcases ackOrRemember_cases s.sender c p.id fault with
      ⟨i, hi, hcursor, ⟨-, hsender⟩ | ⟨-, hsender⟩⟩ | ⟨-, hboth⟩
    · rw [hcursor, hsender]
      exact List.forall_mem_cons.mpr ⟨hP.ack _ _ i hphase hi,
        List.forall_mem_singleton.mpr (hP.ack _ _ i hphase hi)⟩
    · rw [hcursor, hsender]
      exact List.forall_mem_cons.mpr ⟨by rwa [file_rememberFailedAck],
        List.forall_mem_singleton.mpr (hP.ack _ _ i hphase hi)⟩
    · rw [hboth]
      exact List.forall_mem_cons.mpr ⟨by rwa [file_rememberFailedAck],
        List.forall_mem_singleton.mpr hphase⟩
  | load nowMs fault =>
    obtain ⟨c, p, hc, rfl | ⟨records, hrecords, rfl⟩⟩ := step_load hstep
    · rw [hc] at hphase
      exact List.forall_mem_cons.mpr ⟨hfile, hphase⟩
    · rw [hc, Phase.copies, List.forall_mem_singleton] at hphase
      exact List.forall_mem_cons.mpr ⟨hfile, List.forall_mem_cons.mpr
        ⟨hphase, List.forall_mem_singleton.mpr (hP.recordFailure hrecords hfile)⟩⟩
  | rewrite fault =>
    obtain ⟨c, records, hc, rfl⟩ := step_rewrite hstep
    rw [hc, Phase.copies, List.forall_mem_cons, List.forall_mem_singleton] at hphase
    refine List.forall_mem_cons.mpr ⟨?_, List.forall_mem_singleton.mpr hphase.1⟩
    cases fault with
    | none => exact hphase.2
    | some _ => exact hfile

/-! ## What holds in every state -/

/-- The record that a phase has in hand. -/
def Phase.inHand : Phase → Option (Cursor × Pending)
  | .sending cursor pending | .acking cursor pending | .failing cursor pending =>
    some (cursor, pending)
  | _ => none

/-- Every copy has the ids of the file and what was acked in it; the record in hand has not been
acked, and is passed to `send` only if its ack has not failed. -/
structure Sound (file : List Record) (s : State) : Prop where
  ids : ∀ l ∈ copies s, l.map Record.id = file.map Record.id
  acked : ∀ i, Acked file i → ∀ l ∈ copies s, Acked l i
  hand : ∀ c p, Phase.inHand s.phase = some (c, p) → InHand c p
  fresh : ∀ c p, s.phase = .sending c p → s.sender.hasFailedAck p.id = false

theorem sound_start (file : List Record) (idCounter : UInt32) :
    Sound file (start { file } idCounter) where
  ids := List.forall_mem_singleton.mpr rfl
  acked := fun _ hi => List.forall_mem_singleton.mpr hi
  hand := fun _ _ h => nomatch h
  fresh := fun _ _ h => nomatch h

/-- **Every step of the sender keeps the invariant.** -/
theorem sound_step {file : List Record} {s s' : State} {a : Action} (ha : a.isSender = true)
    (h : Sound file s) (hstep : step s a = some s') : Sound file s' := by
  refine ⟨copies_step (kept_ids _) ha hstep h.ids,
    fun i hi => copies_step (kept_acked i) ha hstep (h.acked i hi), fun c p hhand => ?_,
    fun c p hsending => ?_⟩
  · cases a with
    | append msg nowUs nowMs => cases ha
    | snapshot fault =>
      obtain ⟨-, rfl | rfl⟩ := step_snapshot hstep
      · cases hhand
      · exact h.hand c p hhand
    | next nowMs =>
      obtain ⟨c₀, -, rfl | ⟨q, c', hnext, rfl | ⟨-, rfl⟩⟩⟩ := step_next hstep
      · cases hhand
      · cases hhand
      · cases hhand
        exact (next_eq_some hnext).2.2
    | send result =>
      obtain ⟨c₀, q, hc, rfl⟩ := step_send hstep
      have hsame : Phase.inHand (if retries result then .failing c₀ q else .acking c₀ q) =
          Phase.inHand s.phase := by
        rw [hc]
        split <;> rfl
      exact h.hand c p (hsame ▸ hhand)
    | ack fault =>
      obtain ⟨c₀, q, -, rfl⟩ := step_ack hstep
      cases hhand
    | load nowMs fault =>
      obtain ⟨c₀, q, -, rfl | ⟨records, -, rfl⟩⟩ := step_load hstep <;> cases hhand
    | rewrite fault =>
      obtain ⟨c₀, records, -, rfl⟩ := step_rewrite hstep
      cases hhand
  · cases a with
    | append msg nowUs nowMs => cases ha
    | snapshot fault =>
      obtain ⟨-, rfl | rfl⟩ := step_snapshot hstep
      · cases hsending
      · exact h.fresh c p hsending
    | next nowMs =>
      obtain ⟨c₀, -, rfl | ⟨q, c', -, rfl | ⟨hfresh, rfl⟩⟩⟩ := step_next hstep
      · cases hsending
      · cases hsending
      · cases hsending
        exact hfresh
    | send result =>
      obtain ⟨c₀, q, -, rfl⟩ := step_send hstep
      dsimp only at hsending
      split at hsending <;> cases hsending
    | ack fault =>
      obtain ⟨c₀, q, -, rfl⟩ := step_ack hstep
      cases hsending
    | load nowMs fault =>
      obtain ⟨c₀, q, -, rfl | ⟨records, -, rfl⟩⟩ := step_load hstep <;> cases hsending
    | rewrite fault =>
      obtain ⟨c₀, records, -, rfl⟩ := step_rewrite hstep
      cases hsending

/-- The record in hand is found by its id. -/
theorem InHand.exists_targetIndex {c : Cursor} {p : Pending} (h : InHand c p) :
    ∃ i, targetIndex c.records p.id = some i := by
  obtain ⟨r, hr, -, rfl⟩ := h.record
  exact Channels.exists_targetIndex (List.mem_of_getElem? hr)

/-! ## The ids that are remembered -/

/-- An ack that does not get to the file. -/
def Action.failsAck : Action → Bool
  | .ack fault => fault.isSome
  | _ => false

theorem rememberFailedAck_cases (sender : Sender) (id : Bytes) :
    (sender.rememberFailedAck id).failedAcks = sender.failedAcks ∧ 1024 ≤ sender.failedAcks.length ∨
      (sender.rememberFailedAck id).failedAcks = sender.failedAcks ++ [id] := by
  unfold Sender.rememberFailedAck
  split
  · exact .inl ⟨rfl, ‹_›⟩
  · exact .inr rfl

/-- **What is remembered**: nothing is forgotten, and at most one id is added, by a failed ack. -/
theorem failedAcks_step {file : List Record} {s s' : State} {a : Action} (ha : a.isSender = true)
    (h : Sound file s) (hstep : step s a = some s') :
    ∃ ids, s'.sender.failedAcks = s.sender.failedAcks ++ ids ∧
      ids.length ≤ if Action.failsAck a then 1 else 0 := by
  have hsame : ∀ s'' : State, s''.sender.failedAcks = s.sender.failedAcks →
      ∃ ids, s''.sender.failedAcks = s.sender.failedAcks ++ ids ∧
        ids.length ≤ if Action.failsAck a then 1 else 0 :=
    fun s'' h => ⟨[], by rw [h, List.append_nil], Nat.zero_le _⟩
  cases a with
  | append msg nowUs nowMs => cases ha
  | snapshot fault => obtain ⟨-, rfl | rfl⟩ := step_snapshot hstep <;> exact hsame _ rfl
  | next nowMs =>
    obtain ⟨c, -, rfl | ⟨p, c', -, rfl | ⟨-, rfl⟩⟩⟩ := step_next hstep <;> exact hsame _ rfl
  | send result =>
    obtain ⟨c, p, -, rfl⟩ := step_send hstep
    exact hsame _ rfl
  | ack fault =>
    obtain ⟨c, p, hc, rfl⟩ := step_ack hstep
    obtain ⟨i, hi⟩ := (h.hand c p (by rw [hc]; rfl)).exists_targetIndex
    rcases ackOrRemember_cases s.sender c p.id fault with
      ⟨j, -, -, ⟨-, hsender⟩ | ⟨hfault, hsender⟩⟩ | ⟨hnone, -⟩
    · exact hsame _ (by rw [hsender])
    · rw [hsender, Action.failsAck, if_pos hfault]
      rcases rememberFailedAck_cases s.sender p.id with ⟨hids, -⟩ | hids
      · exact ⟨[], by rw [hids, List.append_nil], Nat.zero_le _⟩
      · exact ⟨[p.id], hids, Nat.le_refl _⟩
    · exact absurd (hi.symm.trans hnone) (Option.some_ne_none _)
  | load nowMs fault =>
    obtain ⟨c, p, -, rfl | ⟨records, -, rfl⟩⟩ := step_load hstep <;> exact hsame _ rfl
  | rewrite fault =>
    obtain ⟨c, records, -, rfl⟩ := step_rewrite hstep
    cases fault <;> exact hsame _ rfl

theorem sound_run {file : List Record} {s s' : State} {actions : List Action}
    (hsender : ∀ a ∈ actions, a.isSender = true) (h : Sound file s)
    (hrun : StepMachine.run step s actions = some s') :
    Sound file s' ∧ s'.sender.failedAcks.length ≤
      s.sender.failedAcks.length + actions.countP Action.failsAck := by
  induction actions generalizing s with
  | nil => exact Option.some.inj hrun ▸ ⟨h, Nat.le_refl _⟩
  | cons a actions ih =>
    obtain ⟨s₁, hstep, hrest⟩ := StepMachine.run_cons_eq_some hrun
    obtain ⟨ha, hactions⟩ := List.forall_mem_cons.mp hsender
    obtain ⟨ids, hids, hlength⟩ := failedAcks_step ha h hstep
    obtain ⟨hsound, hle⟩ := ih hactions (sound_step ha h hstep) hrest
    refine ⟨hsound, ?_⟩
    rw [hids, List.length_append] at hle
    rw [List.countP_cons]
    omega

/-! ## From a successful `send` on -/

/-- The position of the record that is passed to `send` next. -/
def sendingAt (s : State) : Option ℕ :=
  match s.phase with
  | .sending cursor _ => some (cursor.index - 1)
  | _ => none

/-- The id of an unacked record leads to the record. -/
def Identified (file : List Record) : Prop :=
  ∀ i r, file[i]? = some r → r.ack = false → targetIndex file r.id = some i

/-- The record at a position, or its id, is marked. -/
def Marked (i : ℕ) (id : Bytes) (s : State) : Prop :=
  s.sender.hasFailedAck id = true ∨ ∀ l ∈ copies s, Acked l i

/-- The ack of the record at a position is about to come, or it is marked. -/
def Settled (i : ℕ) (id : Bytes) (s : State) : Prop :=
  (∃ c p, s.phase = .acking c p ∧ c.index = i + 1 ∧ p.id = id) ∨ Marked i id s

theorem marked_step {file : List Record} {s s' : State} {a : Action} {i : ℕ} {id : Bytes}
    (ha : a.isSender = true) (h : Sound file s) (hstep : step s a = some s')
    (hmarked : Marked i id s) : Marked i id s' := by
  rcases hmarked with hfailed | hacked
  · obtain ⟨ids, hids, -⟩ := failedAcks_step ha h hstep
    refine .inl ?_
    rw [Sender.hasFailedAck, hids, List.any_append, Bool.or_eq_true]
    exact .inl hfailed
  · exact .inr (copies_step (kept_acked i) ha hstep hacked)

/-- A record that has not been acked in a copy was not acked in the file. -/
theorem Sound.unacked {file : List Record} {s : State} (h : Sound file s) {l : List Record}
    (hl : l ∈ copies s) {i : ℕ} {r : Record} (hr : l[i]? = some r) (hack : r.ack = false) :
    ∃ r₀, file[i]? = some r₀ ∧ r₀.ack = false ∧ r₀.id = r.id := by
  have hids := congrArg (fun ids => ids[i]?) (h.ids l hl)
  simp only [List.getElem?_map, hr, Option.map_some] at hids
  obtain ⟨r₀, hr₀, hid⟩ := Option.map_eq_some_iff.mp hids.symm
  refine ⟨r₀, hr₀, eq_false_of_ne_true fun htrue => ?_, hid⟩
  obtain ⟨q, hq, hqacked⟩ := h.acked i ⟨r₀, hr₀, htrue⟩ l hl
  obtain rfl := Option.some.inj (hr.symm.trans hq)
  exact absurd (hack.symm.trans hqacked) Bool.false_ne_true

/-- **The ack of an identified record marks it**, in the file or in memory, where there is room. -/
theorem marked_ack {file : List Record} (hfile : Identified file) {s s' : State}
    {fault : Option AckError} (h : Sound file s)
    (hroom : fault.isSome = true → s.sender.failedAcks.length < 1024)
    (hstep : step s (.ack fault) = some s') {c : Cursor} {p : Pending} {i : ℕ}
    (hc : s.phase = .acking c p) (hindex : c.index = i + 1) : Marked i p.id s' := by
  obtain ⟨c', p', hc', rfl⟩ := step_ack hstep
  obtain ⟨rfl, rfl⟩ := Phase.acking.inj (hc.symm.trans hc')
  obtain ⟨r, hr, hack, rfl⟩ := (h.hand c p (by rw [hc]; rfl)).record
  rw [hindex, Nat.add_sub_cancel] at hr
  have hmem : c.records ∈ copies s := by
    rw [copies, hc]
    exact List.mem_cons_of_mem _ List.mem_cons_self
  obtain ⟨r₀, hr₀, hack₀, hid⟩ := h.unacked hmem hr hack
  have htarget : targetIndex c.records r.pending.id = some i := by
    rw [targetIndex_congr _ (h.ids _ hmem), Record.pending_id, ← hid]
    exact hfile i r₀ hr₀ hack₀
  have hacked : Acked (c.records.modify i Record.acked) i := by
    refine ⟨r.acked, ?_, rfl⟩
    rw [List.getElem?_modify_eq, hr]
    rfl
  rcases ackOrRemember_cases s.sender c r.pending.id fault with
    ⟨j, hj, hcursor, ⟨-, hsender⟩ | ⟨hfault, hsender⟩⟩ | ⟨hnone, -⟩
  · obtain rfl := Option.some.inj (htarget.symm.trans hj)
    rw [hcursor, hsender]
    exact .inr (List.forall_mem_cons.mpr ⟨hacked, List.forall_mem_singleton.mpr hacked⟩)
  · refine .inl ?_
    rcases rememberFailedAck_cases s.sender r.pending.id with ⟨-, hfull⟩ | hids
    · exact absurd (hroom hfault) (Nat.not_lt.mpr hfull)
    · rw [hsender, Sender.hasFailedAck, hids]
      simp
  · exact absurd (htarget.symm.trans hnone) (Option.some_ne_none _)

theorem settled_step {file : List Record} (hfile : Identified file) {s s' : State} {a : Action}
    {i : ℕ} {id : Bytes} (ha : a.isSender = true) (h : Sound file s)
    (hroom : Action.failsAck a = true → s.sender.failedAcks.length < 1024)
    (hstep : step s a = some s') (hsettled : Settled i id s) : Settled i id s' := by
  rcases hsettled with ⟨c, p, hc, hindex, rfl⟩ | hmarked
  · cases a with
    | ack fault => exact .inr (marked_ack hfile h hroom hstep hc hindex)
    | append msg nowUs nowMs => cases ha
    | snapshot fault => exact nomatch hc.symm.trans (step_snapshot hstep).1
    | next nowMs =>
      obtain ⟨c', hc', -⟩ := step_next hstep
      exact nomatch hc.symm.trans hc'
    | send result =>
      obtain ⟨c', p', hc', -⟩ := step_send hstep
      exact nomatch hc.symm.trans hc'
    | load nowMs fault =>
      obtain ⟨c', p', hc', -⟩ := step_load hstep
      exact nomatch hc.symm.trans hc'
    | rewrite fault =>
      obtain ⟨c', records, hc', -⟩ := step_rewrite hstep
      exact nomatch hc.symm.trans hc'
  · exact .inr (marked_step ha h hstep hmarked)

/-- A settled record is not passed to `send`. -/
theorem Settled.not_sendingAt {file : List Record} {s : State} {i : ℕ} {r : Record}
    (h : Sound file s) (hr : file[i]? = some r) (hsettled : Settled i r.id s) :
    sendingAt s ≠ some i := by
  intro hsending
  obtain ⟨sender, idCounter, phase, accepted⟩ := s
  cases phase with
  | sending c p =>
    obtain ⟨hpos, q, hq, hack, rfl⟩ := h.hand c p rfl
    have hindex : c.index - 1 = i := Option.some.inj hsending
    rw [hindex] at hq
    have hmem : c.records ∈ copies ⟨sender, idCounter, .sending c q.pending, accepted⟩ :=
      List.mem_cons_of_mem _ List.mem_cons_self
    obtain ⟨r₀, hr₀, -, hid⟩ := h.unacked hmem hq hack
    obtain rfl := Option.some.inj (hr.symm.trans hr₀)
    rcases hsettled with ⟨c', p', hc', -⟩ | hfailed | hacked
    · exact nomatch hc'
    · have hfresh := h.fresh c q.pending rfl
      rw [Record.pending_id, ← hid] at hfresh
      exact absurd (hfresh.symm.trans hfailed) Bool.false_ne_true
    · obtain ⟨q', hq', hacked'⟩ := hacked _ hmem
      obtain rfl := Option.some.inj (hq.symm.trans hq')
      exact absurd (hack.symm.trans hacked') Bool.false_ne_true
  | _ => cases hsending

theorem settled_run {file : List Record} (hfile : Identified file) {s s' : State}
    {actions : List Action} {i : ℕ} {id : Bytes} (hsender : ∀ a ∈ actions, a.isSender = true)
    (h : Sound file s)
    (hroom : s.sender.failedAcks.length + actions.countP Action.failsAck ≤ 1024)
    (hrun : StepMachine.run step s actions = some s') (hsettled : Settled i id s) :
    Settled i id s' := by
  induction actions generalizing s with
  | nil => exact Option.some.inj hrun ▸ hsettled
  | cons a actions ih =>
    obtain ⟨s₁, hstep, hrest⟩ := StepMachine.run_cons_eq_some hrun
    obtain ⟨ha, hactions⟩ := List.forall_mem_cons.mp hsender
    obtain ⟨ids, hids, hlength⟩ := failedAcks_step ha h hstep
    rw [List.countP_cons] at hroom
    refine ih hactions (sound_step ha h hstep) ?_ hrest
      (settled_step hfile ha h (fun hfails => ?_) hstep hsettled)
    · rw [hids, List.length_append]
      omega
    · rw [if_pos hfails] at hroom
      omega

/-! ## A record that is sent again and again -/

/-- A run of the sender's steps in which every ack gets to the file. -/
def CleanRun (s t : State) : Prop :=
  ∃ actions : List Action, (∀ a ∈ actions, a.isSender = true) ∧
    actions.countP Action.failsAck = 0 ∧ StepMachine.run step s actions = some t

theorem CleanRun.refl (s : State) : CleanRun s s := ⟨[], by simp, rfl, rfl⟩

theorem CleanRun.cons {s m t : State} {a : Action} (ha : a.isSender = true)
    (hfails : Action.failsAck a = false) (h : step s a = some m) (h' : CleanRun m t) :
    CleanRun s t := by
  obtain ⟨actions, hactions, hcount, hrun⟩ := h'
  refine ⟨a :: actions, List.forall_mem_cons.mpr ⟨ha, hactions⟩, ?_, ?_⟩
  · rw [List.countP_cons, hcount, hfails]
    rfl
  · rw [StepMachine.run_cons, h]
    exact hrun

theorem CleanRun.trans {s m t : State} (h : CleanRun s m) (h' : CleanRun m t) : CleanRun s t := by
  obtain ⟨as, has, hcount, hrun⟩ := h
  obtain ⟨bs, hbs, hcount', hrun'⟩ := h'
  refine ⟨as ++ bs, List.forall_mem_append.mpr ⟨has, hbs⟩, ?_, ?_⟩
  · rw [List.countP_append, hcount, hcount']
  · rw [StepMachine.run_append, hrun]
    exact hrun'

/-- The record at a position has not been acked, in a copy of the file. -/
def Open (file : List Record) (j : ℕ) (l : List Record) : Prop :=
  l.map Record.id = file.map Record.id ∧ ∃ r, l[j]? = some r ∧ r.ack = false

/-- **An ack does not reach a record that its id does not lead to.** -/
theorem kept_open {file : List Record} {j : ℕ}
    (hj : ∀ r, file[j]? = some r → targetIndex file r.id ≠ some j) : Kept (Open file j) where
  ack l id i h hi := by
    obtain ⟨hids, r, hr, hack⟩ := h
    refine ⟨(kept_ids _).ack l id i hids hi, r, ?_, hack⟩
    have hne : i ≠ j := by
      rintro rfl
      rw [targetIndex_congr id hids] at hi
      obtain ⟨hlt, hid, -⟩ := targetIndex_eq_some.mp hi
      exact hj _ (List.getElem?_eq_getElem hlt) (hid ▸ hi)
    rw [List.getElem?_modify_ne _ _ hne, hr]
  fail l i r r' h hr hid hack := by
    obtain ⟨hids, q, hq, hopen⟩ := h
    refine ⟨(kept_ids _).fail l i r r' hids hr hid hack, ?_⟩
    by_cases hi : i = j
    · subst hi
      obtain ⟨hlt, -⟩ := List.getElem?_eq_some_iff.mp hr
      obtain rfl := Option.some.inj (hr.symm.trans hq)
      exact ⟨r', List.getElem?_set_self hlt, hack.trans hopen⟩
    · exact ⟨q, (List.getElem?_set_ne hi).trans hq, hopen⟩

/-- A record that is open in all copies, and nothing remembered. -/
structure Overlooked (file : List Record) (j : ℕ) (s : State) : Prop where
  sound : Sound file s
  isOpen : ∀ l ∈ copies s, Open file j l
  failedAcks : s.sender.failedAcks = []

section Overlooked

variable {file : List Record} {j : ℕ}
  (hj : ∀ r, file[j]? = some r → targetIndex file r.id ≠ some j)

include hj in
theorem Overlooked.step {s s' : State} {a : Action} (h : Overlooked file j s)
    (ha : a.isSender = true) (hfails : Action.failsAck a = false)
    (hstep : Channels.step s a = some s') : Overlooked file j s' := by
  refine ⟨sound_step ha h.sound hstep, copies_step (kept_open hj) ha hstep h.isOpen, ?_⟩
  obtain ⟨ids, hids, hlength⟩ := failedAcks_step ha h.sound hstep
  rw [hfails] at hlength
  rw [hids, h.failedAcks, List.length_eq_zero_iff.mp (Nat.le_zero.mp hlength)]
  rfl

/-- Late enough, `next` finds the first unacked record. -/
theorem scan_maxValue {l : List Record} {k : ℕ} {r : Record} (hr : l[k]? = some r)
    (hack : r.ack = false) (i : ℕ) :
    ∃ p i', scan Int64.maxValue l i = (some p, i') ∧ i' ≤ i + k + 1 := by
  induction l generalizing i k with
  | nil => cases hr
  | cons q rs ih =>
    have hdue : ¬ Int64.maxValue < q.nextDueUnixMs :=
      Int64.not_lt.mpr (Int64.le_maxValue _)
    rw [scan]
    by_cases hq : q.ack = true
    · rw [if_pos hq]
      cases k with
      | zero =>
        obtain rfl := Option.some.inj hr
        exact absurd (hack.symm.trans hq) Bool.false_ne_true
      | succ k =>
        obtain ⟨p, i', hscan, hle⟩ := ih hr (i + 1)
        exact ⟨p, i', hscan, by omega⟩
    · rw [if_neg hq, if_neg hdue]
      exact ⟨q.pending, i + 1, rfl, by omega⟩

/-- A record that `next` finds is sent, and its ack gets to the file. -/
theorem Overlooked.settle {s : State} (h : Overlooked file j s) {c : Cursor} {p : Pending}
    (hc : s.phase = .sending c p) :
    ∃ s₁ t c', Channels.step s (.send (.ok ())) = some s₁ ∧ Channels.step s₁ (.ack none) = some t ∧
      t.phase = .draining c' ∧ c'.index = c.index := by
  obtain ⟨sender, idCounter, phase, accepted⟩ := s
  obtain rfl : phase = .sending c p := hc
  obtain ⟨i, hi⟩ := (h.sound.hand c p rfl).exists_targetIndex
  refine ⟨_, _, { c with records := c.records.modify i Record.acked }, rfl, rfl, ?_, rfl⟩
  rcases ackOrRemember_cases sender c p.id none with ⟨k, hk, hcursor, -⟩ | ⟨hnone, -⟩
  · obtain rfl := Option.some.inj (hi.symm.trans hk)
    exact congrArg Phase.draining hcursor
  · exact absurd (hi.symm.trans hnone) (Option.some_ne_none _)

include hj in
theorem Overlooked.settle_run {s : State} (h : Overlooked file j s) {c : Cursor} {p : Pending}
    (hc : s.phase = .sending c p) :
    ∃ t c', CleanRun s t ∧ Overlooked file j t ∧ t.phase = .draining c' ∧ c'.index = c.index := by
  obtain ⟨s₁, t, c', hsend, hack, ht, hindex⟩ := h.settle hc
  have h₁ := h.step hj rfl rfl hsend
  exact ⟨t, c', .cons rfl rfl hsend (.cons rfl rfl hack (.refl t)), h₁.step hj rfl rfl hack, ht,
    hindex⟩

/-- A `next` that finds nothing ends the pass. -/
theorem next_none {s : State} {c c' : Cursor} {nowMs : Int64} (hc : s.phase = .draining c)
    (hnext : c.next nowMs = (none, c')) :
    ∃ t, Channels.step s (.next nowMs) = some t ∧ t.phase = .idle := by
  obtain ⟨sender, idCounter, phase, accepted⟩ := s
  obtain rfl : phase = .draining c := hc
  exact ⟨⟨sender, idCounter, .idle, accepted⟩, by simp [Channels.step, hnext], rfl⟩

/-- What `next` finds is sent, as nothing is remembered. -/
theorem Overlooked.next_some {s : State} (h : Overlooked file j s) {c c' : Cursor} {p : Pending}
    {nowMs : Int64} (hc : s.phase = .draining c) (hnext : c.next nowMs = (some p, c')) :
    ∃ t, Channels.step s (.next nowMs) = some t ∧ t.phase = .sending c' p := by
  obtain ⟨sender, idCounter, phase, accepted⟩ := s
  obtain rfl : phase = .draining c := hc
  have hnone : sender.hasFailedAck p.id = false := by
    rw [Sender.hasFailedAck, show sender.failedAcks = [] from h.failedAcks]
    rfl
  exact ⟨⟨sender, idCounter, .sending c' p, accepted⟩,
    by simp [Channels.step, hnext, hnone], rfl⟩

theorem mem_copies_of_draining {s : State} {c : Cursor} (hc : s.phase = .draining c) :
    c.records ∈ copies s := by
  rw [copies, hc]
  exact List.mem_cons_of_mem _ List.mem_cons_self

include hj in
/-- **A pass comes to the open record**, by the records between the cursor and it. -/
theorem Overlooked.reach (left : ℕ) {s : State} (h : Overlooked file j s) {c : Cursor}
    (hc : s.phase = .draining c) (hindex : c.index ≤ j) (hleft : j - c.index < left) :
    ∃ t, CleanRun s t ∧ Overlooked file j t ∧ sendingAt t = some j := by
  induction left generalizing s c with
  | zero => omega
  | succ left ih =>
    obtain ⟨-, r, hr, hack⟩ := h.isOpen _ (mem_copies_of_draining hc)
    have hdrop : (c.records.drop c.index)[j - c.index]? = some r := by
      rw [List.getElem?_drop, Nat.add_sub_cancel' hindex, hr]
    obtain ⟨p, i', hscan, hle⟩ := scan_maxValue hdrop hack c.index
    have hfound : c.next Int64.maxValue = (some p, { c with index := i' }) := by
      rw [Cursor.next, hscan]
    have hlt : c.index < i' := (next_eq_some hfound).2.1
    obtain ⟨t, hstep, ht⟩ := h.next_some hc hfound
    have hover := h.step hj rfl rfl hstep
    rcases Nat.lt_or_ge j i' with hj' | hj'
    · refine ⟨t, .cons rfl rfl hstep (.refl t), hover, ?_⟩
      have hi' : i' - 1 = j := by omega
      rw [sendingAt, ht, ← hi']
    · obtain ⟨u, c', hrun, hover', hu, hindex'⟩ := hover.settle_run hj ht
      have hindex'' : c'.index = i' := hindex'
      obtain ⟨v, hrun', hv⟩ := ih hover' hu (by omega) (by omega)
      exact ⟨v, .cons rfl rfl hstep (hrun.trans hrun'), hv⟩

include hj in
/-- A pass comes to its end. -/
theorem Overlooked.finish (left : ℕ) {s : State} (h : Overlooked file j s) {c : Cursor}
    (hc : s.phase = .draining c) (hleft : file.length - c.index < left) :
    ∃ t, CleanRun s t ∧ Overlooked file j t ∧ t.phase = .idle := by
  induction left generalizing s c with
  | zero => omega
  | succ left ih =>
    have hlength : c.records.length = file.length := by
      have hids := congrArg List.length (h.isOpen _ (mem_copies_of_draining hc)).1
      rwa [List.length_map, List.length_map] at hids
    rcases hnext : c.next Int64.maxValue with ⟨_ | p, c'⟩
    · obtain ⟨t, hstep, ht⟩ := next_none hc hnext
      exact ⟨t, .cons rfl rfl hstep (.refl t), h.step hj rfl rfl hstep, ht⟩
    · obtain ⟨hrecords, hlt, hpos, r, hr, -⟩ := next_eq_some hnext
      have hbound := (List.getElem?_eq_some_iff.mp hr).1
      rw [hrecords] at hbound
      obtain ⟨t, hstep, ht⟩ := h.next_some hc hnext
      obtain ⟨u, c'', hrun, hover, hu, hindex⟩ := (h.step hj rfl rfl hstep).settle_run hj ht
      obtain ⟨v, hrun', hv⟩ := ih hover hu (by omega)
      exact ⟨v, .cons rfl rfl hstep (hrun.trans hrun'), hv⟩

include hj in
/-- **From one pass to the next**: a sender at rest comes to the open record. -/
theorem Overlooked.visit {s : State} (h : Overlooked file j s) (hidle : s.phase = .idle) :
    ∃ t, CleanRun s t ∧ Overlooked file j t ∧ sendingAt t = some j := by
  obtain ⟨sender, idCounter, phase, accepted⟩ := s
  obtain rfl : phase = .idle := hidle
  have hsnapshot : Channels.step ⟨sender, idCounter, .idle, accepted⟩ (.snapshot none) =
      some ⟨sender, idCounter, .draining { records := sender.file }, accepted⟩ := rfl
  obtain ⟨t, hrun, ht⟩ :=
    (h.step hj rfl rfl hsnapshot).reach hj _ rfl (Nat.zero_le _) (Nat.lt_succ_self _)
  exact ⟨t, .cons rfl rfl hsnapshot hrun, ht⟩

end Overlooked

/-! ## The result -/

/-- **No record is sent again** after it has been sent: in no run of the sender's steps over a file,
with fewer than 1024 failed acks. -/
def AtMostOnce (file : List Record) (idCounter : UInt32) : Prop :=
  ∀ (before middle : List Action) (s₁ s₂ : State) (i : ℕ),
    (∀ a ∈ before ++ middle, a.isSender = true) →
    (before ++ middle).countP Action.failsAck < 1024 →
    StepMachine.run step (start { file } idCounter) before = some s₁ → sendingAt s₁ = some i →
    StepMachine.run step s₁ (.send (.ok ()) :: middle) = some s₂ → sendingAt s₂ ≠ some i

theorem atMostOnce_of_identified {file : List Record} (hfile : Identified file)
    (idCounter : UInt32) : AtMostOnce file idCounter := by
  intro before middle s₁ s₂ i hsender hfew hbefore hi hmiddle
  obtain ⟨hsender₁, hsender₂⟩ := List.forall_mem_append.mp hsender
  rw [List.countP_append] at hfew
  obtain ⟨hsound, hlength⟩ := sound_run hsender₁ (sound_start file idCounter) hbefore
  have hstart : (start { file } idCounter).sender.failedAcks.length = 0 := rfl
  obtain ⟨s, hsend, hrest⟩ := StepMachine.run_cons_eq_some hmiddle
  obtain ⟨c, p, hc, rfl⟩ := step_send hsend
  obtain ⟨hpos, r, hr, hack, rfl⟩ := hsound.hand c p (by rw [hc]; rfl)
  have hmem : c.records ∈ copies s₁ := by
    rw [copies, hc]
    exact List.mem_cons_of_mem _ List.mem_cons_self
  have hindex : c.index - 1 = i := by
    rw [sendingAt, hc] at hi
    exact Option.some.inj hi
  rw [hindex] at hr
  obtain ⟨r₀, hr₀, -, hid⟩ := hsound.unacked hmem hr hack
  have hsound' := sound_step (a := .send (.ok ())) rfl hsound hsend
  have hsettled : Settled i r₀.id { s₁ with phase := .acking c r.pending } :=
    .inl ⟨c, r.pending, rfl, by omega, hid.symm⟩
  exact Settled.not_sendingAt (sound_run hsender₂ hsound' hrest).1 hr₀
    (settled_run hfile hsender₂ hsound' (by dsimp only; omega) hrest hsettled)

theorem identified_of_atMostOnce {file : List Record} {idCounter : UInt32}
    (h : AtMostOnce file idCounter) : Identified file := by
  intro j r hr hack
  by_contra hne
  have hj : ∀ q, file[j]? = some q → targetIndex file q.id ≠ some j := fun q hq =>
    Option.some.inj (hr.symm.trans hq) ▸ hne
  have hstart : Overlooked file j (start { file } idCounter) :=
    ⟨sound_start file idCounter, List.forall_mem_singleton.mpr ⟨rfl, r, hr, hack⟩, rfl⟩
  obtain ⟨s₁, ⟨before, hsender₁, hclean₁, hbefore⟩, hover, hsending⟩ := hstart.visit hj rfl
  -- the record is sent, and the pass goes on to its end
  obtain ⟨c, p, hc⟩ : ∃ c p, s₁.phase = .sending c p := by
    rw [sendingAt] at hsending
    split at hsending
    · rename_i c p hc
      exact ⟨c, p, hc⟩
    · cases hsending
  obtain ⟨s, t, c', hsend, hacked, ht, -⟩ := hover.settle hc
  have hsent := (hover.step hj rfl rfl hsend).step hj rfl rfl hacked
  obtain ⟨u, hfinish, hover', hu⟩ := hsent.finish hj _ ht (Nat.lt_succ_self _)
  obtain ⟨s₂, hvisit, -, hagain⟩ := hover'.visit hj hu
  obtain ⟨middle, hsender₂, hclean₂, hmiddle⟩ :=
    CleanRun.cons (a := .ack none) rfl rfl hacked (hfinish.trans hvisit)
  refine h before middle s₁ s₂ j (List.forall_mem_append.mpr ⟨hsender₁, hsender₂⟩) ?_ hbefore
    hsending ?_ hagain
  · rw [List.countP_append, hclean₁, hclean₂]
    omega
  · rw [StepMachine.run_cons, hsend]
    exact hmiddle

/-- **When a record is sent at most once**: over a file, whatever the sender meets, exactly if the
id of every unacked record leads to the record. -/
theorem atMostOnce_iff (file : List Record) (idCounter : UInt32) :
    AtMostOnce file idCounter ↔ Identified file :=
  ⟨identified_of_atMostOnce, fun h => atMostOnce_of_identified h idCounter⟩

/-- Two replies under one id: the ack of the second one goes to the first. -/
theorem not_atMostOnce_sameId :
    ¬ ∀ (file : List Record) (idCounter : UInt32), AtMostOnce file idCounter := by
  intro h
  let record : Record := { id := [1], conversationKey := [], text := [], nextDueUnixMs := 0 }
  have htarget := identified_of_atMostOnce (h [record, record] 0) 1 record rfl rfl
  exact absurd htarget (by decide)

end SentOnce
end Channels
end TigerClaw
