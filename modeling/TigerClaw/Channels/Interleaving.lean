import TigerClaw.Channels.Sender

/-!
# Appends between the steps of a drain pass

The worker thread appends while the sender thread drains.  The sender writes the file back from
records it has read earlier, so what matters is whether a reply was appended in between.

* `Undisturbed`: no file is written back from records read before an append.  It is read off the
  list of actions.
* `Moves`: what a step can do to the file and to the records in the sender's hands, with
  `moves_of_step`.
* `Sound`, `State.Lost`: how the records in hand compare with the accepted replies, before and
  after the first disturbed write.
* `replies_kept_iff`: a run keeps every accepted reply exactly when it is undisturbed.
* `drainOnce_replies`: a pass of its own keeps them all.
-/

namespace TigerClaw
namespace Channels

/-- **No reply is lost**: every reply accepted so far is in the file, in order, with its id, keys
and text. -/
def State.Kept (s : State) : Prop := s.accepted.Sublist (s.sender.file.map Record.reply)

instance (s : State) : Decidable s.Kept := inferInstanceAs (Decidable (List.Sublist _ _))

/-! ## Disturbed writes -/

/-- How many replies have been appended since the cursor's records were read, and since those of
`recordFailure` were. -/
structure Behind where
  cursor : ℕ
  load : ℕ

def Behind.after (b : Behind) : Action → Behind
  | .append .. => ⟨b.cursor + 1, b.load + 1⟩
  | .snapshot none => { b with cursor := 0 }
  | .load _ none => { b with load := 0 }
  | _ => b

/-- If the action writes the file back, then no reply was appended since its records were read.
`ack` writes the cursor's records, `rewrite` those that `recordFailure` has loaded. -/
def Behind.Current (b : Behind) : Action → Prop
  | .ack none => b.cursor = 0
  | .rewrite none => b.load = 0
  | _ => True

/-- No file is written back from records read before an append. -/
def Undisturbed : Behind → List Action → Prop
  | _, [] => True
  | b, a :: as => b.Current a ∧ Undisturbed (b.after a) as

/-- The sender's steps alone cannot disturb each other. -/
theorem undisturbed_of_isSender {b : Behind} (hc : b.cursor = 0) (hl : b.load = 0)
    {actions : List Action} (h : ∀ a ∈ actions, a.isSender) : Undisturbed b actions := by
  induction actions generalizing b with
  | nil => trivial
  | cons a as ih =>
    have has : ∀ a ∈ as, a.isSender := fun a ha => h a (List.mem_cons_of_mem _ ha)
    have ha : a.isSender := h a List.mem_cons_self
    rcases a with _ | (_ | _) | _ | _ | (_ | _) | ⟨_, _ | _⟩ | (_ | _)
    case append => simp [Action.isSender] at ha
    all_goals exact ⟨by simp [Behind.Current, hc, hl], ih (by simp [Behind.after, hc])
      (by simp [Behind.after, hl]) has⟩

/-! ## What a step can do -/

/-- What a step does to the file, to the accepted replies and to the records in hand. -/
inductive Moves (s : State) : Action → State → Prop
  | appended (msg : OutboundMessage) (nowUs nowMs : Int64) (r : Record) (n : UInt32) :
    Moves s (.append msg nowUs nowMs)
      ⟨{ s.sender with file := s.sender.file ++ [r] }, n, s.phase, s.accepted ++ [r.reply]⟩
  | opened (hphase : s.phase = .idle) :
    Moves s (.snapshot none) { s with phase := .draining { records := s.sender.file } }
  | openFailed (e : ReadError) (hphase : s.phase = .idle) : Moves s (.snapshot (some e)) s
  | drained (nowMs : Int64) : Moves s (.next nowMs) { s with phase := .idle }
  | skipped (nowMs : Int64) (c c' : Cursor) (hphase : s.phase = .draining c)
      (hc : c'.records = c.records) : Moves s (.next nowMs) { s with phase := .draining c' }
  | found (nowMs : Int64) (c c' : Cursor) (p : Pending) (hphase : s.phase = .draining c)
      (hc : c'.records = c.records) (hp : p.id ∈ c.records.map Record.id) :
    Moves s (.next nowMs) { s with phase := .sending c' p }
  | sent (result : Except SendError Unit) (c : Cursor) (p : Pending) (phase : Phase)
      (hphase : s.phase = .sending c p) (h : phase = .failing c p ∨ phase = .acking c p) :
    Moves s (.send result) { s with phase }
  | acked (c c' : Cursor) (p : Pending) (hphase : s.phase = .acking c p)
      (hc : c'.records.map Record.reply = c.records.map Record.reply) :
    Moves s (.ack none)
      { s with sender := { s.sender with file := c'.records }, phase := .draining c' }
  | ackFailed (fault : Option AckError) (c c' : Cursor) (p : Pending) (failedAcks : List Bytes)
      (hphase : s.phase = .acking c p)
      (hc : c'.records.map Record.reply = c.records.map Record.reply)
      (hp : fault = none → p.id ∉ c.records.map Record.id) :
    Moves s (.ack fault)
      { s with sender := { s.sender with failedAcks }, phase := .draining c' }
  | loaded (nowMs : Int64) (c : Cursor) (p : Pending) (records : List Record)
      (hphase : s.phase = .failing c p)
      (hr : records.map Record.reply = s.sender.file.map Record.reply) :
    Moves s (.load nowMs none) { s with phase := .recording c records }
  | loadFailed (nowMs : Int64) (fault : Option ReadError) (c : Cursor) (p : Pending)
      (hphase : s.phase = .failing c p) :
    Moves s (.load nowMs fault) { s with phase := .draining c }
  | rewritten (c : Cursor) (records : List Record) (hphase : s.phase = .recording c records) :
    Moves s (.rewrite none)
      { s with sender := { s.sender with file := records }, phase := .draining c }
  | rewriteFailed (e : AckError) (c : Cursor) (records : List Record)
      (hphase : s.phase = .recording c records) :
    Moves s (.rewrite (some e)) { s with phase := .draining c }

/-- What `next` hands out stands in the cursor's records. -/
theorem mem_of_scan {nowMs : Int64} {records : List Record} {index index' : ℕ} {p : Pending}
    (h : scan nowMs records index = (some p, index')) : p.id ∈ records.map Record.id := by
  induction records generalizing index with
  | nil => simp [scan] at h
  | cons r rs ih =>
    rw [scan] at h
    rw [List.map_cons, List.mem_cons]
    split at h
    · exact .inr (ih h)
    · split at h
      · exact .inr (ih h)
      · obtain ⟨rfl, -⟩ := by simpa using h
        exact .inl rfl

theorem Cursor.next_records {c c' : Cursor} {nowMs : Int64} {found : Option Pending}
    (h : c.next nowMs = (found, c')) : c'.records = c.records := by
  obtain ⟨-, rfl⟩ := Prod.mk.inj h
  rfl

theorem Cursor.next_mem {c c' : Cursor} {nowMs : Int64} {p : Pending}
    (h : c.next nowMs = (some p, c')) : p.id ∈ c.records.map Record.id := by
  rcases hscan : scan nowMs (c.records.drop c.index) c.index with ⟨found, index⟩
  obtain ⟨rfl, -⟩ : found = some p ∧ _ := by simpa [Cursor.next, hscan] using h
  have hmem := mem_of_scan hscan
  rw [List.map_drop] at hmem
  exact List.mem_of_mem_drop hmem

theorem Sender.ackOrRemember_cases (self : Sender) (c : Cursor) (id : Bytes)
    (fault : Option AckError) :
    ∃ c', c'.records.map Record.reply = c.records.map Record.reply ∧
      (fault = none ∧ self.ackOrRemember c id fault = ({ self with file := c'.records }, c') ∨
        (fault = none → id ∉ c.records.map Record.id) ∧
          ∃ failedAcks, self.ackOrRemember c id fault = ({ self with failedAcks }, c')) := by
  have hremember : ∃ failedAcks, self.rememberFailedAck id = { self with failedAcks } := by
    rw [rememberFailedAck]
    split
    · exact ⟨self.failedAcks, rfl⟩
    · exact ⟨_, rfl⟩
  obtain ⟨failedAcks, hremember⟩ := hremember
  rw [ackOrRemember]
  cases hack : c.ack id with
  | error e =>
    refine ⟨c, rfl, .inr ⟨?_, failedAcks, by rw [hremember]⟩⟩
    rintro - hid
    obtain ⟨r, hr, rfl⟩ := List.mem_map.mp hid
    obtain ⟨i, hi⟩ := exists_targetIndex hr
    simp [Cursor.ack, hi] at hack
  | ok c' =>
    refine ⟨c', (Cursor.ack_replies hack).1, ?_⟩
    cases fault with
    | none => exact .inl ⟨rfl, rfl⟩
    | some e => exact .inr ⟨by simp, failedAcks, by rw [hremember]⟩

/-- Records to write come from a `recordFailure` that went through. -/
theorem Sender.loadFailure_eq_ok {self : Sender} {p : Pending} {nowMs : Int64}
    {fault : Option ReadError} {loaded : Option (List Record)}
    (h : self.loadFailure p nowMs fault = .ok loaded) :
    loaded = none ∨ fault = none ∧ ∃ records, loaded = some records ∧
      recordFailure self.file p.id nowMs = .ok records := by
  unfold loadFailure at h
  split at h
  · cases h
  · cases fault with
    | some e => exact .inl (Except.ok.inj h).symm
    | none =>
      cases hrec : recordFailure self.file p.id nowMs with
      | ok records =>
        rw [hrec] at h
        exact .inr ⟨rfl, records, (Except.ok.inj h).symm, rfl⟩
      | error e =>
        rw [hrec] at h
        exact .inl (Except.ok.inj h).symm
      | trap t =>
        rw [hrec] at h
        cases h

/-- A step is one of the moves. -/
theorem moves_of_step {s s' : State} {a : Action} (h : step s a = some s') : Moves s a s' := by
  cases a with
  | append msg nowUs nowMs =>
    obtain rfl := by simpa [step] using h
    exact .appended msg nowUs nowMs
      (newRecord (generateId nowUs s.idCounter) msg nowMs) (s.idCounter + 1)
  | snapshot fault =>
    cases hphase : s.phase <;> cases fault <;> simp [step, hphase] at h
    case idle.none => exact h ▸ .opened hphase
    case idle.some e => exact h ▸ .openFailed e hphase
  | next nowMs =>
    cases hphase : s.phase <;> simp [step, hphase] at h
    case draining c =>
      rcases hnext : c.next nowMs with ⟨_ | p, c'⟩
      · rw [hnext] at h
        exact Option.some.inj h ▸ .drained nowMs
      · simp only [hnext] at h
        split at h
        · exact Option.some.inj h ▸ .skipped nowMs c c' hphase (Cursor.next_records hnext)
        · exact Option.some.inj h ▸ .found nowMs c c' p hphase (Cursor.next_records hnext)
            (Cursor.next_mem hnext)
  | send result =>
    cases hphase : s.phase <;> simp [step, hphase] at h
    case sending c p =>
      split at h
      · exact Option.some.inj h ▸ .sent result c p _ hphase (.inl rfl)
      · exact Option.some.inj h ▸ .sent result c p _ hphase (.inr rfl)
  | ack fault =>
    cases hphase : s.phase <;> simp [step, hphase] at h
    case acking c p =>
      obtain ⟨c', hc, ⟨rfl, hack⟩ | ⟨hp, failedAcks, hack⟩⟩ :=
        s.sender.ackOrRemember_cases c p.id fault
      · rw [hack] at h
        exact h ▸ .acked c c' p hphase hc
      · rw [hack] at h
        exact h ▸ .ackFailed fault c c' p failedAcks hphase hc hp
  | load nowMs fault =>
    cases hphase : s.phase <;> simp [step, hphase] at h
    case failing c p =>
      cases hload : s.sender.loadFailure p nowMs fault with
      | error t => simp [hload] at h
      | ok loaded =>
        rcases Sender.loadFailure_eq_ok hload with rfl | ⟨rfl, records, rfl, hrec⟩
        · obtain rfl := by simpa [hload] using h
          exact .loadFailed nowMs fault c p hphase
        · obtain rfl := by simpa [hload] using h
          exact .loaded nowMs c p records hphase (recordFailure_replies hrec)
  | rewrite fault =>
    cases hphase : s.phase <;> simp [step, hphase] at h
    case recording c records =>
      cases fault with
      | none => exact h ▸ .rewritten c records hphase
      | some e => exact h ▸ .rewriteFailed e c records hphase

/-! ## The records in hand -/

/-- The records are the accepted replies without the last `k`. -/
structure Holds (accepted : List Reply) (k : ℕ) (records : List Record) : Prop where
  isPrefix : records.map Record.reply <+: accepted
  length : records.length + k = accepted.length

namespace Holds

variable {accepted : List Reply} {k : ℕ} {records records' : List Record}

/-- One more reply accepted, one more behind. -/
theorem append (h : Holds accepted k records) (x : Reply) :
    Holds (accepted ++ [x]) (k + 1) records where
  isPrefix := h.isPrefix.trans (List.prefix_append _ _)
  length := by
    have := h.length
    rw [List.length_append, List.length_singleton]
    omega

/-- The file itself takes the new reply in. -/
theorem append_file (h : Holds accepted 0 records) (r : Record) :
    Holds (accepted ++ [r.reply]) 0 (records ++ [r]) where
  isPrefix := by
    rw [List.map_append, h.isPrefix.eq_of_length (by simpa using h.length)]
    exact List.prefix_refl _
  length := by simpa using h.length

/-- Only what the records say counts. -/
theorem congr (h : Holds accepted k records)
    (heq : records'.map Record.reply = records.map Record.reply) : Holds accepted k records' where
  isPrefix := heq ▸ h.isPrefix
  length := by
    have := congrArg List.length heq
    rw [List.length_map, List.length_map] at this
    rw [this, h.length]

theorem lt_of_ne_zero (h : Holds accepted k records) (hk : k ≠ 0) :
    records.length < accepted.length := by
  have := h.length
  omega

end Holds

/-- What the sender holds in each phase, where the cursor's records and those of `recordFailure`
are `b` behind. -/
def Phase.Sound (accepted : List Reply) (b : Behind) : Phase → Prop
  | .idle => True
  | .draining c => Holds accepted b.cursor c.records
  | .sending c p | .acking c p | .failing c p =>
    Holds accepted b.cursor c.records ∧ p.id ∈ c.records.map Record.id
  | .recording c records =>
    Holds accepted b.cursor c.records ∧ Holds accepted b.load records ∧ b.load ≤ b.cursor

/-- The invariant of an undisturbed run. -/
structure Sound (b : Behind) (s : State) : Prop where
  file : Holds s.accepted 0 s.sender.file
  phase : s.phase.Sound s.accepted b

theorem Phase.Sound.append {accepted : List Reply} {b : Behind} {phase : Phase}
    (h : phase.Sound accepted b) (x : Reply) :
    phase.Sound (accepted ++ [x]) ⟨b.cursor + 1, b.load + 1⟩ := by
  cases phase with
  | idle => trivial
  | draining c => exact Holds.append h x
  | sending c p | acking c p | failing c p => exact ⟨h.1.append x, h.2⟩
  | recording c records => exact ⟨h.1.append x, h.2.1.append x, by simpa using h.2.2⟩

/-- **A current step keeps the invariant.** -/
theorem sound_of_moves {b : Behind} {s s' : State} {a : Action} (hs : Sound b s)
    (hcur : b.Current a) (h : Moves s a s') : Sound (b.after a) s' := by
  obtain ⟨hfile, hphase⟩ := hs
  cases h with
  | appended msg nowUs nowMs r n => exact ⟨hfile.append_file r, hphase.append r.reply⟩
  | opened hidle => exact ⟨hfile, hfile⟩
  | openFailed e hidle => exact ⟨hfile, by rw [hidle]; trivial⟩
  | drained nowMs => exact ⟨hfile, trivial⟩
  | skipped nowMs c c' hdraining hc =>
    rw [hdraining] at hphase
    exact ⟨hfile, Holds.congr hphase (by rw [hc])⟩
  | found nowMs c c' p hdraining hc hp =>
    rw [hdraining] at hphase
    exact ⟨hfile, Holds.congr hphase (by rw [hc]), hc ▸ hp⟩
  | sent result c p phase hsending h =>
    rw [hsending] at hphase
    rcases h with rfl | rfl <;> exact ⟨hfile, hphase⟩
  | acked c c' p hacking hc =>
    rw [hacking] at hphase
    obtain ⟨hcursor, -⟩ := hphase
    have hzero : b.cursor = 0 := hcur
    exact ⟨hzero ▸ hcursor.congr hc, hcursor.congr hc⟩
  | ackFailed fault c c' p failedAcks hacking hc hp =>
    rw [hacking] at hphase
    refine ⟨hfile, ?_⟩
    cases fault <;> exact hphase.1.congr hc
  | loaded nowMs c p records hfailing hr =>
    rw [hfailing] at hphase
    exact ⟨hfile, hphase.1, hfile.congr hr, Nat.zero_le _⟩
  | loadFailed nowMs fault c p hfailing =>
    rw [hfailing] at hphase
    refine ⟨hfile, ?_⟩
    cases fault <;> exact hphase.1
  | rewritten c records hrecording =>
    rw [hrecording] at hphase
    have hzero : b.load = 0 := hcur
    exact ⟨hzero ▸ hphase.2.1, hphase.1⟩
  | rewriteFailed e c records hrecording =>
    rw [hrecording] at hphase
    exact ⟨hfile, hphase.1⟩

/-! ## After a disturbed write -/

/-- The lists of records the sender may still write back. -/
def Phase.inHand : Phase → List (List Record)
  | .idle => []
  | .draining c | .sending c _ | .acking c _ | .failing c _ => [c.records]
  | .recording c records => [c.records, records]

/-- A reply is gone from the file and from everything the sender holds. -/
structure State.Lost (s : State) : Prop where
  file : s.sender.file.length < s.accepted.length
  inHand : ∀ records ∈ s.phase.inHand, records.length < s.accepted.length

theorem length_eq_of_replies {records records' : List Record}
    (h : records'.map Record.reply = records.map Record.reply) :
    records'.length = records.length := by
  simpa using congrArg List.length h

/-- **A write from records behind the file loses the replies they are behind by.** -/
theorem lost_of_moves {b : Behind} {s s' : State} {a : Action} (hs : Sound b s)
    (hcur : ¬ b.Current a) (h : Moves s a s') : s'.Lost := by
  obtain ⟨-, hphase⟩ := hs
  cases h with
  | acked c c' p hacking hc =>
    rw [hacking] at hphase
    have hlt : c'.records.length < s.accepted.length :=
      length_eq_of_replies hc ▸ hphase.1.lt_of_ne_zero hcur
    exact ⟨hlt, by simpa [Phase.inHand] using hlt⟩
  | ackFailed fault c c' p failedAcks hacking hc hp =>
    rw [hacking] at hphase
    cases fault with
    | none => exact absurd hphase.2 (hp rfl)
    | some e => exact absurd trivial hcur
  | rewritten c records hrecording =>
    rw [hrecording] at hphase
    obtain ⟨hcursor, hload, hle⟩ := hphase
    have hne : b.load ≠ 0 := hcur
    exact ⟨hload.lt_of_ne_zero hne, by simpa [Phase.inHand] using hcursor.lt_of_ne_zero (by omega)⟩
  | loadFailed nowMs fault => exact absurd trivial hcur
  | _ => exact absurd trivial hcur

/-- **What is lost stays lost.** -/
theorem lost_step {s s' : State} {a : Action} (hs : s.Lost) (h : Moves s a s') : s'.Lost := by
  obtain ⟨hfile, hhand⟩ := hs
  cases h with
  | appended msg nowUs nowMs r n =>
    refine ⟨by simpa using hfile, fun records hr => ?_⟩
    have := hhand records hr
    simp only [List.length_append, List.length_singleton]
    omega
  | opened hidle => exact ⟨hfile, by simpa [Phase.inHand] using hfile⟩
  | openFailed e hidle => exact ⟨hfile, hhand⟩
  | drained nowMs => exact ⟨hfile, by simp [Phase.inHand]⟩
  | skipped nowMs c c' hdraining hc =>
    exact ⟨hfile, by simpa [hdraining, Phase.inHand, hc] using hhand⟩
  | found nowMs c c' p hdraining hc hp =>
    exact ⟨hfile, by simpa [hdraining, Phase.inHand, hc] using hhand⟩
  | sent result c p phase hsending h =>
    rcases h with rfl | rfl <;>
      exact ⟨hfile, by simpa [hsending, Phase.inHand] using hhand⟩
  | acked c c' p hacking hc =>
    have hlt : c'.records.length < s.accepted.length := by
      simpa [hacking, Phase.inHand, length_eq_of_replies hc] using hhand
    exact ⟨hlt, by simpa [Phase.inHand] using hlt⟩
  | ackFailed fault c c' p failedAcks hacking hc hp =>
    exact ⟨hfile, by simpa [hacking, Phase.inHand, length_eq_of_replies hc] using hhand⟩
  | loaded nowMs c p records hfailing hr =>
    refine ⟨hfile, ?_⟩
    simpa [hfailing, Phase.inHand, length_eq_of_replies hr, hfile] using hhand
  | loadFailed nowMs fault c p hfailing =>
    exact ⟨hfile, by simpa [hfailing, Phase.inHand] using hhand⟩
  | rewritten c records hrecording =>
    obtain ⟨hc, hr⟩ : c.records.length < s.accepted.length ∧
        records.length < s.accepted.length := by
      simpa [hrecording, Phase.inHand] using hhand
    exact ⟨hr, by simpa [Phase.inHand] using hc⟩
  | rewriteFailed e c records hrecording =>
    obtain ⟨hc, -⟩ : c.records.length < s.accepted.length ∧ records.length < s.accepted.length := by
      simpa [hrecording, Phase.inHand] using hhand
    exact ⟨hfile, by simpa [Phase.inHand] using hc⟩

theorem Sound.kept {b : Behind} {s : State} (h : Sound b s) : s.Kept := by
  have heq := h.file.isPrefix.eq_of_length (by simpa using h.file.length)
  rw [State.Kept, heq]

theorem State.Lost.not_kept {s : State} (h : s.Lost) : ¬ s.Kept := by
  intro hkept
  have hle := hkept.length_le
  rw [List.length_map] at hle
  exact absurd h.file (by omega)

/-! ## Runs -/

theorem sound_start (sender : Sender) (n : UInt32) : Sound ⟨0, 0⟩ (start sender n) :=
  ⟨⟨List.prefix_refl _, by simp [start]⟩, trivial⟩

theorem lost_run {s t : State} {actions : List Action} (hs : s.Lost)
    (h : StepMachine.run step s actions = some t) : t.Lost :=
  StepMachine.invariant_run (fun _ _ _ hs h => lost_step hs (moves_of_step h)) hs h

/-- From a sound state, an undisturbed run ends sound and a disturbed one has lost a reply. -/
theorem sound_run_or_lost {b : Behind} {s t : State} {actions : List Action} (hs : Sound b s)
    (h : StepMachine.run step s actions = some t) :
    (Undisturbed b actions ∧ ∃ b', Sound b' t) ∨ (¬ Undisturbed b actions ∧ t.Lost) := by
  induction actions generalizing b s with
  | nil => exact .inl ⟨trivial, b, Option.some.inj h ▸ hs⟩
  | cons a as ih =>
    obtain ⟨s', hstep, hrun⟩ := StepMachine.run_cons_eq_some h
    have hmoves := moves_of_step hstep
    by_cases hcur : b.Current a
    · exact (ih (sound_of_moves hs hcur hmoves) hrun).imp (fun hr => ⟨⟨hcur, hr.1⟩, hr.2⟩)
        fun hr => ⟨fun hu => hr.1 hu.2, hr.2⟩
    · exact .inr ⟨fun hu => hcur hu.1, lost_run (lost_of_moves hs hcur hmoves) hrun⟩

/-- **A run keeps every accepted reply exactly when it is undisturbed.**  From any file, in every
interleaving of the worker's appends with the steps of the sender's passes, whatever `send`
returns and whichever of the sender's file operations fail: at the end of the run every reply that
was in the file, or that `append` has returned an id for, is still there with its keys and text, if
and only if no `ack` and no `recordFailure` has written the file back from records read before an
append. -/
theorem replies_kept_iff (sender : Sender) (n : UInt32) (actions : List Action) (t : State)
    (h : StepMachine.run step (start sender n) actions = some t) :
    t.Kept ↔ Undisturbed ⟨0, 0⟩ actions := by
  rcases sound_run_or_lost (sound_start sender n) h with ⟨hu, b, hsound⟩ | ⟨hu, hlost⟩
  · exact ⟨fun _ => hu, fun _ => hsound.kept⟩
  · exact ⟨fun hkept => absurd hkept hlost.not_kept, fun h => absurd h hu⟩

/-- A reply retried, and a second one appended before the pass ends: both are kept. -/
theorem replies_kept_retried :
    ∃ t, StepMachine.run step (start { file := [] } 0)
        [.append ⟨ascii "room", none, ascii "one"⟩ 1 0, .snapshot none, .next 0,
          .send (.error .rateLimited), .load 0 none, .rewrite none,
          .append ⟨ascii "room", none, ascii "two"⟩ 2 0, .next 0] = some t ∧
      t.accepted.length = 2 ∧ t.Kept := by
  obtain ⟨t, hrun, hlen⟩ :
      ∃ t, StepMachine.run step (start { file := [] } 0)
          [.append ⟨ascii "room", none, ascii "one"⟩ 1 0, .snapshot none, .next 0,
            .send (.error .rateLimited), .load 0 none, .rewrite none,
            .append ⟨ascii "room", none, ascii "two"⟩ 2 0, .next 0] = some t ∧
        t.accepted.length = 2 := ⟨_, rfl, rfl⟩
  refine ⟨t, hrun, hlen, (replies_kept_iff { file := [] } 0 _ t hrun).mpr ?_⟩
  simp [Undisturbed, Behind.Current, Behind.after]

/-- A reply appended while another is being sent is gone once that one is acked. -/
theorem replies_not_kept :
    ¬ ∀ (sender : Sender) (n : UInt32) (actions : List Action) (t : State),
      StepMachine.run step (start sender n) actions = some t → t.Kept := by
  intro h
  obtain ⟨t, hrun, hlost⟩ :
      ∃ t, StepMachine.run step (start { file := [] } 0)
          [.append ⟨ascii "room", none, ascii "one"⟩ 1 0, .snapshot none, .next 0,
            .send (.ok ()), .append ⟨ascii "room", none, ascii "two"⟩ 2 0, .ack none] = some t ∧
        ¬ t.Kept := ⟨_, rfl, by decide⟩
  exact hlost (h _ _ _ t hrun)

/-- **A pass without appends loses nothing**, whatever fails in it. -/
theorem drainOnce_replies {env : Env} {faults : Faults} {self sender : Sender}
    (h : drainOnce env faults self = some (.ok sender)) :
    sender.file.map Record.reply = self.file.map Record.reply := by
  obtain ⟨actions, hactions, hrun⟩ := drainOnce_run h 0 (self.file.map Record.reply)
  have hu : Undisturbed ⟨0, 0⟩ actions := undisturbed_of_isSender rfl rfl hactions
  rcases sound_run_or_lost (sound_start self 0) hrun with ⟨-, b, hsound⟩ | ⟨hdisturbed, -⟩
  · exact hsound.file.isPrefix.eq_of_length (by simpa using hsound.file.length)
  · exact absurd hu hdisturbed

end Channels
end TigerClaw
