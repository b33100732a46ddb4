import Mathlib.Data.Int.Order.Basic
import Mathlib.Data.List.Nodup
import Mathlib.Logic.Function.Basic
import TigerClaw.Basic
import TigerClaw.Library.Checked
import TigerClaw.Library.StepMachine

/-!
# The session store

`extensions/memory-tigerclaw/root.zig` keeps the entries of all sessions in one SQLite table.  A
statement is one atomic step; what lies between two statements of a call, other callers may fill.

* `selectNextSeq`, `insertEntry`, `forgetEntries`, `forgetTags`: the statements, and the Zig code
  around each.
* `step`: any number of callers, each with the call that it is in.
* `Exclusive`: no append starts on a session while another one is between its two statements.
* `append_of_exclusive`: in every run that keeps to it, an append whose statements execute succeeds,
  and behind everything that it stored or returned before.
-/

namespace TigerClaw
namespace Memory

namespace SessionStore

inductive Kind where
  | user
  | assistant
  | toolCall
  | toolResult
  | system
  deriving DecidableEq

/-- `spec.Entry`; the number is the store's. -/
structure Entry where
  tsUnixNs : ℤ := 0
  kind : Kind
  body : Bytes

inductive ForgetPolicy where
  | soft
  | scrub
  | purge
  deriving DecidableEq

inductive AppendError where
  | invalidSession
  | capacityExceeded
  | backendFailure

/-- `ForgetError` and `TagError`. -/
inductive ForgetError where
  | invalidSession
  | backendFailure

/-! ## The tables -/

/-- A row of `entries`. -/
structure Row where
  sessionId : Bytes
  seq : ℤ
  tsUnixNs : ℤ
  kind : Kind
  body : Bytes
  tombstone : Bool := false

/-- `PRIMARY KEY(session_id, seq)`. -/
def Row.primaryKey (self : Row) : Bytes × ℤ := (self.sessionId, self.seq)

/-- `entries`: no two rows have one primary key. -/
structure Entries where
  rows : List Row := []
  nodup : (rows.map Row.primaryKey).Nodup := by exact List.nodup_nil

namespace Entries

/-- `INSERT INTO entries`; none when the primary key is taken. -/
def insert (self : Entries) (row : Row) : Option Entries :=
  if h : row.primaryKey ∈ self.rows.map Row.primaryKey then none
  else some {
    rows := self.rows ++ [row]
    nodup := by
      rw [List.map_append, List.map_singleton, List.nodup_append]
      exact ⟨self.nodup, List.nodup_singleton _, fun k hk k' hk' heq =>
        h (List.mem_singleton.mp hk' ▸ heq ▸ hk)⟩ }

/-- `DELETE FROM entries WHERE session_id=?`. -/
def delete (self : Entries) (sessionId : Bytes) : Entries where
  rows := self.rows.filter fun row => row.sessionId ≠ sessionId
  nodup := self.nodup.sublist (List.filter_sublist.map _)

/-- `UPDATE entries SET tombstone=1 WHERE session_id=?`, with the bodies erased or not. -/
def bury (self : Entries) (sessionId : Bytes) (erase : Bool) : Entries where
  rows := self.rows.map fun row =>
    if row.sessionId = sessionId then
      { row with tombstone := true, body := if erase then [] else row.body }
    else row
  nodup := by
    rw [List.map_map]
    have hkey : (Row.primaryKey ∘ fun row : Row => if row.sessionId = sessionId then
        { row with tombstone := true, body := if erase then [] else row.body } else row)
        = Row.primaryKey := by
      ext1 row
      by_cases h : row.sessionId = sessionId <;> simp [h, Row.primaryKey]
    rw [hkey]
    exact self.nodup

/-- The numbers of a session. -/
def seqs (self : Entries) (sessionId : Bytes) : List ℤ :=
  (self.rows.filter fun row => row.sessionId = sessionId).map Row.seq

/-- `SELECT COALESCE(MAX(seq), 0) FROM entries WHERE session_id = ?`. -/
def maxSeq (self : Entries) (sessionId : Bytes) : ℤ := (self.seqs sessionId).max?.getD 0

end Entries

structure Store where
  entries : Entries := {}
  tags : List (Bytes × Bytes) := []

/-! ## The calls -/

def validateSession (sessionId : Bytes) : Bool :=
  !(sessionId.length == 0 || decide (512 < sessionId.length)) && !sessionId.any (· == 0)

/-- `appendFn` up to its first statement: the next number.  The sum is an `i64`, the number a
`u64`. -/
def Store.selectNextSeq (self : Store) (sessionId : Bytes) (fault : Bool) :
    Outcome AppendError ℕ :=
  if validateSession sessionId = false then .error .invalidSession
  else if fault then .error .backendFailure
  else
    let sum := self.entries.maxSeq sessionId + 1
    if 2 ^ 63 ≤ sum then .trap .overflow
    else if sum < 0 then .trap .intCast
    else .ok sum.toNat

/-- How a statement that writes can fail by itself. -/
inductive InsertFault where
  | full
  | failed

/-- The clock is read for an entry that has no time of its own. -/
def Entry.time (self : Entry) (nowNs : ℤ) : ℤ :=
  if self.tsUnixNs ≠ 0 then self.tsUnixNs else nowNs

/-- The rest of `appendFn`.  Time and length are cast to `i64` and to `c_int`. -/
def Store.insertEntry (self : Store) (sessionId : Bytes) (entry : Entry) (nextSeq : ℕ) (nowNs : ℤ)
    (fault : Option InsertFault) : Outcome AppendError Store :=
  if entry.time nowNs < -2 ^ 63 ∨ 2 ^ 63 ≤ entry.time nowNs ∨ 2 ^ 31 ≤ entry.body.length then
    .trap .intCast
  else
    match fault with
    | some .full => .error .capacityExceeded
    | some .failed => .error .backendFailure
    | none =>
      match self.entries.insert {
        sessionId
        seq := nextSeq
        tsUnixNs := entry.time nowNs
        kind := entry.kind
        body := entry.body } with
      | none => .error .backendFailure
      | some entries => .ok { self with entries }

/-- The first statement of `forgetFn`. -/
def Store.forgetEntries (self : Store) (sessionId : Bytes) : ForgetPolicy → Store
  | .soft => { self with entries := self.entries.bury sessionId false }
  | .scrub => { self with entries := self.entries.bury sessionId true }
  | .purge => { self with entries := self.entries.delete sessionId }

/-- The second one, of a purge. -/
def Store.forgetTags (self : Store) (sessionId : Bytes) : Store :=
  { self with tags := self.tags.filter fun t => t.1 ≠ sessionId }

/-- `tagFn`: `INSERT OR IGNORE`. -/
def Store.tag (self : Store) (sessionId t : Bytes) : Store :=
  { self with tags := self.tags.insert (sessionId, t) }

/-! ## Callers -/

/-- Where a caller stands. -/
inductive Caller where
  | idle
  /-- Between the two statements of an append. -/
  | appending (sessionId : Bytes) (entry : Entry) (nextSeq : ℕ)
  /-- Between the two statements of a purge. -/
  | purging (sessionId : Bytes)

/-- What a call returned last. -/
inductive Answer where
  | appended (result : Except AppendError ℕ)
  | forgot (result : Except ForgetError Unit)

variable {ι : Type*} [DecidableEq ι]

structure World (ι : Type*) where
  store : Store := {}
  caller : ι → Caller := fun _ => .idle
  answer : ι → Option Answer := fun _ => none
  /-- The numbers that appends have returned for a session since it was purged last. -/
  returned : Bytes → List ℕ := fun _ => []

namespace World

/-- The caller returns. -/
def answered (w : World ι) (c : ι) (a : Answer) : World ι :=
  { w with
    caller := Function.update w.caller c .idle
    answer := Function.update w.answer c (some a) }

/-- The caller goes on to its second statement. -/
def enter (w : World ι) (c : ι) (s : Caller) : World ι :=
  { w with caller := Function.update w.caller c s }

end World

/-- One statement of a caller, with what lies before it in the call. -/
inductive Action (ι : Type*) where
  | append (c : ι) (sessionId : Bytes) (entry : Entry) (fault : Bool)
  | insert (c : ι) (nowNs : ℤ) (fault : Option InsertFault)
  | forget (c : ι) (sessionId : Bytes) (policy : ForgetPolicy) (fault : Bool)
  | forgetTags (c : ι) (fault : Bool)
  | tag (c : ι) (sessionId t : Bytes) (fault : Bool)

/-- A tripped check ends the process: there is no step then. -/
def step (w : World ι) : Action ι → Option (World ι)
  | .append c sessionId entry fault =>
    match w.caller c with
    | .idle =>
      match w.store.selectNextSeq sessionId fault with
      | .trap _ => none
      | .error e => some (w.answered c (.appended (.error e)))
      | .ok nextSeq => some (w.enter c (.appending sessionId entry nextSeq))
    | _ => none
  | .insert c nowNs fault =>
    match w.caller c with
    | .appending sessionId entry nextSeq =>
      match w.store.insertEntry sessionId entry nextSeq nowNs fault with
      | .trap _ => none
      | .error e => some (w.answered c (.appended (.error e)))
      | .ok store =>
        some ({ w with
          store
          returned := Function.update w.returned sessionId
            (w.returned sessionId ++ [nextSeq]) }.answered c (.appended (.ok nextSeq)))
    | _ => none
  | .forget c sessionId policy fault =>
    match w.caller c with
    | .idle =>
      if validateSession sessionId = false then
        some (w.answered c (.forgot (.error .invalidSession)))
      else if fault then some (w.answered c (.forgot (.error .backendFailure)))
      else
        let w := { w with store := w.store.forgetEntries sessionId policy }
        if policy = .purge then
          some ({ w with returned := Function.update w.returned sessionId [] }.enter c
            (.purging sessionId))
        else some (w.answered c (.forgot (.ok ())))
    | _ => none
  | .forgetTags c fault =>
    match w.caller c with
    | .purging sessionId =>
      if fault then some (w.answered c (.forgot (.error .backendFailure)))
      else
        some ({ w with store := w.store.forgetTags sessionId }.answered c (.forgot (.ok ())))
    | _ => none
  | .tag c sessionId t fault =>
    match w.caller c with
    | .idle =>
      if validateSession sessionId = false then
        some (w.answered c (.forgot (.error .invalidSession)))
      else if fault then some (w.answered c (.forgot (.error .backendFailure)))
      else some ({ w with store := w.store.tag sessionId t }.answered c (.forgot (.ok ())))
    | _ => none

/-! ## The statements -/

/-- The primary keys that are taken. -/
def Entries.keys (self : Entries) : List (Bytes × ℤ) := self.rows.map Row.primaryKey

@[simp] theorem Entries.keys_bury (self : Entries) (sessionId : Bytes) (erase : Bool) :
    (self.bury sessionId erase).keys = self.keys := by
  rw [keys, keys, bury, List.map_map]
  refine List.map_congr_left fun row _ => ?_
  by_cases h : row.sessionId = sessionId <;> simp [h, Row.primaryKey]

theorem Entries.mem_keys_delete {self : Entries} {sessionId : Bytes} {k : Bytes × ℤ} :
    k ∈ (self.delete sessionId).keys ↔ k ∈ self.keys ∧ k.1 ≠ sessionId := by
  simp only [keys, delete, List.mem_map, List.mem_filter, decide_eq_true_eq]
  constructor
  · rintro ⟨row, ⟨hrow, hne⟩, rfl⟩
    exact ⟨⟨row, hrow, rfl⟩, hne⟩
  · rintro ⟨⟨row, hrow, rfl⟩, hne⟩
    exact ⟨row, ⟨hrow, hne⟩, rfl⟩

/-- The maximum is one. -/
theorem Entries.le_maxSeq {self : Entries} {sessionId : Bytes} {seq : ℤ}
    (h : (sessionId, seq) ∈ self.keys) : seq ≤ self.maxSeq sessionId := by
  obtain ⟨row, hrow, hkey⟩ := List.mem_map.mp h
  obtain ⟨rfl, rfl⟩ := Prod.mk.inj hkey
  have hmem : row.seq ∈ self.seqs row.sessionId :=
    List.mem_map_of_mem (List.mem_filter.mpr ⟨hrow, decide_eq_true rfl⟩)
  rw [maxSeq]
  cases hmax : (self.seqs row.sessionId).max? with
  | none => exact absurd (List.max?_eq_none_iff.mp hmax ▸ hmem) List.not_mem_nil
  | some m => exact (List.max?_eq_some_iff.mp hmax).2 _ hmem

/-- **The number that is selected lies above every number of the session.** -/
theorem Store.selectNextSeq_eq_ok {self : Store} {sessionId : Bytes} {fault : Bool} {nextSeq : ℕ}
    (h : self.selectNextSeq sessionId fault = .ok nextSeq) {seq : ℤ}
    (hkey : (sessionId, seq) ∈ self.entries.keys) : seq < nextSeq := by
  have hle := Entries.le_maxSeq hkey
  rw [selectNextSeq] at h
  split at h
  · exact nomatch h
  split at h
  · exact nomatch h
  dsimp only at h
  split at h
  · exact nomatch h
  split at h
  · exact nomatch h
  obtain rfl := Outcome.ok.inj h
  omega

/-- A row is put behind everything else. -/
theorem Entries.insert_eq_some {self entries : Entries} {row : Row}
    (h : self.insert row = some entries) : entries.rows = self.rows ++ [row] := by
  rw [insert] at h
  split at h
  · exact nomatch h
  · exact Option.some.inj h ▸ rfl

/-- A row is refused for its primary key only. -/
theorem Entries.insert_eq_none {self : Entries} {row : Row} (h : self.insert row = none) :
    row.primaryKey ∈ self.keys := by
  rw [insert] at h
  split at h
  · assumption
  · exact nomatch h

/-- What an append that succeeds has stored. -/
theorem Store.insertEntry_eq_ok {self store : Store} {sessionId : Bytes} {entry : Entry}
    {nextSeq : ℕ} {nowNs : ℤ} {fault : Option InsertFault}
    (h : self.insertEntry sessionId entry nextSeq nowNs fault = .ok store) :
    ∃ row, store.entries.rows = self.entries.rows ++ [row] ∧
      row.primaryKey = (sessionId, (nextSeq : ℤ)) ∧ row.kind = entry.kind ∧
      row.body = entry.body := by
  rw [insertEntry.eq_def] at h
  split at h
  · exact nomatch h
  split at h
  · exact nomatch h
  · exact nomatch h
  split at h
  · exact nomatch h
  · rename_i entries hinsert
    obtain rfl := Outcome.ok.inj h
    exact ⟨_, Entries.insert_eq_some hinsert, rfl, rfl, rfl⟩

/-- **An insert statement that executes fails for a primary key that is taken only.** -/
theorem Store.insertEntry_eq_error {self : Store} {sessionId : Bytes} {entry : Entry} {nextSeq : ℕ}
    {nowNs : ℤ} {e : AppendError}
    (h : self.insertEntry sessionId entry nextSeq nowNs none = .error e) :
    (sessionId, (nextSeq : ℤ)) ∈ self.entries.keys := by
  rw [insertEntry.eq_def] at h
  split at h
  · exact nomatch h
  dsimp only at h
  split at h
  · rename_i hinsert
    exact Entries.insert_eq_none hinsert
  · exact nomatch h

/-! ## What a step can do -/

/-- What a step does to the keys, to the calls that are running and to what has been returned. -/
inductive Moves (w : World ι) : Action ι → World ι → Prop
  /-- A call begins or ends, and no key is touched. -/
  | quiet (a : Action ι) (w' : World ι) (c : ι) (s : Caller)
      (hs : ∀ sessionId entry nextSeq, s ≠ .appending sessionId entry nextSeq)
      (hcaller : w'.caller = Function.update w.caller c s)
      (hkeys : w'.store.entries.keys = w.store.entries.keys)
      (hreturned : w'.returned = w.returned) :
      Moves w a w'
  | selected (c : ι) (sessionId : Bytes) (entry : Entry) (fault : Bool) (nextSeq : ℕ)
      (hlt : ∀ seq, (sessionId, seq) ∈ w.store.entries.keys → seq < nextSeq) :
      Moves w (.append c sessionId entry fault) (w.enter c (.appending sessionId entry nextSeq))
  | inserted (c : ι) (nowNs : ℤ) (fault : Option InsertFault) (w' : World ι) (sessionId : Bytes)
      (entry : Entry) (nextSeq : ℕ) (hbefore : w.caller c = .appending sessionId entry nextSeq)
      (hcaller : w'.caller = Function.update w.caller c .idle)
      (hkeys : w'.store.entries.keys = w.store.entries.keys ++ [(sessionId, (nextSeq : ℤ))])
      (hreturned : w'.returned = Function.update w.returned sessionId
        (w.returned sessionId ++ [nextSeq])) :
      Moves w (.insert c nowNs fault) w'
  | purged (c : ι) (sessionId : Bytes) (fault : Bool) (w' : World ι)
      (hcaller : w'.caller = Function.update w.caller c (.purging sessionId))
      (hkeys : w'.store.entries = w.store.entries.delete sessionId)
      (hreturned : w'.returned = Function.update w.returned sessionId []) :
      Moves w (.forget c sessionId .purge fault) w'

theorem moves_of_step {w w' : World ι} {a : Action ι} (h : step w a = some w') : Moves w a w' := by
  have hquiet : ∀ (v : World ι) (c : ι) (answer : Answer),
      v.store.entries.keys = w.store.entries.keys → v.caller = w.caller →
      v.returned = w.returned → Moves w a (v.answered c answer) :=
    fun v c answer hkeys hcaller hreturned => .quiet a _ c .idle (fun _ _ _ => nofun)
      (congrArg (Function.update · c _) hcaller) hkeys hreturned
  cases a with
  | append c sessionId entry fault =>
    rw [step] at h
    split at h
    on_goal 2 => exact nomatch h
    split at h
    · exact nomatch h
    · obtain rfl := Option.some.inj h
      exact hquiet w c _ rfl rfl rfl
    · rename_i nextSeq hselect
      obtain rfl := Option.some.inj h
      exact .selected c sessionId entry fault nextSeq fun seq =>
        Store.selectNextSeq_eq_ok hselect
  | insert c nowNs fault =>
    rw [step] at h
    split at h
    on_goal 2 => exact nomatch h
    rename_i sessionId entry nextSeq hbefore
    split at h
    · exact nomatch h
    · obtain rfl := Option.some.inj h
      exact hquiet w c _ rfl rfl rfl
    · rename_i store hinsert
      obtain rfl := Option.some.inj h
      obtain ⟨row, hrows, hkey, -, -⟩ := Store.insertEntry_eq_ok hinsert
      refine .inserted c nowNs fault _ sessionId entry nextSeq hbefore rfl ?_ rfl
      change store.entries.rows.map Row.primaryKey = _
      rw [hrows, List.map_append, List.map_singleton, hkey, Entries.keys]
  | forget c sessionId policy fault =>
    rw [step] at h
    split at h
    on_goal 2 => exact nomatch h
    split at h
    · obtain rfl := Option.some.inj h
      exact hquiet w c _ rfl rfl rfl
    split at h
    · obtain rfl := Option.some.inj h
      exact hquiet w c _ rfl rfl rfl
    split at h
    · rename_i hpolicy
      obtain rfl := Option.some.inj h
      subst hpolicy
      exact .purged c sessionId fault _ rfl rfl rfl
    · obtain rfl := Option.some.inj h
      refine hquiet { w with store := w.store.forgetEntries sessionId policy } c _ ?_ rfl rfl
      cases policy with
      | soft => exact Entries.keys_bury _ _ _
      | scrub => exact Entries.keys_bury _ _ _
      | purge => contradiction
  | forgetTags c fault =>
    rw [step] at h
    split at h
    on_goal 2 => exact nomatch h
    split at h
    · obtain rfl := Option.some.inj h
      exact hquiet w c _ rfl rfl rfl
    · obtain rfl := Option.some.inj h
      exact hquiet { w with store := w.store.forgetTags _ } c _ rfl rfl rfl
  | tag c sessionId t fault =>
    rw [step] at h
    split at h
    on_goal 2 => exact nomatch h
    split at h
    · obtain rfl := Option.some.inj h
      exact hquiet w c _ rfl rfl rfl
    split at h
    · obtain rfl := Option.some.inj h
      exact hquiet w c _ rfl rfl rfl
    · obtain rfl := Option.some.inj h
      exact hquiet { w with store := w.store.tag _ _ } c _ rfl rfl rfl

/-! ## Whole runs -/

/-- No append starts on a session while another one is between its two statements. -/
def Exclusive (w : World ι) : Action ι → Prop
  | .append _ sessionId _ _ => ∀ c entry nextSeq, w.caller c ≠ .appending sessionId entry nextSeq
  | _ => True

/-- What every state of a run that keeps to `Exclusive` satisfies. -/
structure Valid (w : World ι) : Prop where
  /-- One append on a session at a time. -/
  alone : ∀ sessionId c entry nextSeq c' entry' nextSeq',
    w.caller c = .appending sessionId entry nextSeq →
    w.caller c' = .appending sessionId entry' nextSeq' → c = c'
  /-- Its number lies above all that are stored. -/
  ahead : ∀ c sessionId entry nextSeq, w.caller c = .appending sessionId entry nextSeq →
    ∀ seq, (sessionId, seq) ∈ w.store.entries.keys → seq < nextSeq
  /-- What has been returned is stored. -/
  stored : ∀ sessionId, ∀ n ∈ w.returned sessionId,
    (sessionId, (n : ℤ)) ∈ w.store.entries.keys

omit [DecidableEq ι] in
theorem valid_start (store : Store) : Valid ({ store } : World ι) where
  alone _ _ _ _ _ _ _ h := nomatch h
  ahead _ _ _ _ h := nomatch h
  stored _ _ h := nomatch h

/-- A caller that is appending behind a change of another call was appending before it. -/
theorem appending_of_update {caller : ι → Caller} {c c' : ι} {s : Caller} {sessionId : Bytes}
    {entry : Entry} {nextSeq : ℕ}
    (hs : ∀ sessionId entry nextSeq, s ≠ .appending sessionId entry nextSeq)
    (h : Function.update caller c s c' = .appending sessionId entry nextSeq) :
    c' ≠ c ∧ caller c' = .appending sessionId entry nextSeq := by
  by_cases hc : c' = c
  · subst hc
    rw [Function.update_self] at h
    exact absurd h (hs sessionId entry nextSeq)
  · rw [Function.update_of_ne hc] at h
    exact ⟨hc, h⟩

/-- A step whose caller is not appending behind it, and that keeps the keys or drops some. -/
theorem Valid.of_fewer {w w' : World ι} (h : Valid w) {c : ι} {s : Caller}
    (hs : ∀ sessionId entry nextSeq, s ≠ .appending sessionId entry nextSeq)
    (hcaller : w'.caller = Function.update w.caller c s)
    (hkeys : ∀ k ∈ w'.store.entries.keys, k ∈ w.store.entries.keys)
    (hstored : ∀ sessionId, ∀ n ∈ w'.returned sessionId,
      (sessionId, (n : ℤ)) ∈ w'.store.entries.keys) : Valid w' where
  alone sessionId c₁ e₁ n₁ c₂ e₂ n₂ h₁ h₂ := by
    rw [hcaller] at h₁ h₂
    exact h.alone sessionId c₁ e₁ n₁ c₂ e₂ n₂ (appending_of_update hs h₁).2
      (appending_of_update hs h₂).2
  ahead c₁ sessionId e n h₁ seq hseq := by
    rw [hcaller] at h₁
    exact h.ahead c₁ sessionId e n (appending_of_update hs h₁).2 seq (hkeys _ hseq)
  stored := hstored

/-- **A step that keeps to the condition keeps the invariant.** -/
theorem valid_step {w w' : World ι} {a : Action ι} (h : Valid w) (ha : Exclusive w a)
    (hstep : step w a = some w') : Valid w' := by
  cases moves_of_step hstep with
  | quiet _ _ c s hs hcaller hkeys hreturned =>
    refine h.of_fewer hs hcaller (fun k hk => hkeys ▸ hk) fun sessionId n hn => ?_
    rw [hreturned] at hn
    exact hkeys ▸ h.stored sessionId n hn
  | selected c sessionId entry fault nextSeq hlt =>
    -- another caller that is appending does so on another session
    have hother : ∀ c' sessionId' entry' nextSeq',
        Function.update w.caller c (.appending sessionId entry nextSeq) c'
          = .appending sessionId' entry' nextSeq' →
        (c' = c ∧ sessionId' = sessionId ∧ nextSeq' = nextSeq) ∨
          (sessionId' ≠ sessionId ∧ w.caller c' = .appending sessionId' entry' nextSeq') := by
      intro c' sessionId' entry' nextSeq' h'
      by_cases hc : c' = c
      · subst hc
        rw [Function.update_self] at h'
        obtain ⟨rfl, -, rfl⟩ := Caller.appending.inj h'
        exact .inl ⟨rfl, rfl, rfl⟩
      · rw [Function.update_of_ne hc] at h'
        exact .inr ⟨fun heq => ha c' entry' nextSeq' (heq ▸ h'), h'⟩
    refine ⟨fun sessionId' c₁ e₁ n₁ c₂ e₂ n₂ h₁ h₂ => ?_, fun c' sessionId' e n h' => ?_, h.stored⟩
    · rcases hother _ _ _ _ h₁ with ⟨rfl, rfl, -⟩ | ⟨hne, h₁⟩
      · rcases hother _ _ _ _ h₂ with ⟨rfl, -, -⟩ | ⟨hne, -⟩
        · rfl
        · exact absurd rfl hne
      · rcases hother _ _ _ _ h₂ with ⟨-, rfl, -⟩ | ⟨-, h₂⟩
        · exact absurd rfl hne
        · exact h.alone sessionId' c₁ e₁ n₁ c₂ e₂ n₂ h₁ h₂
    · rcases hother _ _ _ _ h' with ⟨-, rfl, rfl⟩ | ⟨-, h'⟩
      · exact hlt
      · exact h.ahead c' sessionId' e n h'
  | inserted c nowNs fault _ sessionId entry nextSeq hbefore hcaller hkeys hreturned =>
    have hs : ∀ sessionId entry nextSeq, Caller.idle ≠ .appending sessionId entry nextSeq :=
      fun _ _ _ => nofun
    refine ⟨fun sessionId' c₁ e₁ n₁ c₂ e₂ n₂ h₁ h₂ => ?_, fun c' sessionId' e n h' seq hseq => ?_,
      fun sessionId' n hn => ?_⟩
    · rw [hcaller] at h₁ h₂
      exact h.alone sessionId' c₁ e₁ n₁ c₂ e₂ n₂ (appending_of_update hs h₁).2
        (appending_of_update hs h₂).2
    · rw [hcaller] at h'
      obtain ⟨hne, h'⟩ := appending_of_update hs h'
      rw [hkeys, List.mem_append, List.mem_singleton] at hseq
      rcases hseq with hseq | hseq
      · exact h.ahead c' sessionId' e n h' seq hseq
      · -- the caller that is left is not on the session of the insert
        obtain ⟨rfl, -⟩ := Prod.mk.inj hseq
        exact absurd (h.alone sessionId' c' e n c entry nextSeq h' hbefore) hne
    · rw [hkeys, List.mem_append, List.mem_singleton]
      rw [hreturned] at hn
      by_cases hsession : sessionId' = sessionId
      · subst hsession
        rw [Function.update_self, List.mem_append, List.mem_singleton] at hn
        rcases hn with hn | rfl
        · exact .inl (h.stored sessionId' n hn)
        · exact .inr rfl
      · rw [Function.update_of_ne hsession] at hn
        exact .inl (h.stored sessionId' n hn)
  | purged c sessionId fault _ hcaller hkeys hreturned =>
    have hs : ∀ sessionId' entry nextSeq,
        Caller.purging sessionId ≠ .appending sessionId' entry nextSeq := fun _ _ _ => nofun
    refine h.of_fewer hs hcaller (fun k hk => ?_) fun sessionId' n hn => ?_
    · rw [hkeys] at hk
      exact (Entries.mem_keys_delete.mp hk).1
    · rw [hreturned] at hn
      by_cases hsession : sessionId' = sessionId
      · subst hsession
        rw [Function.update_self] at hn
        exact nomatch hn
      · rw [Function.update_of_ne hsession] at hn
        rw [hkeys]
        exact Entries.mem_keys_delete.mpr ⟨h.stored sessionId' n hn, hsession⟩

/-- What an append that succeeds comes to: it is answered with its number, its entry stands behind
all others, and the number lies above every one of the session that was returned or is stored. -/
structure Appended (w : World ι) (c : ι) (w' : World ι) (sessionId : Bytes) (entry : Entry)
    (nextSeq : ℕ) : Prop where
  answer : w'.answer c = some (.appended (.ok nextSeq))
  stored : ∃ row, w'.store.entries.rows = w.store.entries.rows ++ [row] ∧
    row.primaryKey = (sessionId, (nextSeq : ℤ)) ∧ row.kind = entry.kind ∧ row.body = entry.body
  above_returned : ∀ n ∈ w.returned sessionId, n < nextSeq
  above_stored : ∀ row ∈ w.store.entries.rows, row.sessionId = sessionId → row.seq < nextSeq

/-- **Appends that do not overlap on a session.**  From any table, in every interleaving of the
statements of any number of callers where no append starts on a session while another one is
between its two statements, an append whose second statement executes succeeds, and under a number
above all that were returned for the session since it was purged last. -/
theorem append_of_exclusive {store : Store} {as : List (Action ι)} {w w' : World ι} {c : ι}
    {nowNs : ℤ} (hrun : StepMachine.run step { store } as = some w)
    (hexclusive : StepMachine.Along step Exclusive { store } as)
    (hstep : step w (.insert c nowNs none) = some w') :
    ∃ sessionId entry nextSeq, w.caller c = .appending sessionId entry nextSeq ∧
      Appended w c w' sessionId entry nextSeq := by
  have h : Valid w := StepMachine.invariant_along (fun s a s' hs ha hs' => valid_step hs ha hs')
    (valid_start store) hexclusive as w (List.prefix_refl as) hrun
  rw [step] at hstep
  split at hstep
  on_goal 2 => exact nomatch hstep
  rename_i sessionId entry nextSeq hcaller
  have hahead := h.ahead c sessionId entry nextSeq hcaller
  split at hstep
  · exact nomatch hstep
  · rename_i e hinsert
    exact absurd (hahead _ (Store.insertEntry_eq_error hinsert)) (lt_irrefl _)
  · rename_i store' hinsert
    obtain rfl := Option.some.inj hstep
    refine ⟨sessionId, entry, nextSeq, hcaller, Function.update_self .., ?_, fun n hn => ?_,
      fun row hrow hsession => ?_⟩
    · exact Store.insertEntry_eq_ok hinsert
    · exact Int.ofNat_lt.mp (hahead _ (h.stored sessionId n hn))
    · refine hahead _ (List.mem_map.mpr ⟨row, hrow, ?_⟩)
      rw [Row.primaryKey, hsession]

/-- The first statement of an append of "hi" to the session "s". -/
def sampleAppend (c : Bool) : Action Bool :=
  .append c (ascii "s") { kind := .user, body := ascii "hi" } false

/-- Two appends, one after the other. -/
theorem append_of_exclusive_twice :
    ∃ w w', StepMachine.run step {} [sampleAppend false, .insert false 7 none, sampleAppend true]
        = some w ∧ step w (.insert true 8 none) = some w' ∧ w'.returned (ascii "s") = [1, 2] ∧
      ∃ sessionId entry nextSeq, Appended w true w' sessionId entry nextSeq := by
  have hfree : ∀ c sessionId entry nextSeq,
      Function.update (Function.update (fun _ : Bool => Caller.idle) false
        (.appending (ascii "s") { kind := .user, body := ascii "hi" } 1)) false .idle c
        ≠ .appending sessionId entry nextSeq := by
    intro c
    cases c <;> exact fun _ _ _ => nofun
  have hrun : StepMachine.run step ({ store := {} } : World Bool)
      [sampleAppend false, .insert false 7 none, sampleAppend true] = some _ := rfl
  have hexclusive : StepMachine.Along step Exclusive ({ store := {} } : World Bool)
      [sampleAppend false, .insert false 7 none, sampleAppend true] :=
    (StepMachine.along_cons rfl).mpr ⟨fun _ _ _ => nofun,
      (StepMachine.along_cons rfl).mpr ⟨trivial,
        (StepMachine.along_cons rfl).mpr ⟨fun c => hfree c _, trivial⟩⟩⟩
  obtain ⟨sessionId, entry, nextSeq, -, happended⟩ :=
    append_of_exclusive (c := true) hrun hexclusive
      (by exact (rfl : step _ (.insert true 8 none) = _))
  exact ⟨_, _, rfl, rfl, rfl, sessionId, entry, nextSeq, happended⟩

/-- Two appends that overlap on a session select one number, and the second one fails; and a purge
gives the numbers out again. -/
theorem append_conflicts_and_repeats :
    (∃ w, StepMachine.run step {} [sampleAppend false, sampleAppend true, .insert false 7 none,
        .insert true 8 none] = some w ∧
      w.answer false = some (.appended (.ok 1)) ∧
      w.answer true = some (.appended (.error .backendFailure))) ∧
    ∃ w w', StepMachine.run step {} [sampleAppend false, .insert false 7 none] = some w ∧
      w.answer false = some (.appended (.ok 1)) ∧
      StepMachine.run step w [.forget true (ascii "s") .purge false, .forgetTags true false,
        sampleAppend true, .insert true 8 none] = some w' ∧
      w'.answer true = some (.appended (.ok 1)) :=
  ⟨⟨_, rfl, rfl, rfl⟩, _, _, rfl, rfl, rfl, rfl⟩

end SessionStore

end Memory
end TigerClaw
