import Mathlib.Data.List.Basic
import Mathlib.Data.Int.Notation
import TigerClaw.Basic
import TigerClaw.Library.StepMachine
import TigerClaw.Library.Transaction

/-!
# Migrations

`src/db/migrations.zig` over `src/db/sqlite.zig`: the migrations that `user_version` does not count
yet are run one after the other, each in a transaction that also moves `user_version` on.

* `run`: the code.  `Faults`: how every statement of one call goes.
* `Progress`: what is durable, whatever fails.  `progress_run` is its proof.
* `LeavesOpen`: the failures behind which the code does not clean up.
* `applied_in_order`: over any calls, failures and crashes what is durable is a prefix of the
  migrations, and nothing trips or is left open exactly if no call leaves it.
-/

namespace TigerClaw
namespace Db
namespace Migrations

open Transactional (Outcome Reply)

structure Migration where
  name : Bytes
  sql : Bytes

/-- SQL that was run, to its end or not. -/
inductive Change where
  | whole (sql : Bytes)
  | part (sql : Bytes)
  deriving DecidableEq

/-- `user_version`, and what has been run since the beginning. -/
structure Schema where
  userVersion : ℤ
  log : List Change := []
  deriving DecidableEq

abbrev Database : Type := Transactional Schema

def execScript (db : Database) (sql : Bytes) : Outcome → Reply × Database :=
  db.change (fun c => { c with log := c.log ++ [.whole sql] })
    (fun c => { c with log := c.log ++ [.part sql] })

def setUserVersion (db : Database) (version : ℤ) : Outcome → Reply × Database :=
  db.change (fun c => { c with userVersion := version }) id

inductive Stage where
  | begin
  | script
  | rollback
  | setUserVersion
  | commit
  deriving DecidableEq

/-- How the statements of a call go, those of each migration by its number. -/
structure Faults where
  userVersion : Outcome
  stage : ℕ → Stage → Outcome

inductive Returned where
  | ok
  | error
  | died
  /-- A check has tripped. -/
  | trapped
  deriving DecidableEq

def Returned.ofReply : Reply → Returned
  | .ok => .ok
  | .error => .error
  | .died => .died

/-- The body of the loop; the loop goes on if it returns. -/
def applyOne (faults : Faults) (i : ℕ) (m : Migration) (db : Database) : Returned × Database :=
  match db.begin (faults.stage i .begin) with
  | (.ok, db) =>
    match execScript db m.sql (faults.stage i .script) with
    | (.ok, db) =>
      match setUserVersion db (i + 1) (faults.stage i .setUserVersion) with
      | (.ok, db) =>
        match db.commit (faults.stage i .commit) with
        | (reply, db) => (.ofReply reply, db)
      | (reply, db) => (.ofReply reply, db)
    | (.error, db) =>
      -- whether this succeeds is not asked
      match db.rollback (faults.stage i .rollback) with
      | (.died, db) => (.died, db)
      | (_, db) => (.error, db)
    | (.died, db) => (.died, db)
  | (reply, db) => (.ofReply reply, db)

/-- The loop, from a migration on. -/
def applyFrom (faults : Faults) : ℕ → List Migration → Database → Returned × Database
  | _, [], db => (.ok, db)
  | i, m :: rest, db =>
    match applyOne faults i m db with
    | (.ok, db) => applyFrom faults (i + 1) rest db
    | (returned, db) => (returned, db)

/-- A negative version trips the cast to an index. -/
def run (migrations : List Migration) (faults : Faults) (db : Database) : Returned × Database :=
  match db.read Schema.userVersion faults.userVersion with
  | ((_, some version), db) =>
    if version < 0 then (.trapped, db.undo)
    else applyFrom faults version.toNat (migrations.drop version.toNat) db
  | ((reply, none), db) => (.ofReply reply, db)

/-! ## Calls and crashes -/

inductive Label where
  | run (faults : Faults)
  | crash

/-- The database, and whether a check has tripped. -/
structure World where
  db : Database
  trapped : Bool := false

def next (migrations : List Migration) (w : World) : Label → World
  | .run faults =>
    let (returned, db) := run migrations faults w.db
    { db, trapped := w.trapped || returned = .trapped }
  | .crash => { w with db := w.db.undo }

/-- A database that no transaction is open on. -/
def opened (userVersion : ℤ) : World := { db := ⟨{ userVersion }, none⟩ }

/-- Nothing has tripped, and no transaction is open. -/
def Clean (w : World) : Prop := w.trapped = false ∧ w.db.pending = none

/-- What is durable: the next few migrations, and a version that counts them. -/
def Progress (migrations : List Migration) (start : ℤ) (c : Schema) : Prop :=
  if 0 ≤ start then
    ∃ k, k ≤ (migrations.drop start.toNat).length ∧ c.userVersion = start + k ∧
      c.log = ((migrations.drop start.toNat).take k).map fun m => .whole m.sql
  else c = { userVersion := start }

/-- Every statement of a migration succeeds. -/
def AllDone (faults : Faults) (i : ℕ) : Prop :=
  ∀ stage ∈ [Stage.begin, .script, .setUserVersion, .commit], faults.stage i stage = .done

/-- A statement fails that does not undo the transaction, and is not cleaned up behind. -/
def LeavesOpen (faults : Faults) (i : ℕ) : Prop :=
  faults.stage i .begin = .done ∧
    (faults.stage i .script = .failed false ∧ faults.stage i .rollback = .failed false ∨
      faults.stage i .script = .done ∧
        (faults.stage i .setUserVersion = .failed false ∨
          faults.stage i .setUserVersion = .done ∧ faults.stage i .commit = .failed false))

/-- The version is not negative, and the first migration that is not applied is not left open. -/
def Tidy (migrations : List Migration) (w : World) : Label → Prop
  | .run faults => faults.userVersion = .done → 0 ≤ w.db.visible.userVersion ∧
      ∀ i < migrations.length, w.db.visible.userVersion.toNat ≤ i →
        (∀ j < i, w.db.visible.userVersion.toNat ≤ j → AllDone faults j) → ¬ LeavesOpen faults i
  | .crash => True

/-! ## One migration -/

/-- What one migration comes to where no transaction is open. -/
inductive Applied (faults : Faults) (i : ℕ) (m : Migration) (c : Schema) :
    Returned × Database → Prop
  | done (h : AllDone faults i) :
    Applied faults i m c
      (.ok, ⟨{ userVersion := i + 1, log := c.log ++ [.whole m.sql] }, none⟩)
  | failed {returned : Returned} {db : Database} (h : ¬ AllDone faults i)
    (hok : returned ≠ .ok) (htrapped : returned ≠ .trapped) (hcommitted : db.committed = c)
    (hpending : db.pending = none ↔ ¬ LeavesOpen faults i) :
    Applied faults i m c (returned, db)

theorem allDone_iff {faults : Faults} {i : ℕ} :
    AllDone faults i ↔ faults.stage i .begin = .done ∧ faults.stage i .script = .done ∧
      faults.stage i .setUserVersion = .done ∧ faults.stage i .commit = .done := by
  simp [AllDone]

theorem Applied.of_reply {faults : Faults} {i : ℕ} {m : Migration} {c : Schema} {reply : Reply}
    {db : Database} (hreply : reply ≠ .ok) (h : ¬ AllDone faults i) (hcommitted : db.committed = c)
    (hpending : db.pending = none ↔ ¬ LeavesOpen faults i) :
    Applied faults i m c (.ofReply reply, db) := by
  refine .failed h ?_ ?_ hcommitted hpending
  · cases reply with
    | ok => exact absurd rfl hreply
    | error => exact Returned.noConfusion
    | died => exact Returned.noConfusion
  · cases reply <;> exact Returned.noConfusion

theorem applied (faults : Faults) (i : ℕ) (m : Migration) (c : Schema) :
    Applied faults i m c (applyOne faults i m ⟨c, none⟩) := by
  rw [applyOne]
  cases hbegin : faults.stage i .begin with
  | died =>
    refine .of_reply Reply.noConfusion (by simp [allDone_iff, hbegin]) rfl ?_
    simp [LeavesOpen, hbegin, Transactional.undo]
  | failed undone =>
    refine .of_reply Reply.noConfusion (by simp [allDone_iff, hbegin])
      (Transactional.committed_fail ..) ?_
    cases undone <;> simp [LeavesOpen, hbegin, Transactional.fail, Transactional.undo]
  | done =>
    dsimp only [Transactional.begin, Option.isSome_none, Bool.false_eq_true, if_false]
    cases hscript : faults.stage i .script with
    | died =>
      refine .failed (by simp [allDone_iff, hscript]) Returned.noConfusion
        Returned.noConfusion rfl ?_
      simp [LeavesOpen, hscript, Transactional.undo]
    | failed undone =>
      dsimp only [execScript, Transactional.change, Transactional.update]
      have hnot : ¬ AllDone faults i := by simp [allDone_iff, hscript]
      cases hrollback : faults.stage i .rollback with
      | died =>
        refine .failed hnot Returned.noConfusion Returned.noConfusion
          (Transactional.committed_fail ..) ?_
        simp [LeavesOpen, hscript, hrollback]
      | failed undone' =>
        refine .failed hnot Returned.noConfusion Returned.noConfusion ?_ ?_
        · exact (Transactional.committed_fail ..).trans (Transactional.committed_fail ..)
        · cases undone <;> cases undone' <;> simp [LeavesOpen, hbegin, hscript, hrollback,
            Transactional.fail, Transactional.undo]
      | done =>
        -- a transaction that was undone already cannot be rolled back
        cases undone with
        | false =>
          refine .failed hnot Returned.noConfusion Returned.noConfusion rfl ?_
          simp [LeavesOpen, hscript, hrollback, Transactional.fail, Transactional.undo]
        | true =>
          refine .failed hnot Returned.noConfusion Returned.noConfusion rfl ?_
          simp [LeavesOpen, hscript, Transactional.fail, Transactional.undo]
    | done =>
      dsimp only [execScript, Transactional.change, Transactional.update]
      cases hversion : faults.stage i .setUserVersion with
      | died =>
        refine .of_reply Reply.noConfusion (by simp [allDone_iff, hversion]) rfl ?_
        simp [LeavesOpen, hscript, hversion, Transactional.undo]
      | failed undone =>
        refine .of_reply Reply.noConfusion (by simp [allDone_iff, hversion])
          (Transactional.committed_fail ..) ?_
        cases undone <;> simp [LeavesOpen, hbegin, hscript, hversion, Transactional.update,
          Transactional.fail, Transactional.undo]
      | done =>
        dsimp only [setUserVersion, Transactional.change, Transactional.update]
        cases hcommit : faults.stage i .commit with
        | died =>
          refine .of_reply Reply.noConfusion (by simp [allDone_iff, hcommit]) rfl ?_
          simp [LeavesOpen, hscript, hversion, hcommit, Transactional.commit]
        | failed undone =>
          refine .of_reply Reply.noConfusion (by simp [allDone_iff, hcommit])
            (Transactional.committed_fail ..) ?_
          cases undone <;> simp [LeavesOpen, hbegin, hscript, hversion, hcommit,
            Transactional.commit, Transactional.fail]
        | done => exact .done (allDone_iff.mpr ⟨hbegin, hscript, hversion, hcommit⟩)

/-! ## The loop -/

/-- No migration from `i` on is left open, if those before it are applied. -/
def NoneLeft (faults : Faults) (i : ℕ) (rest : List Migration) : Prop :=
  ∀ k < rest.length, (∀ j < k, AllDone faults (i + j)) → ¬ LeavesOpen faults (i + k)

theorem noneLeft_cons {faults : Faults} {i : ℕ} {m : Migration} {rest : List Migration} :
    NoneLeft faults i (m :: rest) ↔
      ¬ LeavesOpen faults i ∧ (AllDone faults i → NoneLeft faults (i + 1) rest) := by
  have hshift : ∀ k, i + (k + 1) = i + 1 + k := fun k => by omega
  constructor
  · intro h
    refine ⟨h 0 (by simp) (by simp), fun hdone k hk hbefore => ?_⟩
    rw [← hshift]
    refine h (k + 1) (by simpa using hk) fun j hj => ?_
    cases j with
    | zero => exact hdone
    | succ j =>
      rw [hshift]
      exact hbefore j (by omega)
  · rintro ⟨hfirst, hrest⟩ k hk hbefore
    cases k with
    | zero => exact hfirst
    | succ k =>
      rw [hshift]
      refine hrest (hbefore 0 (Nat.succ_pos k)) k (by simpa using hk) fun j hj => ?_
      rw [← hshift]
      exact hbefore (j + 1) (by omega)

theorem not_leavesOpen_of_allDone {faults : Faults} {i : ℕ} (h : AllDone faults i) :
    ¬ LeavesOpen faults i := by
  obtain ⟨-, hscript, hversion, hcommit⟩ := allDone_iff.mp h
  simp [LeavesOpen, hscript, hversion, hcommit]

/-- **The loop**, from a database no transaction is open on, and whose version is the number of the
next migration. -/
theorem applyFrom_spec {faults : Faults} {i : ℕ} {rest : List Migration} {c : Schema}
    (hversion : c.userVersion = i) :
    (applyFrom faults i rest ⟨c, none⟩).1 ≠ .trapped ∧
      ((applyFrom faults i rest ⟨c, none⟩).2.pending = none ↔ NoneLeft faults i rest) ∧
      ∃ k, k ≤ rest.length ∧
        (applyFrom faults i rest ⟨c, none⟩).2.committed.userVersion = i + k ∧
        (applyFrom faults i rest ⟨c, none⟩).2.committed.log =
          c.log ++ (rest.take k).map fun m => .whole m.sql := by
  induction rest generalizing i c with
  | nil =>
    refine ⟨Returned.noConfusion, ?_, 0, Nat.le_refl _, ?_, ?_⟩
    · exact iff_of_true rfl fun k hk => absurd hk (Nat.not_lt_zero k)
    · simpa [applyFrom] using hversion
    · simp [applyFrom]
  | cons m rest ih =>
    rw [applyFrom, noneLeft_cons]
    have happlied := applied faults i m c
    generalize applyOne faults i m ⟨c, none⟩ = result at happlied
    cases happlied with
    | done hdone =>
      obtain ⟨htrapped, hpending, k, hk, hcount, hlog⟩ :=
        @ih (i + 1) { userVersion := i + 1, log := c.log ++ [.whole m.sql] } (by push_cast; rfl)
      refine ⟨htrapped, ?_, k + 1, by simpa using hk, ?_, ?_⟩
      · rw [and_iff_right (not_leavesOpen_of_allDone hdone)]
        exact hpending.trans ⟨fun h _ => h, fun h => h hdone⟩
      · rw [hcount]
        push_cast
        omega
      · rw [hlog, List.take_succ_cons, List.map_cons, List.append_assoc, List.singleton_append]
    | failed hnot hok htrapped hcommitted hpending =>
      rename_i returned db
      have hstop : (match (returned, db) with
          | (.ok, db) => applyFrom faults (i + 1) rest db
          | (returned, db) => (returned, db)) = (returned, db) := by
        cases returned with
        | ok => exact absurd rfl hok
        | error => rfl
        | died => rfl
        | trapped => rfl
      rw [hstop]
      refine ⟨htrapped, ?_, 0, Nat.zero_le _, ?_, ?_⟩
      · rw [and_iff_left fun hdone => absurd hdone hnot]
        exact hpending
      · rw [hcommitted, hversion]
        simp
      · rw [hcommitted]
        simp

/-- Behind a transaction that was left open nothing is applied. -/
theorem committed_applyFrom_of_pending (faults : Faults) (i : ℕ) (rest : List Migration)
    {db : Database} {c : Schema} (h : db.pending = some c) :
    (applyFrom faults i rest db).2.committed = db.committed := by
  cases rest with
  | nil => rfl
  | cons m rest =>
    rw [applyFrom, applyOne]
    cases faults.stage i .begin with
    | done =>
      dsimp only [Transactional.begin]
      rw [h]
      rfl
    | failed undone => exact Transactional.committed_fail ..
    | died => rfl

/-! ## One call -/

section Call

variable {migrations : List Migration} {faults : Faults} {start : ℤ} {c : Schema}

/-- **A call on a database no transaction is open on.** -/
theorem run_spec :
    ((run migrations faults ⟨c, none⟩).1 = .trapped ↔
        faults.userVersion = .done ∧ c.userVersion < 0) ∧
      ((run migrations faults ⟨c, none⟩).2.pending = none ↔
        (faults.userVersion = .done → 0 ≤ c.userVersion →
          NoneLeft faults c.userVersion.toNat (migrations.drop c.userVersion.toNat))) ∧
      ((run migrations faults ⟨c, none⟩).2.committed = c ∨
        0 ≤ c.userVersion ∧ ∃ k, k ≤ (migrations.drop c.userVersion.toNat).length ∧
          (run migrations faults ⟨c, none⟩).2.committed =
            ⟨c.userVersion + k, c.log ++
              ((migrations.drop c.userVersion.toNat).take k).map fun m => .whole m.sql⟩) := by
  rw [run]
  cases huserVersion : faults.userVersion with
  | failed undone => cases undone <;> simp [Transactional.read, Transactional.fail,
      Transactional.undo, Returned.ofReply]
  | died => simp [Transactional.read, Transactional.undo, Returned.ofReply]
  | done =>
    dsimp only [Transactional.read, Transactional.visible, Option.getD_none]
    by_cases hneg : c.userVersion < 0
    · rw [if_pos hneg]
      exact ⟨by simp [hneg], iff_of_true rfl fun _ hpos => absurd hpos (by omega), .inl rfl⟩
    · rw [if_neg hneg]
      have hcount : c.userVersion = (c.userVersion.toNat : ℤ) := by omega
      obtain ⟨htrapped, hpending, k, hk, hversion, hlog⟩ :=
        @applyFrom_spec faults _ (migrations.drop c.userVersion.toNat) _ hcount
      refine ⟨iff_of_false htrapped fun h => hneg h.2, ?_, .inr ⟨by omega, k, hk, ?_⟩⟩
      · rw [hpending]
        exact ⟨fun h _ _ => h, fun h => h rfl (by omega)⟩
      · exact congrArg₂ Schema.mk (hversion.trans (by rw [← hcount])) hlog

/-- What is durable after `k` of them and `k'` more. -/
theorem Progress.append {k : ℕ} (h : Progress migrations start c) (hversion : 0 ≤ c.userVersion)
    (hk : k ≤ (migrations.drop c.userVersion.toNat).length) :
    Progress migrations start ⟨c.userVersion + k, c.log ++
      ((migrations.drop c.userVersion.toNat).take k).map fun m => .whole m.sql⟩ := by
  by_cases hstart : 0 ≤ start
  · rw [Progress, if_pos hstart] at h ⊢
    obtain ⟨k₀, hk₀, hcount, hlog⟩ := h
    have htoNat : c.userVersion.toNat = start.toNat + k₀ := by omega
    rw [htoNat, ← List.drop_drop] at hk ⊢
    rw [List.length_drop] at hk
    refine ⟨k₀ + k, by omega, ?_, ?_⟩
    · dsimp only
      rw [hcount]
      push_cast
      omega
    · dsimp only
      rw [hlog, ← List.map_append, ← List.take_add]
  · rw [Progress, if_neg hstart] at h
    rw [h] at hversion
    contradiction

/-- **What is durable stays a prefix of the migrations, whatever fails and whatever was left
open.** -/
theorem progress_run {db : Database} (h : Progress migrations start db.committed) :
    Progress migrations start (run migrations faults db).2.committed := by
  obtain ⟨committed, pending⟩ := db
  cases pending with
  | none =>
    obtain ⟨-, -, hsame | ⟨hversion, k, hk, happlied⟩⟩ :=
      @run_spec migrations faults committed
    · rw [hsame]
      exact h
    · rw [happlied]
      exact h.append hversion hk
  | some c =>
    have hsame : (run migrations faults ⟨committed, some c⟩).2.committed = committed := by
      rw [run]
      cases faults.userVersion with
      | done =>
        dsimp only [Transactional.read]
        split
        · rfl
        · exact committed_applyFrom_of_pending _ _ _ rfl
      | failed undone => exact Transactional.committed_fail ..
      | died => rfl
    rw [hsame]
    exact h

end Call

theorem progress_next {migrations : List Migration} {start : ℤ} {w : World} (l : Label)
    (h : Progress migrations start w.db.committed) :
    Progress migrations start (next migrations w l).db.committed := by
  cases l with
  | run faults => exact progress_run h
  | crash => exact h

theorem noneLeft_drop_iff {migrations : List Migration} {faults : Faults} {v : ℕ} :
    NoneLeft faults v (migrations.drop v) ↔ ∀ i < migrations.length, v ≤ i →
      (∀ j < i, v ≤ j → AllDone faults j) → ¬ LeavesOpen faults i := by
  constructor
  · intro h i hi hvi hbefore
    obtain ⟨k, rfl⟩ := Nat.exists_eq_add_of_le hvi
    exact h k (by rw [List.length_drop]; omega) fun j hj => hbefore _ (by omega) (by omega)
  · intro h k hk hbefore
    rw [List.length_drop] at hk
    refine h (v + k) (by omega) (by omega) fun j hj hvj => ?_
    obtain ⟨d, rfl⟩ := Nat.exists_eq_add_of_le hvj
    exact hbefore d (by omega)

/-- **A call leaves nothing open, and trips over nothing, exactly if it is tidy.** -/
theorem clean_next_iff {migrations : List Migration} {w : World} (l : Label) (h : Clean w) :
    Clean (next migrations w l) ↔ Tidy migrations w l := by
  obtain ⟨⟨c, pending⟩, trapped⟩ := w
  obtain ⟨rfl, rfl⟩ : trapped = false ∧ pending = none := h
  cases l with
  | crash => exact iff_of_true ⟨rfl, rfl⟩ trivial
  | run faults =>
    obtain ⟨htrapped, hpending, -⟩ := @run_spec migrations faults c
    have hclean : Clean (next migrations ⟨⟨c, none⟩, false⟩ (.run faults)) ↔
        (run migrations faults ⟨c, none⟩).1 ≠ .trapped ∧
          (run migrations faults ⟨c, none⟩).2.pending = none := by
      simp [Clean, next]
    have htidy : Tidy migrations ⟨⟨c, none⟩, false⟩ (.run faults) ↔
        (faults.userVersion = .done → 0 ≤ c.userVersion ∧
          NoneLeft faults c.userVersion.toNat (migrations.drop c.userVersion.toNat)) := by
      rw [noneLeft_drop_iff]
      rfl
    rw [hclean, htidy, hpending, Ne, htrapped]
    constructor
    · rintro ⟨hnot, hnone⟩ hdone
      have hversion : 0 ≤ c.userVersion := by
        by_contra hneg
        exact hnot ⟨hdone, by omega⟩
      exact ⟨hversion, hnone hdone hversion⟩
    · intro h
      exact ⟨fun ⟨hdone, hneg⟩ => absurd (h hdone).1 (by omega), fun hdone _ => (h hdone).2⟩

/-! ## Any number of calls -/

/-- **Migrations over calls, failures and crashes.**  What is durable is the next few migrations,
each run once and in order, with a version that counts them; and no check trips and no transaction
is left open exactly if every call is tidy. -/
theorem applied_in_order (migrations : List Migration) (start : ℤ) (labels : List Label) :
    (∀ before, before <+: labels →
      Progress migrations start (before.foldl (next migrations) (opened start)).db.committed) ∧
    ((∀ before, before <+: labels →
        Clean (before.foldl (next migrations) (opened start))) ↔
      StepMachine.Along (fun w l => some (next migrations w l)) (Tidy migrations) (opened start)
        labels) := by
  have hprogress : Progress migrations start (opened start).db.committed := by
    unfold Progress
    split
    · exact ⟨0, Nat.zero_le _, by simp [opened], by simp [opened]⟩
    · rfl
  refine ⟨fun before _ => ?_, ?_⟩
  · exact StepMachine.invariant_run
      (I := fun w : World => Progress migrations start w.db.committed)
      (fun w l w' h hstep => Option.some.inj hstep ▸ progress_next l h) hprogress
      (StepMachine.run_total _ _ _)
  · exact StepMachine.always_iff_along_total (I := fun _ => True) (fun _ _ _ => trivial)
      (fun w l _ h => clean_next_iff l h) trivial ⟨rfl, rfl⟩ labels

/-- The database is busy when the first migration is to be committed. -/
def busyCommit : Faults where
  userVersion := .done
  stage i stage := if i = 0 ∧ stage = .commit then .failed false else .done

def createAgents : Migration where
  name := [97]
  sql := [97, 59]

/-- The transaction is left open, and nothing is applied by later calls; and a negative version
trips the cast. -/
theorem not_clean_busyCommit :
    ([Label.run busyCommit].foldl (next [createAgents]) (opened 0)).db.pending =
        some ⟨1, [.whole createAgents.sql]⟩ ∧
      ([Label.run busyCommit, .run busyCommit].foldl (next [createAgents])
        (opened 0)).db.committed = ⟨0, []⟩ ∧
      ([Label.run busyCommit].foldl (next [createAgents]) (opened (-1))).trapped = true := by
  decide

/-- Otherwise a call after a crash goes on where the last one stopped. -/
example : ([Label.run { busyCommit with stage := fun _ _ => .died }, .crash,
    .run { busyCommit with stage := fun _ _ => .done }].foldl (next [createAgents])
      (opened 0)).db = ⟨⟨1, [.whole createAgents.sql]⟩, none⟩ := by
  decide

end Migrations
end Db
end TigerClaw
