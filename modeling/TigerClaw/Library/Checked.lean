import Mathlib.Algebra.Group.Int.Defs
import Mathlib.Algebra.Group.Nat.Defs
import Mathlib.Data.List.Forall2
import Mathlib.Data.Nat.Basic

/-!
# Checked and saturating machine arithmetic

A language with safety checks has three ways for a function body to end: a value, an error
of the function's own, or a check that tripped (an integer cast out of range, an overflow,
an index out of bounds) and took the program down.  `Outcome` keeps the three apart, so
that "this cannot crash" is a statement about the model and not about the reader's trust.

Unsigned 64-bit saturating operations are defined through `Nat`, with the lemma that reads
them back there.
-/

universe u v w

/-- The safety check that tripped. -/
inductive Trap where
  /-- A narrowing cast whose operand does not fit. -/
  | intCast
  /-- An addition whose result does not fit its type. -/
  | overflow
  /-- An index or a slice outside its array. -/
  | bounds
  /-- An access to a field of a union that is not the active one. -/
  | variant
  deriving DecidableEq

/-- How a function body ends. -/
inductive Outcome (ε : Type u) (α : Type v) where
  | ok : α → Outcome ε α
  | error : ε → Outcome ε α
  | trap : Trap → Outcome ε α
  deriving DecidableEq

namespace Outcome

variable {ε : Type u} {ε' : Type w} {α β : Type v}

/-- Sequencing: errors and tripped checks both end the body. -/
protected def bind (x : Outcome ε α) (f : α → Outcome ε β) : Outcome ε β :=
  match x with
  | .ok a => f a
  | .error e => .error e
  | .trap t => .trap t

instance : Monad (Outcome ε) where
  pure := Outcome.ok
  bind := Outcome.bind

@[simp] theorem pure_eq (a : α) : (pure a : Outcome ε α) = .ok a := rfl

@[simp] theorem ok_bind (a : α) (f : α → Outcome ε β) : (Outcome.ok a >>= f) = f a := rfl

@[simp] theorem error_bind (e : ε) (f : α → Outcome ε β) :
    (Outcome.error e >>= f) = .error e := rfl

@[simp] theorem trap_bind (t : Trap) (f : α → Outcome ε β) :
    (Outcome.trap t >>= f) = .trap t := rfl

theorem bind_eq_ok {x : Outcome ε α} {f : α → Outcome ε β} {b : β} :
    (x >>= f) = .ok b ↔ ∃ a, x = .ok a ∧ f a = .ok b := by
  cases x <;> simp

theorem bind_eq_error {x : Outcome ε α} {f : α → Outcome ε β} {e : ε} :
    (x >>= f) = .error e ↔ x = .error e ∨ ∃ a, x = .ok a ∧ f a = .error e := by
  cases x <;> simp

/-- `x catch return e`: every error becomes `e`; a tripped check is not caught. -/
def catchAs (e : ε') : Outcome ε α → Outcome ε' α
  | .ok a => .ok a
  | .error _ => .error e
  | .trap t => .trap t

@[simp] theorem catchAs_ok (e : ε') (a : α) : catchAs e (.ok a : Outcome ε α) = .ok a := rfl

@[simp] theorem catchAs_error (e : ε') (d : ε) :
    catchAs e (.error d : Outcome ε α) = .error e := rfl

@[simp] theorem catchAs_trap (e : ε') (t : Trap) :
    catchAs e (.trap t : Outcome ε α) = .trap t := rfl

@[simp] theorem catchAs_eq_ok {e : ε'} {x : Outcome ε α} {a : α} :
    catchAs e x = .ok a ↔ x = .ok a := by
  cases x <;> simp

@[simp] theorem catchAs_eq_trap {e : ε'} {x : Outcome ε α} {t : Trap} :
    catchAs e x = .trap t ↔ x = .trap t := by
  cases x <;> simp

/-- The value, if there is one. -/
def toOption : Outcome ε α → Option α
  | .ok a => some a
  | .error _ | .trap _ => none

@[simp] theorem toOption_eq_some {x : Outcome ε α} {a : α} : x.toOption = some a ↔ x = .ok a := by
  cases x <;> simp [toOption]

/-- The body was taken down by a tripped check. -/
def Traps (x : Outcome ε α) : Prop := ∃ t, x = .trap t

@[simp] theorem traps_trap (t : Trap) : Traps (.trap t : Outcome ε α) := ⟨t, rfl⟩

@[simp] theorem not_traps_ok (a : α) : ¬ Traps (.ok a : Outcome ε α) := by simp [Traps]

@[simp] theorem not_traps_error (e : ε) : ¬ Traps (.error e : Outcome ε α) := by simp [Traps]

theorem traps_bind {x : Outcome ε α} {f : α → Outcome ε β} :
    Traps (x >>= f) ↔ Traps x ∨ ∃ a, x = .ok a ∧ Traps (f a) := by
  cases x <;> simp

/-- Without errors a body that is not taken down has a value. -/
theorem not_traps_iff {x : Outcome Empty α} : ¬ x.Traps ↔ ∃ a, x = .ok a := by
  cases x with
  | ok a => simp
  | error e => exact e.elim
  | trap t => simp

theorem not_traps_bind {x : Outcome Empty α} {f : α → Outcome Empty β} {p : Prop}
    (h : ∀ a, x = .ok a → (¬ (f a).Traps ↔ p)) : ¬ (x >>= f).Traps ↔ ¬ x.Traps ∧ p := by
  cases x with
  | ok a => simpa using h a rfl
  | error e => exact e.elim
  | trap t => simp

@[simp] theorem traps_catchAs {e : ε'} {x : Outcome ε α} : Traps (catchAs e x) ↔ Traps x := by
  cases x <;> simp

/-- A body for every entry of a list. -/
theorem mapM'_eq_ok {f : α → Outcome ε β} {l : List α} {bs : List β} :
    l.mapM' f = .ok bs ↔ List.Forall₂ (fun a b => f a = .ok b) l bs := by
  induction l generalizing bs with
  | nil =>
    rw [List.mapM', List.forall₂_nil_left_iff, pure_eq, Outcome.ok.injEq]
    exact eq_comm
  | cons a l ih =>
    rw [List.mapM', bind_eq_ok]
    constructor
    · rintro ⟨b, hb, h⟩
      obtain ⟨bs', hbs, h⟩ := bind_eq_ok.mp h
      obtain rfl := Outcome.ok.inj h
      exact List.Forall₂.cons hb (ih.mp hbs)
    · intro h
      obtain ⟨b, bs', hb, hbs, rfl⟩ := List.forall₂_cons_left_iff.mp h
      refine ⟨b, hb, ?_⟩
      rw [ih.mpr hbs]
      rfl

end Outcome

/-! ## Saturating `u64` arithmetic -/

namespace UInt64

/-- `a +| b`. -/
def satAdd (a b : UInt64) : UInt64 := UInt64.ofNat (min (a.toNat + b.toNat) (2 ^ 64 - 1))

/-- `a -| b`. -/
def satSub (a b : UInt64) : UInt64 := UInt64.ofNat (a.toNat - b.toNat)

theorem toNat_satAdd (a b : UInt64) :
    (satAdd a b).toNat = min (a.toNat + b.toNat) (2 ^ 64 - 1) :=
  UInt64.toNat_ofNat_of_lt' (by simp only [UInt64.size]; omega)

theorem toNat_satSub (a b : UInt64) : (satSub a b).toNat = a.toNat - b.toNat :=
  UInt64.toNat_ofNat_of_lt' (by have := a.toNat_lt; simp only [UInt64.size]; omega)

/-- Saturation does not engage below the top. -/
theorem toNat_satAdd_of_lt {a b : UInt64} (h : a.toNat + b.toNat < 2 ^ 64) :
    (satAdd a b).toNat = a.toNat + b.toNat := by
  rw [toNat_satAdd]
  omega

end UInt64

/-! ## Checked arithmetic of other widths -/

universe x

variable {ε : Type x}

/-- `a +| b` on `u32`. -/
def UInt32.satAdd (a b : UInt32) : UInt32 := UInt32.ofNat (min (a.toNat + b.toNat) (2 ^ 32 - 1))

theorem UInt32.toNat_satAdd (a b : UInt32) :
    (UInt32.satAdd a b).toNat = min (a.toNat + b.toNat) (2 ^ 32 - 1) :=
  UInt32.toNat_ofNat_of_lt' (by simp only [UInt32.size]; omega)

/-- `@intCast` from `usize` to `u32`. -/
def UInt32.castNat (n : ℕ) : Outcome ε UInt32 :=
  if n < 2 ^ 32 then .ok (UInt32.ofNat n) else .trap .intCast

/-- `@intCast` from a signed integer to `u32`. -/
def UInt32.castInt (n : ℤ) : Outcome ε UInt32 :=
  if 0 ≤ n ∧ n < 2 ^ 32 then .ok (UInt32.ofNat n.toNat) else .trap .intCast

/-- `a + b` on `u32`. -/
def UInt32.checkedAdd (a b : UInt32) : Outcome ε UInt32 :=
  if a.toNat + b.toNat < 2 ^ 32 then .ok (a + b) else .trap .overflow

/-- `a + b` on `i64`. -/
def Int64.checkedAdd (a b : Int64) : Outcome ε Int64 :=
  if -2 ^ 63 ≤ a.toInt + b.toInt ∧ a.toInt + b.toInt < 2 ^ 63 then
    .ok (Int64.ofInt (a.toInt + b.toInt))
  else .trap .overflow

/-- `@intCast` from `u64` to `i64`. -/
def UInt64.castInt64 (a : UInt64) : Outcome ε Int64 :=
  if a.toNat < 2 ^ 63 then .ok (Int64.ofInt a.toNat) else .trap .intCast

/-- A cast that goes through keeps the value. -/
theorem UInt32.castInt_eq_ok {n : ℤ} {m : UInt32} :
    UInt32.castInt n = (.ok m : Outcome ε UInt32) ↔ (m.toNat : ℤ) = n := by
  have hm := m.toNat_lt
  rw [UInt32.castInt]
  split
  · rename_i h
    rw [Outcome.ok.injEq, ← UInt32.toNat_inj, UInt32.toNat_ofNat_of_lt' (by
      simp only [UInt32.size]; omega)]
    omega
  · simp only [reduceCtorEq, false_iff]
    omega

theorem UInt32.traps_castInt {n : ℤ} :
    (UInt32.castInt n : Outcome ε UInt32).Traps ↔ ¬ (0 ≤ n ∧ n < 2 ^ 32) := by
  rw [UInt32.castInt]
  split
  · rename_i h
    exact iff_of_false (Outcome.not_traps_ok _) (not_not_intro h)
  · rename_i h
    exact iff_of_true (Outcome.traps_trap _) h

theorem UInt32.checkedAdd_eq_ok {a b c : UInt32} :
    UInt32.checkedAdd a b = (.ok c : Outcome ε UInt32) ↔ c.toNat = a.toNat + b.toNat := by
  have hc := c.toNat_lt
  rw [UInt32.checkedAdd]
  split
  · rw [Outcome.ok.injEq, ← UInt32.toNat_inj, UInt32.toNat_add]
    omega
  · simp only [reduceCtorEq, false_iff]
    omega

theorem Int64.checkedAdd_eq_ok {a b c : Int64} :
    Int64.checkedAdd a b = (.ok c : Outcome ε Int64) ↔ c.toInt = a.toInt + b.toInt := by
  have hl := c.le_toInt
  have hu := c.toInt_lt
  rw [Int64.checkedAdd]
  split
  · rename_i h
    rw [Outcome.ok.injEq, ← Int64.toInt_inj, Int64.toInt_ofInt_of_le h.1 h.2]
    exact eq_comm
  · simp only [reduceCtorEq, false_iff]
    omega

theorem UInt64.castInt64_of_lt {a : UInt64} (h : a.toNat < 2 ^ 63) :
    UInt64.castInt64 a = (.ok (Int64.ofInt a.toNat) : Outcome ε Int64) :=
  if_pos h

/-! ## Checked `usize` arithmetic

Lengths and indices are natural numbers here; what a `usize` of 64 bits adds is the check. -/

/-- `a + b` on `usize`. -/
def usizeAdd (a b : ℕ) : Outcome ε ℕ :=
  if a + b < 2 ^ 64 then .ok (a + b) else .trap .overflow

/-- `a - b` on `usize`. -/
def usizeSub (a b : ℕ) : Outcome ε ℕ :=
  if b ≤ a then .ok (a - b) else .trap .overflow

theorem usizeAdd_of_lt {a b : ℕ} (h : a + b < 2 ^ 64) :
    usizeAdd a b = (.ok (a + b) : Outcome ε ℕ) :=
  if_pos h

theorem usizeSub_of_le {a b : ℕ} (h : b ≤ a) : usizeSub a b = (.ok (a - b) : Outcome ε ℕ) :=
  if_pos h
