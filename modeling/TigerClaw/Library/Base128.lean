import Mathlib.Data.List.Basic
import Mathlib.Algebra.Order.Group.Nat

/-!
# Base-128 numbers

A base-128 number is a string of bytes that carry seven bits each, least significant first; all
but the last have their top bit set.  `value` reads such a string, with no bound on its length,
and `encode` writes the shortest one.

* `split`: the base-128 number at the front of a byte string, and what follows it.
* `Complete`: a byte string that is one base-128 number and nothing else.  `split_append` says
  that this is a prefix code: what follows a number cannot change how it is read.
* `value_encode`, `complete_encode`, `length_encode_le`: the shortest string is complete, has the
  value it was written for, and takes a byte for every seven bits.
* `leading`: how many bytes in a row ask for another one.
-/

namespace Base128

/-- The number a string of seven-bit groups stands for. -/
def value : List UInt8 → ℕ
  | [] => 0
  | b :: bs => b.toNat % 128 + 128 * value bs

/-- The shortest string with value `n`. -/
def encode (n : ℕ) : List UInt8 :=
  if n < 128 then [UInt8.ofNat n] else UInt8.ofNat (n % 128 + 128) :: encode (n / 128)
termination_by n
decreasing_by omega

/-- The number at the front and the bytes after it; `none` when the bytes end inside it. -/
def split : List UInt8 → Option (List UInt8 × List UInt8)
  | [] => none
  | b :: bs =>
    if b.toNat < 128 then some ([b], bs) else (split bs).map fun p => (b :: p.1, p.2)

/-- One number and nothing else. -/
def Complete : List UInt8 → Prop
  | [] => False
  | b :: bs => if b.toNat < 128 then bs = [] else Complete bs

/-- How many bytes at the front ask for another one. -/
def leading : List UInt8 → ℕ
  | [] => 0
  | b :: bs => if b.toNat < 128 then 0 else leading bs + 1

@[simp] theorem value_nil : value [] = 0 := rfl

@[simp] theorem value_cons (b : UInt8) (bs : List UInt8) :
    value (b :: bs) = b.toNat % 128 + 128 * value bs := rfl

theorem encode_of_lt {n : ℕ} (h : n < 128) : encode n = [UInt8.ofNat n] := by
  rw [encode, if_pos h]

theorem encode_of_ge {n : ℕ} (h : 128 ≤ n) :
    encode n = UInt8.ofNat (n % 128 + 128) :: encode (n / 128) := by
  rw [encode, if_neg (by omega)]

theorem toNat_ofNat_of_lt {n : ℕ} (h : n < 256) : (UInt8.ofNat n).toNat = n := by
  rw [UInt8.toNat_ofNat']
  omega

theorem value_encode (n : ℕ) : value (encode n) = n := by
  induction n using Nat.strongRecOn with
  | ind n ih =>
    by_cases h : n < 128
    · rw [encode_of_lt h, value_cons, toNat_ofNat_of_lt (by omega), value_nil]
      omega
    · rw [encode_of_ge (by omega), value_cons, toNat_ofNat_of_lt (by omega),
        ih (n / 128) (by omega)]
      omega

theorem complete_encode (n : ℕ) : Complete (encode n) := by
  induction n using Nat.strongRecOn with
  | ind n ih =>
    by_cases h : n < 128
    · rw [encode_of_lt h, Complete, toNat_ofNat_of_lt (by omega), if_pos h]
    · rw [encode_of_ge (by omega), Complete, toNat_ofNat_of_lt (by omega), if_neg (by omega)]
      exact ih (n / 128) (by omega)

/-- A byte for every seven bits. -/
theorem length_encode_le {k n : ℕ} (h : n < 128 ^ (k + 1)) : (encode n).length ≤ k + 1 := by
  induction k generalizing n with
  | zero => rw [encode_of_lt (by simpa using h)]; simp
  | succ k ih =>
    by_cases hn : n < 128
    · rw [encode_of_lt hn]; simp
    · rw [encode_of_ge (by omega), List.length_cons]
      have := ih (n := n / 128) (Nat.div_lt_of_lt_mul (by rw [pow_succ] at h; omega))
      omega

theorem Complete.ne_nil {bs : List UInt8} (h : Complete bs) : bs ≠ [] := by
  rintro rfl
  exact h

/-- **A prefix code.**  A complete number is read off the front whatever follows it. -/
theorem split_append {bs : List UInt8} (h : Complete bs) (rest : List UInt8) :
    split (bs ++ rest) = some (bs, rest) := by
  induction bs with
  | nil => exact absurd h id
  | cons b bs ih =>
    rw [Complete] at h
    rw [List.cons_append, split]
    split at h
    · rename_i hb
      rw [if_pos hb, h, List.nil_append]
    · rename_i hb
      rw [if_neg hb, ih h, Option.map_some]

theorem split_eq_some {q bs rest : List UInt8} (h : split q = some (bs, rest)) :
    q = bs ++ rest ∧ Complete bs := by
  induction q generalizing bs with
  | nil => simp [split] at h
  | cons b q ih =>
    rw [split] at h
    split at h
    · rename_i hb
      obtain ⟨rfl, rfl⟩ := Prod.mk.inj (Option.some.inj h)
      exact ⟨rfl, by rw [Complete, if_pos hb]⟩
    · rename_i hb
      obtain ⟨⟨bs', rest'⟩, hs, he⟩ := Option.map_eq_some_iff.mp h
      obtain ⟨rfl, rfl⟩ := Prod.mk.inj he
      obtain ⟨rfl, hc⟩ := ih hs
      exact ⟨rfl, by rw [Complete, if_neg hb]; exact hc⟩

/-- A number is one byte longer than the run of bytes that ask for another one. -/
theorem length_of_split {q bs rest : List UInt8} (h : split q = some (bs, rest)) :
    bs.length = leading q + 1 := by
  induction q generalizing bs with
  | nil => simp [split] at h
  | cons b q ih =>
    rw [split] at h
    split at h
    · rename_i hb
      obtain ⟨rfl, rfl⟩ := Prod.mk.inj (Option.some.inj h)
      rw [leading, if_pos hb]
      rfl
    · rename_i hb
      obtain ⟨⟨bs', rest'⟩, hs, he⟩ := Option.map_eq_some_iff.mp h
      obtain ⟨rfl, rfl⟩ := Prod.mk.inj he
      rw [leading, if_neg hb, List.length_cons, ih hs]

end Base128
