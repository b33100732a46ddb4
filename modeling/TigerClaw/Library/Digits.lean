import Mathlib.Data.List.Basic
import Mathlib.Data.Nat.Basic

/-!
# Numbers as ASCII digits

* `hexPad w n`: the low `w` hexadecimal digits of `n`, lower case, zero padded.
* `decimal`, `decimalInt`: the decimal digits of a natural number and of an integer.
* `parseInt`: the integer written by decimal digits, with an optional sign, and underscores between
  the digits.  `parseInt_decimalInt`: it reads back what was written.
-/

namespace Digits

/-- A hexadecimal digit in lower case. -/
def hexDigit (d : ℕ) : UInt8 := if d < 10 then UInt8.ofNat (48 + d) else UInt8.ofNat (87 + d)

/-- The low `w` hexadecimal digits of `n`, most significant first. -/
def hexPad : ℕ → ℕ → List UInt8
  | 0, _ => []
  | w + 1, n => hexPad w (n / 16) ++ [hexDigit (n % 16)]

/-! ## Decimal digits -/

def isDigit (b : UInt8) : Bool := 0x30 ≤ b && b ≤ 0x39

def digit (d : ℕ) : UInt8 := UInt8.ofNat (48 + d)

theorem toNat_digit {d : ℕ} (h : d < 10) : (digit d).toNat = 48 + d :=
  UInt8.toNat_ofNat_of_lt' (by simp only [UInt8.size]; omega)

theorem isDigit_digit {d : ℕ} (h : d < 10) : isDigit (digit d) = true := by
  simp only [isDigit, Bool.and_eq_true, decide_eq_true_eq, UInt8.le_iff_toNat_le, toNat_digit h,
    UInt8.toNat_ofNat]
  omega

/-- The decimal digits of `n`, without leading zeros. -/
def decimal (n : ℕ) : List UInt8 :=
  if n < 10 then [digit n] else decimal (n / 10) ++ [digit (n % 10)]

/-- A minus sign for the negative ones. -/
def decimalInt : ℤ → List UInt8
  | .ofNat n => decimal n
  | .negSucc n => 0x2D :: decimal (n + 1)

theorem isDigit_of_mem_decimal {n : ℕ} {b : UInt8} (h : b ∈ decimal n) : isDigit b = true := by
  induction n using decimal.induct with
  | case1 n hn =>
    rw [decimal, if_pos hn, List.mem_singleton] at h
    exact h ▸ isDigit_digit hn
  | case2 n hn ih =>
    rw [decimal, if_neg hn, List.mem_append, List.mem_singleton] at h
    exact h.elim ih fun h => h ▸ isDigit_digit (Nat.mod_lt _ (by omega))

/-- An integer is written with digits and a minus sign. -/
theorem isDigit_or_minus_of_mem_decimalInt {n : ℤ} {b : UInt8} (h : b ∈ decimalInt n) :
    isDigit b = true ∨ b = 0x2D := by
  cases n with
  | ofNat n => exact .inl (isDigit_of_mem_decimal h)
  | negSucc n => exact (List.mem_cons.mp h).symm.imp isDigit_of_mem_decimal id

/-- The first digit is zero for zero only. -/
theorem decimal_eq_cons (n : ℕ) : ∃ d ds, decimal n = digit d :: ds ∧ d < 10 ∧ (0 < n → 0 < d) := by
  induction n using decimal.induct with
  | case1 n hn =>
    refine ⟨n, [], ?_, hn, id⟩
    rw [decimal, if_pos hn]
  | case2 n hn ih =>
    obtain ⟨d, ds, heq, hd, hpos⟩ := ih
    refine ⟨d, ds ++ [digit (n % 10)], ?_, hd, fun _ => hpos (by omega)⟩
    rw [decimal, if_neg hn, heq, List.cons_append]

/-- There is no negative zero. -/
theorem decimalInt_ne_minusZero (n : ℤ) : decimalInt n ≠ [0x2D, 0x30] := by
  intro h
  cases n with
  | ofNat n =>
    have hmem : (0x2D : UInt8) ∈ decimal n := by
      rw [show decimal n = [0x2D, 0x30] from h]
      exact List.mem_cons_self
    exact absurd (isDigit_of_mem_decimal hmem) (by decide)
  | negSucc n =>
    obtain ⟨d, ds, heq, hd, hpos⟩ := decimal_eq_cons (n + 1)
    rw [decimalInt, heq] at h
    have hzero : digit d = 0x30 := (List.cons.inj (List.cons.inj h).2).1
    have hd0 := congrArg UInt8.toNat hzero
    rw [toNat_digit hd, show (0x30 : UInt8).toNat = 48 from rfl] at hd0
    have := hpos (Nat.succ_pos n)
    omega

/-! ## Reading them back -/

/-- The digits from the left; underscores are passed over. -/
def accumulate : ℕ → List UInt8 → Option ℕ
  | acc, [] => some acc
  | acc, c :: cs =>
    if c = 0x5F then accumulate acc cs
    else if isDigit c then accumulate (10 * acc + (c.toNat - 48)) cs
    else none

def parseUnsigned (s : List UInt8) : Option ℕ :=
  if s = [] ∨ s.head? = some 0x5F ∨ s.getLast? = some 0x5F then none else accumulate 0 s

def parseInt : List UInt8 → Option ℤ
  | [] => none
  | c :: s =>
    if c = 0x2B then (parseUnsigned s).map fun n => (n : ℤ)
    else if c = 0x2D then (parseUnsigned s).map fun n => -(n : ℤ)
    else (parseUnsigned (c :: s)).map fun n => (n : ℤ)

theorem accumulate_append {as bs : List UInt8} {acc m : ℕ} (h : accumulate acc as = some m) :
    accumulate acc (as ++ bs) = accumulate m bs := by
  induction as generalizing acc with
  | nil => rw [Option.some.inj h, List.nil_append]
  | cons c cs ih =>
    rw [accumulate] at h
    rw [List.cons_append, accumulate]
    split
    · rw [if_pos ‹_›] at h
      exact ih h
    · rw [if_neg ‹_›] at h
      split
      · rw [if_pos ‹_›] at h
        exact ih h
      · simp [*] at h

theorem accumulate_digit {d : ℕ} (hd : d < 10) (acc : ℕ) :
    accumulate acc [digit d] = some (10 * acc + d) := by
  have hne : digit d ≠ 0x5F := by
    intro h
    have := congrArg UInt8.toNat h
    rw [toNat_digit hd] at this
    simp at this
    omega
  rw [accumulate, if_neg hne, if_pos (isDigit_digit hd), accumulate, toNat_digit hd,
    Nat.add_sub_cancel_left]

theorem accumulate_decimal (n : ℕ) : accumulate 0 (decimal n) = some n := by
  induction n using decimal.induct with
  | case1 n hn =>
    rw [decimal, if_pos hn, accumulate_digit hn]
    simp
  | case2 n hn ih =>
    rw [decimal, if_neg hn, accumulate_append ih, accumulate_digit (Nat.mod_lt _ (by omega))]
    exact congrArg some (Nat.div_add_mod n 10)

theorem parseUnsigned_decimal (n : ℕ) : parseUnsigned (decimal n) = some n := by
  have hne : ∀ b ∈ decimal n, b ≠ 0x5F := by
    rintro b hb rfl
    exact absurd (isDigit_of_mem_decimal hb) (by decide)
  obtain ⟨d, ds, heq, -⟩ := decimal_eq_cons n
  rw [parseUnsigned, if_neg, accumulate_decimal]
  rintro (h | h | h)
  · simp [heq] at h
  · exact hne _ (List.mem_of_mem_head? h) rfl
  · exact hne _ (List.mem_of_mem_getLast? h) rfl

/-- **What is written is read back.** -/
theorem parseInt_decimalInt (n : ℤ) : parseInt (decimalInt n) = some n := by
  cases n with
  | ofNat n =>
    obtain ⟨d, ds, heq, hd, -⟩ := decimal_eq_cons n
    have hdigit : isDigit (digit d) = true := isDigit_digit hd
    have hplus : digit d ≠ 0x2B := fun h => absurd (h ▸ hdigit) (by decide)
    have hminus : digit d ≠ 0x2D := fun h => absurd (h ▸ hdigit) (by decide)
    have hread := parseUnsigned_decimal n
    rw [heq] at hread
    rw [decimalInt, heq, parseInt, if_neg hplus, if_neg hminus, hread]
    rfl
  | negSucc n =>
    rw [decimalInt, parseInt, if_neg (by decide), if_pos rfl, parseUnsigned_decimal]
    rfl

end Digits
