import Mathlib.Algebra.Order.Ring.Nat
import Mathlib.Data.List.Basic

/-!
# Blocks of addresses

An address is a list of bytes, the most significant one first.  A block is all addresses of one
length that begin with the same bits.

* `value`: the number.  `value_append_div`: the number of the bytes in front.
* `Block.Contains`.  `contains_append`: the bytes that reach over the bits of a block decide.
-/

namespace AddressBlock

/-- The number that the bytes stand for. -/
def value : List UInt8 → ℕ
  | [] => 0
  | c :: rest => c.toNat * 256 ^ rest.length + value rest

theorem value_lt (bs : List UInt8) : value bs < 256 ^ bs.length := by
  induction bs with
  | nil => exact Nat.one_pos
  | cons c rest ih =>
    have hc := c.toNat_lt
    have hle : (c.toNat + 1) * 256 ^ rest.length ≤ 256 * 256 ^ rest.length :=
      Nat.mul_le_mul_right _ hc
    rw [value, List.length_cons, Nat.pow_succ, Nat.mul_comm (256 ^ rest.length)]
    rw [Nat.succ_mul] at hle
    omega

theorem value_append (front back : List UInt8) :
    value (front ++ back) = value front * 256 ^ back.length + value back := by
  induction front with
  | nil => simp [value]
  | cons c front ih =>
    rw [List.cons_append, value, value, ih, List.length_append, Nat.pow_add, Nat.add_mul,
      Nat.mul_assoc, Nat.add_assoc]

/-- **The bytes in front are the high ones.** -/
theorem value_append_div (front back : List UInt8) :
    value (front ++ back) / 256 ^ back.length = value front := by
  rw [value_append, Nat.mul_comm, Nat.mul_add_div (Nat.pow_pos (by decide)),
    Nat.div_eq_of_lt (value_lt back), Nat.add_zero]

theorem value_inj {as bs : List UInt8} (hlength : as.length = bs.length)
    (h : value as = value bs) : as = bs := by
  induction as generalizing bs with
  | nil => exact (List.length_eq_zero_iff.mp hlength.symm).symm
  | cons c as ih =>
    obtain ⟨d, bs, rfl⟩ := List.exists_cons_of_length_eq_add_one hlength.symm
    have hrest : as.length = bs.length := Nat.succ.inj hlength
    have hhead (e : UInt8) (l : List UInt8) : value (e :: l) / 256 ^ l.length = e.toNat := by
      have hdiv := value_append_div [e] l
      rwa [List.singleton_append, show value [e] = e.toNat by simp [value]] at hdiv
    have hcd : c = d := UInt8.toNat_inj.mp (by rw [← hhead c as, ← hhead d bs, h, hrest])
    rw [value, value, hcd, hrest] at h
    rw [hcd, ih hrest (Nat.add_left_cancel h)]

/-- The addresses that have the first `bits` bits of `net`. -/
structure Block where
  net : List UInt8
  bits : ℕ
  deriving DecidableEq

/-- The first bits of an address. -/
def head (bits : ℕ) (address : List UInt8) : ℕ := value address / 2 ^ (8 * address.length - bits)

def Block.Contains (b : Block) (address : List UInt8) : Prop :=
  address.length = b.net.length ∧ head b.bits address = head b.bits b.net

instance decidableContains (b : Block) (address : List UInt8) : Decidable (b.Contains address) :=
  inferInstanceAs (Decidable (_ ∧ _))

theorem head_append {bits : ℕ} {front : List UInt8} (hbits : bits ≤ 8 * front.length)
    (back : List UInt8) : head bits (front ++ back) = head bits front := by
  have hsplit : 8 * (front ++ back).length - bits =
      8 * back.length + (8 * front.length - bits) := by
    rw [List.length_append]
    omega
  have hpow : 2 ^ (8 * back.length) = 256 ^ back.length := Nat.pow_mul 2 8 back.length
  rw [head, hsplit, Nat.pow_add, ← Nat.div_div_eq_div_mul, hpow, value_append_div, head]

/-- **Only the bytes in front decide.** -/
theorem contains_append {bits : ℕ} {front front' back back' : List UInt8}
    (hfront : front.length = front'.length) (hback : back.length = back'.length)
    (hbits : bits ≤ 8 * front.length) :
    (⟨front' ++ back', bits⟩ : Block).Contains (front ++ back) ↔
      head bits front = head bits front' := by
  have hlength : (front ++ back).length = (front' ++ back').length := by
    rw [List.length_append, List.length_append, hfront, hback]
  rw [Block.Contains, and_iff_right hlength, head_append hbits, head_append (hfront ▸ hbits)]

theorem head_pair (bits : ℕ) (c d : UInt8) :
    head bits [c, d] = (c.toNat * 256 + d.toNat) / 2 ^ (16 - bits) := by
  simp [head, value]

/-- A block of one address. -/
theorem contains_full {net address : List UInt8} :
    (⟨net, 8 * net.length⟩ : Block).Contains address ↔ address = net := by
  constructor
  · rintro ⟨hlength, hhead⟩
    dsimp only at hlength hhead
    rw [head, head, hlength, Nat.sub_self, Nat.pow_zero, Nat.div_one, Nat.div_one] at hhead
    exact value_inj hlength hhead
  · rintro rfl
    exact ⟨rfl, rfl⟩

end AddressBlock
