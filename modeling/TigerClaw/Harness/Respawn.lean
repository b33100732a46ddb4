import TigerClaw.Library.Checked
import Mathlib.Algebra.Order.Ring.Nat

/-!
# Respawning a session

`src/harness/respawn.zig`: how often a session is restarted after a fatal turn, and how long the
caller waits before it is.

* `Controller.decide`, `Controller.backoffForCount`: the code.
* `Policy.limit`: what a wait is bounded by.
* `backoffForCount_eq_min`: the wait is an exact power, cut at the limit.
-/

namespace TigerClaw
namespace Harness
namespace Respawn

structure Policy where
  maxRespawns : UInt32 := 0
  initialBackoffNs : UInt64 := 0
  backoffMultiplier : UInt32 := 1
  maxBackoffNs : UInt64 := 0

inductive Decision where
  | allow
  | exhausted

structure Controller where
  policy : Policy
  respawnCount : UInt32 := 0

/-- `std.math.mul(u64, a, b) catch maxInt(u64)`. -/
def mulOrMax (a b : UInt64) : UInt64 := UInt64.ofNat (min (a.toNat * b.toNat) (2 ^ 64 - 1))

theorem toNat_mulOrMax (a b : UInt64) :
    (mulOrMax a b).toNat = min (a.toNat * b.toNat) (2 ^ 64 - 1) := by
  rw [mulOrMax, UInt64.toNat_ofNat_of_lt']
  simp only [UInt64.size]
  omega

namespace Controller

def init (policy : Policy) : Controller := { policy }

/-- `decide`: the answer, and the controller with one respawn more if it is granted. -/
def decide (self : Controller) : Decision × Controller :=
  if self.policy.maxRespawns ≤ self.respawnCount then (.exhausted, self)
  else (.allow, { self with respawnCount := self.respawnCount + 1 })

/-- The wait is above the cap, if there is one. -/
def above (self : Controller) (delay : UInt64) : Prop :=
  self.policy.maxBackoffNs ≠ 0 ∧ self.policy.maxBackoffNs < delay

instance (self : Controller) : DecidablePred self.above := fun _ =>
  inferInstanceAs (Decidable (_ ∧ _))

/-- `while (i < n) : (i += 1)`, with the number of rounds that are left. -/
def grow (self : Controller) : ℕ → UInt64 → UInt64
  | 0, delay => delay
  | rounds + 1, delay =>
    let next := mulOrMax delay self.policy.backoffMultiplier.toUInt64
    if self.above next then self.policy.maxBackoffNs else grow self rounds next

def backoffForCount (self : Controller) (n : UInt32) : UInt64 :=
  if self.policy.initialBackoffNs = 0 ∨ n = 0 then 0
  else
    let delay := self.grow (n.toNat - 1) self.policy.initialBackoffNs
    if self.above delay then self.policy.maxBackoffNs else delay

/-- `nextBackoffNs`; the counter is an `u32`. -/
def nextBackoffNs (self : Controller) : Outcome Empty UInt64 := do
  let n ← UInt32.checkedAdd self.respawnCount 1
  pure (self.backoffForCount n)

end Controller

/-- The cap, and what 64 bits hold if there is none. -/
def Policy.limit (self : Policy) : ℕ :=
  if self.maxBackoffNs = 0 then 2 ^ 64 - 1 else self.maxBackoffNs.toNat

namespace Controller

variable {self : Controller}

theorem above_iff {delay : UInt64} : self.above delay ↔ self.policy.limit < delay.toNat := by
  rw [above, Policy.limit, UInt64.lt_iff_toNat_lt]
  have hmax := delay.toNat_lt
  by_cases hzero : self.policy.maxBackoffNs = 0
  · rw [if_pos hzero]
    exact iff_of_false (fun h => h.1 hzero) (by omega)
  · rw [if_neg hzero]
    exact and_iff_right hzero

theorem toNat_maxBackoffNs {delay : UInt64} (h : self.above delay) :
    self.policy.maxBackoffNs.toNat = self.policy.limit := by
  rw [Policy.limit, if_neg h.1]

theorem limit_lt (policy : Policy) : policy.limit < 2 ^ 64 := by
  have hmax := policy.maxBackoffNs.toNat_lt
  rw [Policy.limit]
  split <;> omega

/-- A factor that is not zero cannot carry a product below the limit again. -/
theorem min_mul_of_le {limit d k : ℕ} (hd : limit ≤ d) (hk : 1 ≤ k) : min limit (d * k) = limit :=
  Nat.min_eq_left (hd.trans (Nat.le_mul_of_pos_right d hk))

/-- **Below the limit the rounds multiply exactly**; a round that saturates or is cut is at it. -/
theorem min_limit_grow (h : 1 ≤ self.policy.backoffMultiplier) (rounds : ℕ) (delay : UInt64) :
    min self.policy.limit (self.grow rounds delay).toNat =
      min self.policy.limit (delay.toNat * self.policy.backoffMultiplier.toNat ^ rounds) := by
  have hlimit := limit_lt self.policy
  have hpos : 1 ≤ self.policy.backoffMultiplier.toNat := UInt32.le_iff_toNat_le.mp h
  induction rounds generalizing delay with
  | zero => rw [grow, pow_zero, Nat.mul_one]
  | succ rounds ih =>
    have hpow : 1 ≤ self.policy.backoffMultiplier.toNat ^ rounds := Nat.one_le_pow _ _ hpos
    have hnext : (mulOrMax delay self.policy.backoffMultiplier.toUInt64).toNat =
        min (delay.toNat * self.policy.backoffMultiplier.toNat) (2 ^ 64 - 1) := by
      rw [toNat_mulOrMax, UInt32.toNat_toUInt64]
    rw [grow, pow_succ', ← Nat.mul_assoc]
    by_cases habove : self.above (mulOrMax delay self.policy.backoffMultiplier.toUInt64)
    · have hover : self.policy.limit ≤ delay.toNat * self.policy.backoffMultiplier.toNat := by
        have hlt := above_iff.mp habove
        omega
      rw [if_pos habove, toNat_maxBackoffNs habove, min_self, min_mul_of_le hover hpow]
    · rw [if_neg habove, ih, hnext]
      rcases Nat.lt_or_ge (2 ^ 64 - 1) (delay.toNat * self.policy.backoffMultiplier.toNat) with
        hsat | hexact
      · rw [Nat.min_eq_right hsat.le, min_mul_of_le (by omega) hpow,
          min_mul_of_le (by omega) hpow]
      · rw [Nat.min_eq_left hexact]

/-- The wait before a respawn is what the rounds make of the first one, cut at the limit. -/
theorem toNat_backoffForCount {n : UInt32} (hn : n ≠ 0) :
    (self.backoffForCount n).toNat =
      if self.policy.initialBackoffNs = 0 then 0
      else min self.policy.limit (self.grow (n.toNat - 1) self.policy.initialBackoffNs).toNat := by
  rw [backoffForCount]
  by_cases hzero : self.policy.initialBackoffNs = 0
  · rw [if_pos (.inl hzero), if_pos hzero]
    rfl
  rw [if_neg (not_or.mpr ⟨hzero, hn⟩), if_neg hzero]
  dsimp only
  split
  · rename_i habove
    rw [toNat_maxBackoffNs habove, Nat.min_eq_left (above_iff.mp habove).le]
  · rename_i habove
    rw [Nat.min_eq_right (Nat.not_lt.mp (above_iff.not.mp habove))]

/-- **The closed form of the wait.** -/
theorem toNat_backoffForCount_eq_min (h : 1 ≤ self.policy.backoffMultiplier) {n : UInt32}
    (hn : n ≠ 0) :
    (self.backoffForCount n).toNat =
      min self.policy.limit (self.policy.initialBackoffNs.toNat *
        self.policy.backoffMultiplier.toNat ^ (n.toNat - 1)) := by
  rw [toNat_backoffForCount hn]
  split
  · rename_i hzero
    rw [hzero, UInt64.toNat_zero, Nat.zero_mul, Nat.min_zero]
  · exact min_limit_grow h _ _

/-- **The wait is an exact power of the multiplier times the first one, cut at the limit**, and so
it does not shrink from one respawn to the next. -/
theorem backoffForCount_eq_min (h : 1 ≤ self.policy.backoffMultiplier) :
    (∀ n : UInt32, 1 ≤ n → (self.backoffForCount n).toNat =
      min self.policy.limit (self.policy.initialBackoffNs.toNat *
        self.policy.backoffMultiplier.toNat ^ (n.toNat - 1))) ∧
    ∀ m n : UInt32, 1 ≤ m → m ≤ n → self.backoffForCount m ≤ self.backoffForCount n := by
  have hne : ∀ n : UInt32, 1 ≤ n → n ≠ 0 := by
    rintro n hn rfl
    exact absurd (UInt32.le_iff_toNat_le.mp hn) (Nat.not_succ_le_zero 0)
  refine ⟨fun n hn => toNat_backoffForCount_eq_min h (hne n hn), fun m n hm hmn => ?_⟩
  have hle : m.toNat - 1 ≤ n.toNat - 1 := Nat.sub_le_sub_right (UInt32.le_iff_toNat_le.mp hmn) 1
  have hpow := Nat.pow_le_pow_right (UInt32.le_iff_toNat_le.mp h) hle
  rw [UInt64.le_iff_toNat_le, toNat_backoffForCount_eq_min h (hne m hm),
    toNat_backoffForCount_eq_min h (hne n (UInt32.le_trans hm hmn))]
  exact min_le_min_left _ (Nat.mul_le_mul_left _ hpow)

/-- A wait that doubles, below a cap of 300. -/
def doubling : Controller :=
  init { initialBackoffNs := 100, backoffMultiplier := 2, maxBackoffNs := 300 }

theorem backoffForCount_eq_min_doubling :
    (∀ n : UInt32, 1 ≤ n →
      (doubling.backoffForCount n).toNat = min 300 (100 * 2 ^ (n.toNat - 1))) ∧
    ∀ m n : UInt32, 1 ≤ m → m ≤ n → doubling.backoffForCount m ≤ doubling.backoffForCount n :=
  @backoffForCount_eq_min doubling (by decide)

/-! ## The counter -/

/-- **No more respawns are granted than the policy has**, and so the counter does not overflow. -/
theorem respawnCount_decide_le (h : self.respawnCount ≤ self.policy.maxRespawns) :
    self.decide.2.respawnCount ≤ self.decide.2.policy.maxRespawns := by
  rw [decide]
  split
  · exact h
  · rename_i hlt
    show self.respawnCount + 1 ≤ self.policy.maxRespawns
    rw [UInt32.le_iff_toNat_le] at hlt h ⊢
    have hmax := self.policy.maxRespawns.toNat_lt
    have hone : (self.respawnCount + 1).toNat = self.respawnCount.toNat + 1 := by
      rw [UInt32.toNat_add, Nat.mod_eq_of_lt] <;> rw [show (1 : UInt32).toNat = 1 from rfl]
      omega
    rw [hone]
    omega

end Controller

end Respawn
end Harness
end TigerClaw
