import Mathlib.Data.Rat.Floor
import Mathlib.Logic.Function.Basic
import Mathlib.Tactic.Linarith
import Mathlib.Tactic.Ring
import TigerClaw.Basic
import TigerClaw.Library.Checked

/-!
# The allowlist

`src/channels/allowlist.zig`: which senders may speak, and how often.  Each sender has a bucket of
tokens that is refilled as time passes; in wildcard mode all share one.  Rates and tokens are exact
numbers here.

* `Allowlist.init`, `Allowlist.admit`.
* `Allowlist.admit_cases`: what a call does to the bucket of its sender.
-/

namespace TigerClaw
namespace Channels

inductive Decision where
  | allow
  | rejectedUnauthorized
  | rejectedRateLimited
  deriving DecidableEq

structure Config where
  senders : List Bytes
  ratePerSecond : ℚ := 1

inductive ConfigError where
  | wildcardWithEntries

structure Bucket where
  tokens : ℚ
  lastRefillMs : Int64

structure Allowlist where
  wildcard : Bool
  ratePerMs : ℚ
  burst : ℕ
  buckets : Bytes → Option Bucket

/-- `burst_u`: the cast to `u32` is checked. -/
def burstOf (rate : ℚ) : Outcome ConfigError ℕ :=
  if 0 ≤ ⌈rate * 4⌉ ∧ ⌈rate * 4⌉ < 2 ^ 32 then .ok (max 1 ⌈rate * 4⌉.toNat) else .trap .intCast

def Config.hasWildcard (self : Config) : Bool := self.senders.any (· == ascii "*")

/-- `wildcard_key`. -/
def wildcardKey : Bytes := []

/-- The keys of the buckets. -/
def Config.keys (self : Config) : List Bytes :=
  if self.hasWildcard then [wildcardKey] else self.senders

namespace Allowlist

/-- `init`, where the allocator grants what it needs. -/
def init (cfg : Config) : Outcome ConfigError Allowlist :=
  if cfg.hasWildcard ∧ 0 < cfg.senders.countP (· != ascii "*") then .error .wildcardWithEntries
  else do
    let burst ← burstOf cfg.ratePerSecond
    .ok {
      wildcard := cfg.hasWildcard
      ratePerMs := cfg.ratePerSecond / 1000
      burst
      buckets := fun key => if cfg.keys.contains key then some ⟨burst, 0⟩ else none }

def key (self : Allowlist) (senderId : Bytes) : Bytes :=
  if self.wildcard then wildcardKey else senderId

/-- The refill: the first contact starts the clock.  The difference is an `i64`. -/
def refill (self : Allowlist) (bucket : Bucket) (nowMs : Int64) : Outcome Empty Bucket :=
  if bucket.lastRefillMs = 0 then .ok { bucket with lastRefillMs := nowMs }
  else if bucket.lastRefillMs < nowMs then
    let elapsed := nowMs.toInt - bucket.lastRefillMs.toInt
    if elapsed < 2 ^ 63 then
      .ok ⟨min self.burst (bucket.tokens + elapsed * self.ratePerMs), nowMs⟩
    else .trap .overflow
  else .ok bucket

/-- `bucket.*`. -/
def setBucket (self : Allowlist) (key : Bytes) (bucket : Bucket) : Allowlist :=
  { self with buckets := Function.update self.buckets key (some bucket) }

theorem setBucket_buckets_self (self : Allowlist) (key : Bytes) (bucket : Bucket) :
    (self.setBucket key bucket).buckets key = some bucket := Function.update_self ..

theorem setBucket_buckets_of_ne (self : Allowlist) {key key' : Bytes} (h : key' ≠ key)
    (bucket : Bucket) : (self.setBucket key bucket).buckets key' = self.buckets key' :=
  Function.update_of_ne h ..

/-- `Allowlist.admit`. -/
def admitSender (self : Allowlist) (senderId : Bytes) (nowMs : Int64) :
    Outcome Empty (Decision × Allowlist) :=
  match self.buckets (self.key senderId) with
  | none => .ok (.rejectedUnauthorized, self)
  | some bucket => do
    let bucket ← self.refill bucket nowMs
    if 1 ≤ bucket.tokens then
      .ok (.allow, self.setBucket (self.key senderId) { bucket with tokens := bucket.tokens - 1 })
    else .ok (.rejectedRateLimited, self.setBucket (self.key senderId) bucket)

/-! ## What a call does -/

/-- At this reading the bucket is not refilled any more. -/
def Settled (bucket : Bucket) (t : Int64) : Prop :=
  bucket.lastRefillMs = 0 ∨ t ≤ bucket.lastRefillMs

/-- A refill does not go over the burst, and there is one for each reading. -/
theorem refill_eq_ok {self : Allowlist} {b b' : Bucket} {t : Int64}
    (h : self.refill b t = .ok b') (hle : b.tokens ≤ self.burst) :
    b'.tokens ≤ self.burst ∧ Settled b' t ∧ (Settled b t → b'.tokens = b.tokens) := by
  rw [refill] at h
  split at h
  · obtain rfl := Outcome.ok.inj h
    exact ⟨hle, .inr (Int64.le_refl t), fun _ => rfl⟩
  · rename_i hzero
    split at h
    · rename_i hlt
      dsimp only at h
      split at h
      · obtain rfl := Outcome.ok.inj h
        refine ⟨min_le_left _ _, .inr (Int64.le_refl t), fun hsettled => ?_⟩
        rcases hsettled with hsettled | hsettled
        · exact absurd hsettled hzero
        · exact absurd hlt (Int64.not_lt.mpr hsettled)
      · exact nomatch h
    · rename_i hnot
      obtain rfl := Outcome.ok.inj h
      exact ⟨hle, .inr (Int64.not_lt.mp hnot), fun _ => rfl⟩

/-- What a call does to a bucket that has no more tokens than the burst. -/
structure Spends (burst : ℕ) (t : Int64) (d : Decision) (b b' : Bucket) : Prop where
  le_burst : b'.tokens ≤ burst
  settled : Settled b' t
  allowed : d = .allow → 0 ≤ b'.tokens ∧ b'.tokens + 1 ≤ burst ∧
    (Settled b t → b'.tokens + 1 = b.tokens)
  refused : d ≠ .allow → Settled b t → b'.tokens = b.tokens

/-- **What a call does**: an unlisted sender is rejected, and any other spends from its bucket. -/
theorem admit_cases {self self' : Allowlist} {senderId : Bytes} {t : Int64} {d : Decision}
    (h : self.admitSender senderId t = .ok (d, self')) :
    (self.buckets (self.key senderId) = none ∧ d = .rejectedUnauthorized ∧ self' = self) ∨
      ∃ b b', self.buckets (self.key senderId) = some b ∧
        self' = self.setBucket (self.key senderId) b' ∧
        (b.tokens ≤ self.burst → Spends self.burst t d b b') := by
  rw [admitSender] at h
  split at h
  · rename_i hnone
    obtain ⟨rfl, rfl⟩ := Prod.mk.inj (Outcome.ok.inj h)
    exact .inl ⟨hnone, rfl, rfl⟩
  · rename_i b hsome
    obtain ⟨b₁, hrefill, h⟩ := Outcome.bind_eq_ok.mp h
    refine .inr ⟨b, ?_⟩
    split at h
    · rename_i htoken
      obtain ⟨rfl, rfl⟩ := Prod.mk.inj (Outcome.ok.inj h)
      refine ⟨_, hsome, rfl, fun hle => ?_⟩
      obtain ⟨hle₁, hsettled, hsame⟩ := refill_eq_ok hrefill hle
      refine ⟨by dsimp only; linarith, hsettled, fun _ => ⟨by dsimp only; linarith,
        by dsimp only; linarith, fun hs => ?_⟩, fun hd => absurd rfl hd⟩
      rw [← hsame hs]
      ring
    · obtain ⟨rfl, rfl⟩ := Prod.mk.inj (Outcome.ok.inj h)
      refine ⟨b₁, hsome, rfl, fun hle => ?_⟩
      obtain ⟨hle₁, hsettled, hsame⟩ := refill_eq_ok hrefill hle
      exact ⟨hle₁, hsettled, fun hd => (by cases hd), fun _ => hsame⟩

theorem burst_pos {cfg : Config} {self : Allowlist} (h : init cfg = .ok self) : 0 < self.burst := by
  rw [init] at h
  split at h
  · exact nomatch h
  obtain ⟨burst, hburst, h⟩ := Outcome.bind_eq_ok.mp h
  obtain rfl := Outcome.ok.inj h
  rw [burstOf] at hburst
  split at hburst
  · obtain rfl := Outcome.ok.inj hburst
    exact Nat.lt_of_lt_of_le Nat.one_pos (le_max_left _ _)
  · exact nomatch hburst

theorem wildcard_init {cfg : Config} {self : Allowlist} (h : init cfg = .ok self) :
    self.wildcard = cfg.hasWildcard := by
  rw [init] at h
  split at h
  · exact nomatch h
  obtain ⟨burst, -, h⟩ := Outcome.bind_eq_ok.mp h
  obtain rfl := Outcome.ok.inj h
  rfl

/-- The buckets at the start are full. -/
theorem buckets_init {cfg : Config} {self : Allowlist} (h : init cfg = .ok self) {key : Bytes}
    {b : Bucket} (hb : self.buckets key = some b) : key ∈ cfg.keys ∧ b.tokens = self.burst := by
  rw [init] at h
  split at h
  · exact nomatch h
  obtain ⟨burst, -, h⟩ := Outcome.bind_eq_ok.mp h
  obtain rfl := Outcome.ok.inj h
  dsimp only at hb
  split at hb
  · rename_i hkey
    obtain rfl := Option.some.inj hb
    exact ⟨List.contains_iff_mem.mp hkey, rfl⟩
  · exact nomatch hb

end Allowlist

end Channels
end TigerClaw
