import Mathlib.Algebra.Ring.Nat
import Mathlib.Algebra.Ring.Int.Defs
import TigerClaw.Library.Checked
import TigerClaw.Library.StepMachine

/-!
# Calls to a provider that may fail

`src/llm/reliability`: the circuit breaker, the delay between two attempts and the rate limiter.

* `Breaker.allow`, `Breaker.recordSuccess`, `Breaker.recordFailure`: the breaker.  `History`: a
  breaker together with the reading of the clock at which it last opened, and the number of trial
  calls since it became half open.
* `probes_iff`: the breaker waits for its cooldown in every run; it lets one trial call through
  exactly in the runs that do not ask it again while it is half open.
* `scheduleBackoff`: the delay.  `Meets`: it is as long as it should be.
* `backoff_iff`: all of them are, exactly where no shift loses a bit and no jitter goes beyond the
  top.
* `Limiter.advanceNs`, `Limiter.tryConsume`: the rate limiter.
* `limiter_iff`: it grants no more than it should in every run.  An interval that is split refills
  as much as the whole exactly where the fractions that are dropped stay below one token.
-/

namespace TigerClaw
namespace Llm

/-- An operation on `i128`. -/
def i128 {ε : Type} (n : ℤ) : Outcome ε ℤ :=
  if -2 ^ 127 ≤ n ∧ n < 2 ^ 127 then .ok n else .trap .overflow

theorem i128_eq_ok {ε : Type} {n m : ℤ} (h : (i128 n : Outcome ε ℤ) = .ok m) : m = n := by
  rw [i128] at h
  split at h
  · exact (Outcome.ok.inj h).symm
  · cases h

namespace CircuitBreaker

inductive State where
  | closed
  | opened
  | halfOpen
  deriving DecidableEq

structure Config where
  failureThreshold : UInt32 := 5
  cooldownNs : ℤ := 10000000000

structure Breaker where
  config : Config
  state : State := .closed
  failures : UInt32 := 0
  openedAtNs : ℤ := 0

namespace Breaker

def init (config : Config) : Breaker := { config }

def allow (self : Breaker) (nowNs : ℤ) : Outcome Empty (Bool × Breaker) :=
  match self.state with
  | .closed | .halfOpen => .ok (true, self)
  | .opened => do
    let elapsed ← i128 (nowNs - self.openedAtNs)
    if self.config.cooldownNs ≤ elapsed then .ok (true, { self with state := .halfOpen })
    else .ok (false, self)

def recordSuccess (self : Breaker) : Breaker := { self with state := .closed, failures := 0 }

def recordFailure (self : Breaker) (nowNs : ℤ) : Breaker :=
  match self.state with
  | .halfOpen =>
    { self with
      state := .opened
      openedAtNs := nowNs
      failures := self.config.failureThreshold }
  | .closed | .opened =>
    let self := { self with failures := UInt32.satAdd self.failures 1 }
    if self.config.failureThreshold ≤ self.failures ∧ self.state ≠ .opened then
      { self with state := .opened, openedAtNs := nowNs }
    else self

/-- What `allow` can do. -/
theorem allow_eq_ok {self b : Breaker} {nowNs : ℤ} {granted : Bool}
    (h : self.allow nowNs = .ok (granted, b)) :
    (self.state ≠ .opened ∧ granted = true ∧ b = self) ∨
      (self.state = .opened ∧ self.config.cooldownNs ≤ nowNs - self.openedAtNs ∧
        granted = true ∧ b = { self with state := .halfOpen }) ∨
      (self.state = .opened ∧ granted = false ∧ b = self) := by
  rw [allow] at h
  cases hstate : self.state with
  | closed =>
    rw [hstate] at h
    cases h
    exact .inl ⟨State.noConfusion, rfl, rfl⟩
  | halfOpen =>
    rw [hstate] at h
    cases h
    exact .inl ⟨State.noConfusion, rfl, rfl⟩
  | opened =>
    rw [hstate] at h
    obtain ⟨elapsed, helapsed, h⟩ := Outcome.bind_eq_ok.mp h
    obtain rfl := i128_eq_ok helapsed
    split at h
    · next hcooldown =>
      cases h
      exact .inr (.inl ⟨rfl, hcooldown, rfl, rfl⟩)
    · cases h
      exact .inr (.inr ⟨rfl, rfl, rfl⟩)

/-- What `recordFailure` can do: it opens the breaker, or leaves its state. -/
theorem recordFailure_cases (self : Breaker) (nowNs : ℤ) :
    (self.state ≠ .opened ∧ (self.recordFailure nowNs).state = .opened ∧
        (self.recordFailure nowNs).openedAtNs = nowNs) ∨
      (self.state ≠ .halfOpen ∧ (self.recordFailure nowNs).state = self.state ∧
        (self.recordFailure nowNs).openedAtNs = self.openedAtNs) := by
  obtain ⟨config, state, failures, openedAtNs⟩ := self
  rw [recordFailure]
  cases state with
  | halfOpen => exact .inl ⟨State.noConfusion, rfl, rfl⟩
  | closed =>
    dsimp only
    split
    · exact .inl ⟨State.noConfusion, rfl, rfl⟩
    · exact .inr ⟨State.noConfusion, rfl, rfl⟩
  | opened =>
    dsimp only
    rw [if_neg fun hboth => hboth.2 rfl]
    exact .inr ⟨State.noConfusion, rfl, rfl⟩

end Breaker

/-! ## Runs -/

inductive Call where
  | allow (nowNs : ℤ)
  | recordSuccess (nowNs : ℤ)
  | recordFailure (nowNs : ℤ)

/-- A breaker and what has happened to it. -/
structure History where
  breaker : Breaker
  /-- The reading of the clock at which the breaker last opened. -/
  openedAt : ℤ := 0
  /-- The calls that were let through since the breaker became half open, while no outcome has come
  back. -/
  trials : ℕ := 0

namespace History

def start (config : Config) : History := { breaker := .init config }

def step (self : History) : Call → Option History
  | .allow nowNs => do
    let (granted, breaker) ← (self.breaker.allow nowNs).toOption
    if granted ∧ breaker.state = .halfOpen then
      some { self with breaker, trials := self.trials + 1 }
    else some { self with breaker }
  | .recordSuccess _ => some { self with breaker := self.breaker.recordSuccess, trials := 0 }
  | .recordFailure nowNs =>
    let breaker := self.breaker.recordFailure nowNs
    if breaker.state = .opened ∧ self.breaker.state ≠ .opened then
      some { breaker, openedAt := nowNs, trials := 0 }
    else some { self with breaker, trials := 0 }

/-- No call is let through before the cooldown is over. -/
def Waits (self : History) : Prop :=
  ∀ nowNs breaker, self.breaker.state = .opened →
    self.breaker.allow nowNs = .ok (true, breaker) →
      self.breaker.config.cooldownNs ≤ nowNs - self.openedAt

/-- At most one trial call has been let through. -/
def OneTrial (self : History) : Prop := self.trials ≤ 1

/-- The call does not ask a breaker that is half open. -/
def Patient (self : History) (call : Call) : Prop :=
  ∀ nowNs, call = .allow nowNs → self.breaker.state ≠ .halfOpen

/-- The breaker has its opening time right, and counts trial calls while it is half open. -/
structure Sound (s : History) : Prop where
  openedAt : s.breaker.state = .opened → s.breaker.openedAtNs = s.openedAt
  trials : s.breaker.state ≠ .halfOpen → s.trials = 0
  trial : s.breaker.state = .halfOpen → 1 ≤ s.trials

theorem sound_start (config : Config) : Sound (start config) where
  openedAt := State.noConfusion
  trials _ := rfl
  trial := State.noConfusion

/-- **How a call changes the history.** -/
theorem step_cases {self next : History} {call : Call} (h : self.step call = some next) :
    (∃ nowNs, call = .allow nowNs ∧ self.breaker.state = .halfOpen ∧
        next = { self with trials := self.trials + 1 }) ∨
      (∃ nowNs, call = .allow nowNs ∧ self.breaker.state = .opened ∧
        next = { self with
          breaker := { self.breaker with state := .halfOpen }, trials := self.trials + 1 }) ∨
      (∃ nowNs, call = .allow nowNs ∧ self.breaker.state ≠ .halfOpen ∧ next = self) ∨
      (∃ nowNs, call = .recordSuccess nowNs ∧
        next = { self with breaker := self.breaker.recordSuccess, trials := 0 }) ∨
      (∃ nowNs, call = .recordFailure nowNs ∧ (self.breaker.recordFailure nowNs).state = .opened ∧
        (self.breaker.recordFailure nowNs).openedAtNs = nowNs ∧
        next = { breaker := self.breaker.recordFailure nowNs, openedAt := nowNs, trials := 0 }) ∨
      (∃ nowNs, call = .recordFailure nowNs ∧ self.breaker.state ≠ .halfOpen ∧
        (self.breaker.recordFailure nowNs).state = self.breaker.state ∧
        (self.breaker.recordFailure nowNs).openedAtNs = self.breaker.openedAtNs ∧
        next = { self with breaker := self.breaker.recordFailure nowNs, trials := 0 }) := by
  cases call with
  | allow nowNs =>
    obtain ⟨⟨granted, breaker⟩, hallow, h⟩ := Option.bind_eq_some_iff.mp h
    dsimp only at h
    obtain ⟨hopened, rfl, rfl⟩ | ⟨hopened, -, rfl, rfl⟩ | ⟨hopened, rfl, rfl⟩ :=
      Breaker.allow_eq_ok (Outcome.toOption_eq_some.mp hallow)
    · by_cases hhalf : self.breaker.state = .halfOpen
      · rw [if_pos ⟨rfl, hhalf⟩] at h
        exact .inl ⟨nowNs, rfl, hhalf, (Option.some.inj h).symm⟩
      · rw [if_neg fun hboth => hhalf hboth.2] at h
        exact .inr (.inr (.inl ⟨nowNs, rfl, hhalf, (Option.some.inj h).symm⟩))
    · rw [if_pos ⟨rfl, rfl⟩] at h
      exact .inr (.inl ⟨nowNs, rfl, hopened, (Option.some.inj h).symm⟩)
    · rw [if_neg fun hboth => Bool.false_ne_true hboth.1] at h
      refine .inr (.inr (.inl ⟨nowNs, rfl, ?_, (Option.some.inj h).symm⟩))
      rw [hopened]
      exact State.noConfusion
  | recordSuccess nowNs =>
    exact .inr (.inr (.inr (.inl ⟨nowNs, rfl, (Option.some.inj h).symm⟩)))
  | recordFailure nowNs =>
    rw [step] at h
    obtain ⟨hclosed, hopened, hat⟩ | ⟨hhalf, hsame, hat⟩ :=
      self.breaker.recordFailure_cases nowNs
    · rw [if_pos ⟨hopened, hclosed⟩] at h
      exact .inr (.inr (.inr (.inr (.inl
        ⟨nowNs, rfl, hopened, hat, (Option.some.inj h).symm⟩))))
    · rw [if_neg fun hboth => hboth.2 (hsame ▸ hboth.1)] at h
      exact .inr (.inr (.inr (.inr (.inr
        ⟨nowNs, rfl, hhalf, hsame, hat, (Option.some.inj h).symm⟩))))

theorem sound_step (self : History) (call : Call) (next : History) (hs : Sound self)
    (h : self.step call = some next) : Sound next := by
  rcases step_cases h with ⟨nowNs, rfl, hhalf, rfl⟩ | ⟨nowNs, rfl, hopened, rfl⟩ |
    ⟨nowNs, rfl, -, rfl⟩ | ⟨nowNs, rfl, rfl⟩ | ⟨nowNs, rfl, hopened, hat, rfl⟩ |
    ⟨nowNs, rfl, hhalf, hsame, hat, rfl⟩
  · exact ⟨hs.openedAt, fun hne => absurd hhalf hne, fun _ => Nat.le_add_left 1 _⟩
  · exact ⟨State.noConfusion, fun hne => absurd rfl hne, fun _ => Nat.le_add_left 1 _⟩
  · exact hs
  · exact ⟨State.noConfusion, fun _ => rfl, State.noConfusion⟩
  · refine ⟨fun _ => hat, fun _ => rfl, fun hhalf => ?_⟩
    rw [hopened] at hhalf
    exact State.noConfusion hhalf
  · refine ⟨fun hopened => ?_, fun _ => rfl, fun hhalf' => absurd (hsame ▸ hhalf') hhalf⟩
    rw [hat]
    exact hs.openedAt (hsame ▸ hopened)

/-- A breaker that is sound waits. -/
theorem Sound.waits {self : History} (hs : Sound self) : self.Waits := by
  intro nowNs breaker hopened hallow
  obtain ⟨hne, -⟩ | ⟨-, hcooldown, -⟩ | ⟨-, hgranted, -⟩ := Breaker.allow_eq_ok hallow
  · exact absurd hopened hne
  · rw [← hs.openedAt hopened]
    exact hcooldown
  · exact Bool.noConfusion hgranted

/-- A call keeps to one trial exactly if it does not ask a breaker that is half open. -/
theorem oneTrial_step (self : History) (call : Call) (next : History) (hs : Sound self)
    (hone : self.OneTrial) (h : self.step call = some next) :
    next.OneTrial ↔ self.Patient call := by
  rcases step_cases h with ⟨nowNs, rfl, hhalf, rfl⟩ | ⟨nowNs, rfl, hopened, rfl⟩ |
    ⟨nowNs, rfl, hhalf, rfl⟩ | ⟨nowNs, rfl, rfl⟩ | ⟨nowNs, rfl, -, -, rfl⟩ |
    ⟨nowNs, rfl, -, -, -, rfl⟩
  · refine iff_of_false (fun htwo => ?_) fun hpatient => hpatient nowNs rfl hhalf
    have htrial := hs.trial hhalf
    exact absurd (show self.trials + 1 ≤ 1 from htwo) (by omega)
  · have hne : self.breaker.state ≠ .halfOpen := by
      rw [hopened]
      exact State.noConfusion
    refine iff_of_true ?_ fun _ _ => hne
    rw [OneTrial, hs.trials hne]
  · exact iff_of_true hone fun _ _ => hhalf
  · exact iff_of_true (Nat.zero_le 1) fun _ h => nomatch h
  · exact iff_of_true (Nat.zero_le 1) fun _ h => nomatch h
  · exact iff_of_true (Nat.zero_le 1) fun _ h => nomatch h

end History

/-- All along the calls the breaker waits, and lets one trial call through. -/
def Probes (config : Config) (calls : List Call) : Prop :=
  ∀ before s, before <+: calls →
    StepMachine.run History.step (History.start config) before = some s → s.Waits ∧ s.OneTrial

/-- **The cooldown is always waited for, and one trial call let through exactly where no call asks
the breaker while it is half open.** -/
theorem probes_iff {config : Config} {calls : List Call} {s : History}
    (h : StepMachine.run History.step (History.start config) calls = some s) :
    (∀ before s', before <+: calls →
        StepMachine.run History.step (History.start config) before = some s' → s'.Waits) ∧
      (Probes config calls ↔
        StepMachine.Along History.step History.Patient (History.start config) calls) := by
  have hwaits : ∀ before s', before <+: calls →
      StepMachine.run History.step (History.start config) before = some s' → s'.Waits :=
    fun _ _ _ hrun => (StepMachine.invariant_run History.sound_step
      (History.sound_start config) hrun).waits
  refine ⟨hwaits, ?_⟩
  rw [← StepMachine.always_iff_along History.sound_step History.oneTrial_step
    (History.sound_start config) (Nat.zero_le 1) h]
  refine ⟨fun hall before s' hbefore hrun => (hall before s' hbefore hrun).2, ?_⟩
  exact fun hall before s' hbefore hrun =>
    ⟨hwaits before s' hbefore hrun, hall before s' hbefore hrun⟩

/-- A breaker whose trial call fails opens again. -/
theorem probes_iff_failure :
    Probes { failureThreshold := 1, cooldownNs := 100 }
        [.recordFailure 0, .allow 100, .recordFailure 150, .allow 200] ↔
      StepMachine.Along History.step History.Patient
        (History.start { failureThreshold := 1, cooldownNs := 100 })
        [.recordFailure 0, .allow 100, .recordFailure 150, .allow 200] :=
  (probes_iff rfl).2

/-- A breaker that is half open lets every call through. -/
theorem probes_twice :
    ¬ Probes { failureThreshold := 1, cooldownNs := 100 }
      [.recordFailure 0, .allow 100, .allow 100] := fun h =>
  absurd (h _ _ List.prefix_rfl rfl).2 (Nat.not_succ_le_self 1)

end CircuitBreaker

/-! ## The delay between two attempts -/

namespace Retry

inductive Class where
  | retryable
  | rateLimited
  | terminal

structure Policy where
  baseBackoffMs : UInt32 := 100
  rateLimitBackoffMs : UInt32 := 1000
  jitterPct : UInt8 := 25

/-- An operation on `u32`. -/
def u32 (n : ℕ) : Outcome Empty ℕ := if n < 2 ^ 32 then .ok n else .trap .overflow

def Policy.base (policy : Policy) : Class → UInt32
  | .rateLimited => policy.rateLimitBackoffMs
  | .retryable | .terminal => policy.baseBackoffMs

def shiftOf (attempt : UInt8) : ℕ := min (attempt.toNat - 1) 16

/-- The delay; `draw` is what `rng.int(u32)` returns. -/
def scheduleBackoff (policy : Policy) (cls : Class) (attempt : UInt8) (draw : UInt32) :
    Outcome Empty UInt32 :=
  let expo := policy.base cls <<< UInt32.ofNat (shiftOf attempt)
  if policy.jitterPct = 0 then .ok expo
  else do
    let span ← u32 (expo.toNat / 100 * policy.jitterPct.toNat)
    if span = 0 then .ok expo
    else do
      let double ← u32 (span * 2)
      let width ← u32 (double + 1)
      let delta : ℤ := (draw.toNat % width : ℕ) - (span : ℤ)
      let adjusted := (expo.toNat : ℤ) + delta
      if adjusted < 0 then .ok 0 else UInt32.castInt adjusted

/-! ### What the delay should be -/

/-- `base * 2^(attempt - 1)`, with the exponent that is capped, as a number without bounds. -/
def exact (policy : Policy) (cls : Class) (attempt : UInt8) : ℕ :=
  (policy.base cls).toNat * 2 ^ shiftOf attempt

/-- The delay is within the jitter of the exact one, or is the longest there is where the exact one
is longer. -/
def Meets (policy : Policy) (cls : Class) (attempt : UInt8) (draw : UInt32) : Prop :=
  ∃ delay, scheduleBackoff policy cls attempt draw = .ok delay ∧
    (100 * exact policy cls attempt ≤
          100 * delay.toNat + policy.jitterPct.toNat * exact policy cls attempt ∧
        100 * delay.toNat ≤
          100 * exact policy cls attempt + policy.jitterPct.toNat * exact policy cls attempt ∨
      2 ^ 32 ≤ exact policy cls attempt ∧ delay.toNat = 2 ^ 32 - 1)

/-- The delays do not become shorter. -/
def Nondecreasing (policy : Policy) (cls : Class) : Prop :=
  ∀ (attempt attempt' : UInt8) (draw draw' delay delay' : UInt32), attempt ≤ attempt' →
    scheduleBackoff policy cls attempt draw = .ok delay →
      scheduleBackoff policy cls attempt' draw' = .ok delay' → delay ≤ delay'

/-- How far the jitter goes. -/
def span (policy : Policy) (cls : Class) (attempt : UInt8) : ℕ :=
  exact policy cls attempt % 2 ^ 32 / 100 * policy.jitterPct.toNat

/-- The exact delay has no bit beyond the top, unless every delay is within the jitter, and what is
left of it fits together with the jitter. -/
def Fits (policy : Policy) (cls : Class) (attempt : UInt8) : Prop :=
  (exact policy cls attempt < 2 ^ 32 ∨ policy.jitterPct.toNat = 100) ∧
    exact policy cls attempt % 2 ^ 32 + span policy cls attempt < 2 ^ 32

theorem toNat_shiftLeft (policy : Policy) (cls : Class) (attempt : UInt8) :
    (policy.base cls <<< UInt32.ofNat (shiftOf attempt)).toNat =
      exact policy cls attempt % 2 ^ 32 := by
  have hshift : shiftOf attempt ≤ 16 := Nat.min_le_right _ _
  have hmod : (UInt32.ofNat (shiftOf attempt)).toNat % 32 = shiftOf attempt := by
    rw [UInt32.toNat_ofNat_of_lt' (by simp only [UInt32.size]; omega)]
    omega
  rw [UInt32.toNat_shiftLeft, hmod, Nat.shiftLeft_eq, exact]

theorem u32_of_lt {n : ℕ} (h : n < 2 ^ 32) : u32 n = .ok n := if_pos h

theorem u32_of_le {n : ℕ} (h : 2 ^ 32 ≤ n) : u32 n = .trap .overflow := if_neg (Nat.not_lt.mpr h)

variable {policy : Policy} {cls : Class} {attempt : UInt8}

theorem span_le (h : policy.jitterPct.toNat ≤ 100) :
    span policy cls attempt ≤ exact policy cls attempt % 2 ^ 32 :=
  (Nat.mul_le_mul_left _ h).trans (Nat.div_mul_le_self _ _)

/-- The delay, where the span is known to fit. -/
theorem scheduleBackoff_eq (h : policy.jitterPct.toNat ≤ 100) (draw : UInt32) :
    scheduleBackoff policy cls attempt draw =
      if span policy cls attempt = 0 then
        .ok (UInt32.ofNat (exact policy cls attempt % 2 ^ 32))
      else if 2 ^ 32 ≤ span policy cls attempt * 2 + 1 then .trap .overflow
      else UInt32.castInt ((exact policy cls attempt % 2 ^ 32 +
        draw.toNat % (span policy cls attempt * 2 + 1) : ℕ) - (span policy cls attempt : ℤ)) := by
  have hle : span policy cls attempt ≤ exact policy cls attempt % 2 ^ 32 := span_le h
  have hexpo : policy.base cls <<< UInt32.ofNat (shiftOf attempt) =
      UInt32.ofNat (exact policy cls attempt % 2 ^ 32) := by
    rw [← toNat_shiftLeft, UInt32.ofNat_toNat]
  have hspan : span policy cls attempt =
      (policy.base cls <<< UInt32.ofNat (shiftOf attempt)).toNat / 100 *
        policy.jitterPct.toNat := by
    rw [toNat_shiftLeft, span]
  by_cases hzero : policy.jitterPct = 0
  · have hnone : span policy cls attempt = 0 := by
      rw [span, hzero]
      exact Nat.mul_zero _
    rw [scheduleBackoff, if_pos hnone]
    dsimp only
    rw [if_pos hzero, hexpo]
  · rw [scheduleBackoff]
    dsimp only
    rw [if_neg hzero, ← hspan, u32_of_lt (by omega), Outcome.ok_bind]
    by_cases hnone : span policy cls attempt = 0
    · rw [if_pos hnone, if_pos hnone, hexpo]
    · rw [if_neg hnone, if_neg hnone]
      by_cases hwide : 2 ^ 32 ≤ span policy cls attempt * 2 + 1
      · rw [if_pos hwide]
        by_cases hdouble : 2 ^ 32 ≤ span policy cls attempt * 2
        · rw [u32_of_le hdouble, Outcome.trap_bind]
        · rw [u32_of_lt (by omega), Outcome.ok_bind, u32_of_le hwide, Outcome.trap_bind]
      · rw [if_neg hwide, u32_of_lt (by omega), Outcome.ok_bind, u32_of_lt (by omega),
          Outcome.ok_bind, toNat_shiftLeft, if_neg (by omega)]
        congr 1
        omega

/-- A delay that fits is what it should be, whatever is drawn. -/
theorem meets_of_fits (h : policy.jitterPct.toNat ≤ 100) (hfits : Fits policy cls attempt)
    (draw : UInt32) : Meets policy cls attempt draw := by
  obtain ⟨hbits, htop⟩ := hfits
  have hle := @span_le policy cls attempt h
  have hmod : exact policy cls attempt % 2 ^ 32 ≤ exact policy cls attempt := Nat.mod_le _ _
  -- Every delay between the two ends of the jitter will do.
  have hwithin : ∀ delay : ℕ,
      exact policy cls attempt % 2 ^ 32 ≤ delay + span policy cls attempt →
        delay ≤ exact policy cls attempt % 2 ^ 32 + span policy cls attempt →
          100 * exact policy cls attempt ≤
              100 * delay + policy.jitterPct.toNat * exact policy cls attempt ∧
            100 * delay ≤
              100 * exact policy cls attempt +
                policy.jitterPct.toNat * exact policy cls attempt := by
    intro delay hlower hupper
    rcases hbits with hlt | hfull
    · rw [Nat.mod_eq_of_lt hlt] at hlower hupper
      have hspan : 100 * span policy cls attempt ≤
          policy.jitterPct.toNat * exact policy cls attempt := by
        rw [span, Nat.mod_eq_of_lt hlt, ← Nat.mul_assoc, Nat.mul_comm policy.jitterPct.toNat]
        exact Nat.mul_le_mul_right _ (Nat.mul_div_le _ _)
      omega
    · rw [hfull]
      omega
  rw [Meets, scheduleBackoff_eq h]
  by_cases hnone : span policy cls attempt = 0
  · rw [if_pos hnone]
    refine ⟨_, rfl, .inl ?_⟩
    rw [UInt32.toNat_ofNat_of_lt' (by simp only [UInt32.size]; omega)]
    exact hwithin _ (Nat.le_add_right _ _) (Nat.le_add_right _ _)
  · have hdraw : draw.toNat % (span policy cls attempt * 2 + 1) < span policy cls attempt * 2 + 1 :=
      Nat.mod_lt _ (Nat.succ_pos _)
    rw [if_neg hnone, if_neg (by omega), UInt32.castInt, if_pos (by omega)]
    refine ⟨_, rfl, .inl ?_⟩
    rw [UInt32.toNat_ofNat_of_lt' (by simp only [UInt32.size]; omega)]
    exact hwithin _ (by omega) (by omega)

/-- Where a bit is lost, the shortest delay is too short. -/
theorem lt_of_lost {exact expo pct : ℕ} (hpct : pct < 100) (hlost : expo + 2 ^ 32 ≤ exact) :
    100 * (expo - expo / 100 * pct) + pct * exact < 100 * exact := by
  obtain ⟨rest, hrest⟩ := Nat.exists_eq_add_of_le hpct.le
  have hpositive : 1 ≤ rest := by omega
  have hle : expo / 100 * pct ≤ expo :=
    (Nat.mul_le_mul_left _ hpct.le).trans (Nat.div_mul_le_self _ _)
  -- The part of the jitter that the division by a hundred leaves out is small.
  have hsplit : expo * pct = 100 * (expo / 100 * pct) + expo % 100 * pct := by
    conv_lhs => rw [← Nat.div_add_mod expo 100, Nat.add_mul, Nat.mul_assoc]
  have hsmall : expo % 100 * pct ≤ 99 * 99 :=
    Nat.mul_le_mul (by have := Nat.mod_lt expo (show 0 < 100 by decide); omega) (by omega)
  have hexpo : 100 * expo = expo * pct + rest * expo := by
    conv_lhs => rw [hrest, Nat.add_mul, Nat.mul_comm pct]
  have hexact : 100 * exact = pct * exact + rest * exact := by
    conv_lhs => rw [hrest, Nat.add_mul]
  have hgrow : rest * expo + rest * 2 ^ 32 ≤ rest * exact := by
    rw [← Nat.mul_add]
    exact Nat.mul_le_mul_left rest hlost
  have hlarge : 2 ^ 32 ≤ rest * 2 ^ 32 := Nat.le_mul_of_pos_left _ hpositive
  omega

/-- The shortest delay. -/
theorem scheduleBackoff_zero (h : policy.jitterPct.toNat ≤ 100) {delay : UInt32}
    (hdelay : scheduleBackoff policy cls attempt 0 = .ok delay) :
    delay.toNat = exact policy cls attempt % 2 ^ 32 - span policy cls attempt := by
  rw [scheduleBackoff_eq h] at hdelay
  split at hdelay
  · next hnone =>
    obtain rfl := Outcome.ok.inj hdelay
    rw [UInt32.toNat_ofNat_of_lt' (by simp only [UInt32.size]; omega), hnone, Nat.sub_zero]
  · split at hdelay
    · cases hdelay
    · have hle := @span_le policy cls attempt h
      have hvalue := UInt32.castInt_eq_ok.mp hdelay
      rw [show (0 : UInt32).toNat = 0 from rfl, Nat.zero_mod] at hvalue
      omega

/-- The longest delay fits. -/
theorem lt_of_longest (h : policy.jitterPct.toNat ≤ 100)
    (hmeets : ∀ draw, Meets policy cls attempt draw) :
    exact policy cls attempt % 2 ^ 32 + span policy cls attempt < 2 ^ 32 := by
  obtain ⟨delay, hdelay, -⟩ := hmeets (UInt32.ofNat (span policy cls attempt * 2))
  rw [scheduleBackoff_eq h] at hdelay
  split at hdelay
  · next hnone => omega
  · split at hdelay
    · cases hdelay
    · have hvalue := UInt32.castInt_eq_ok.mp hdelay
      have hlt := delay.toNat_lt
      rw [UInt32.toNat_ofNat_of_lt' (by simp only [UInt32.size]; omega),
        Nat.mod_eq_of_lt (Nat.lt_succ_self (span policy cls attempt * 2))] at hvalue
      omega

/-- A delay that is the longest there is, is so because it is exact: a shift leaves an even
number. -/
theorem exact_lt_of_top (h : exact policy cls attempt % 2 ^ 32 = 2 ^ 32 - 1) :
    exact policy cls attempt < 2 ^ 32 := by
  have hbase := (policy.base cls).toNat_lt
  cases hshift : shiftOf attempt with
  | zero => rwa [exact, hshift, pow_zero, Nat.mul_one]
  | succ shift =>
    have heven : exact policy cls attempt = 2 * ((policy.base cls).toNat * 2 ^ shift) := by
      rw [exact, hshift, pow_succ, ← Nat.mul_assoc, Nat.mul_comm _ 2]
    omega

/-- **The delays of an attempt are right exactly where they fit.** -/
theorem meets_iff (h : policy.jitterPct.toNat ≤ 100) :
    (∀ draw, Meets policy cls attempt draw) ↔ Fits policy cls attempt := by
  refine ⟨fun hmeets => ⟨?_, lt_of_longest h hmeets⟩, meets_of_fits h⟩
  by_contra hlost
  obtain ⟨hle, hpct⟩ := not_or.mp hlost
  obtain ⟨delay, hdelay, hwithin⟩ := hmeets 0
  have hshortest := scheduleBackoff_zero h hdelay
  have hmod := Nat.mod_add_div (exact policy cls attempt) (2 ^ 32)
  rcases hwithin with ⟨hlower, -⟩ | ⟨-, htop⟩
  · have hshort := @lt_of_lost (exact policy cls attempt) (exact policy cls attempt % 2 ^ 32)
      policy.jitterPct.toNat (by omega) (by omega)
    rw [hshortest, span] at hlower
    omega
  · exact hle (exact_lt_of_top (by omega))

theorem exact_mono (policy : Policy) (cls : Class) {attempt attempt' : UInt8}
    (h : attempt ≤ attempt') : exact policy cls attempt ≤ exact policy cls attempt' := by
  have hle := UInt8.le_iff_toNat_le.mp h
  refine Nat.mul_le_mul_left _ (Nat.pow_le_pow_right (by decide) ?_)
  rw [shiftOf, shiftOf]
  omega

/-- Delays that fit do not become shorter. -/
theorem nondecreasing_of_fits (hzero : policy.jitterPct = 0)
    (hfits : ∀ attempt, Fits policy cls attempt) : Nondecreasing policy cls := by
  have hpct : policy.jitterPct.toNat = 0 := by
    rw [hzero]
    rfl
  have hvalue : ∀ (attempt : UInt8) (draw delay : UInt32),
      scheduleBackoff policy cls attempt draw = .ok delay →
        delay.toNat = exact policy cls attempt := by
    intro attempt draw delay hdelay
    have hlt := (hfits attempt).1.resolve_right (by omega)
    rw [scheduleBackoff_eq (by omega), span, hpct, Nat.mul_zero, if_pos rfl,
      Nat.mod_eq_of_lt hlt] at hdelay
    rw [← Outcome.ok.inj hdelay, UInt32.toNat_ofNat_of_lt' hlt]
  intro attempt attempt' draw draw' delay delay' hle hdelay hdelay'
  rw [UInt32.le_iff_toNat_le, hvalue _ _ _ hdelay, hvalue _ _ _ hdelay']
  exact exact_mono policy cls hle

/-- **The delays of a policy are right, and without jitter do not become shorter, exactly where all
of them fit.** -/
theorem backoff_iff (policy : Policy) (cls : Class) (h : policy.jitterPct.toNat ≤ 100) :
    ((∀ attempt draw, Meets policy cls attempt draw) ∧
        (policy.jitterPct = 0 → Nondecreasing policy cls)) ↔
      ∀ attempt, Fits policy cls attempt := by
  constructor
  · exact fun hall attempt => (meets_iff h).mp (hall.1 attempt)
  · exact fun hfits => ⟨fun attempt => meets_of_fits h (hfits attempt),
      fun hzero => nondecreasing_of_fits hzero hfits⟩

/-- The policy that is the default. -/
theorem backoff_iff_default :
    ((∀ attempt draw, Meets {} .rateLimited attempt draw) ∧
        ((25 : UInt8) = 0 → Nondecreasing {} .rateLimited)) ↔
      ∀ attempt, Fits {} .rateLimited attempt :=
  backoff_iff {} .rateLimited (by decide)

/-- A base of more than a minute: the seventeenth delay is shorter than the sixteenth. -/
theorem scheduleBackoff_lost :
    scheduleBackoff { baseBackoffMs := 100000, jitterPct := 0 } .retryable 16 0 = .ok 3276800000 ∧
      scheduleBackoff { baseBackoffMs := 100000, jitterPct := 0 } .retryable 17 0 =
        .ok 2258632704 ∧
      ¬ Meets { baseBackoffMs := 100000, jitterPct := 0 } .retryable 17 0 ∧
      ¬ Nondecreasing { baseBackoffMs := 100000, jitterPct := 0 } .retryable := by
  have hlong : scheduleBackoff { baseBackoffMs := 100000, jitterPct := 0 } .retryable 16 0 =
      .ok 3276800000 := by decide
  have hlost : scheduleBackoff { baseBackoffMs := 100000, jitterPct := 0 } .retryable 17 0 =
      .ok 2258632704 := by decide
  refine ⟨hlong, hlost, ?_, fun hmono => ?_⟩
  · rintro ⟨delay, hdelay, hwithin⟩
    obtain rfl := Outcome.ok.inj (hlost.symm.trans hdelay)
    revert hwithin
    decide
  · exact absurd (hmono 16 17 0 0 _ _ (by decide) hlong hlost) (by decide)

end Retry

/-! ## The rate limiter -/

namespace RateLimit

structure Limiter where
  capacity : UInt32
  refillPerSec : UInt32
  tokens : UInt32
  lastNs : ℤ

/-- `std.time.ns_per_s`. -/
def nsPerSec : ℕ := 1000000000

/-- A value of type `u64`. -/
def u64 (trap : Trap) (n : ℤ) : Outcome Empty ℕ :=
  if 0 ≤ n ∧ n < 2 ^ 64 then .ok n.toNat else .trap trap

namespace Limiter

def init (capacity refillPerSec : UInt32) : Limiter :=
  { capacity, refillPerSec, tokens := capacity, lastNs := 0 }

def advanceNs (self : Limiter) (deltaNs : ℤ) : Outcome Empty Limiter :=
  if deltaNs ≤ 0 then .ok self
  else do
    let lastNs ← i128 (self.lastNs + deltaNs)
    let product ← i128 (self.refillPerSec.toNat * deltaNs)
    let refillTokens ← u64 .intCast (product / nsPerSec)
    let newTokens ← u64 .overflow (self.tokens.toNat + refillTokens)
    .ok { self with lastNs, tokens := UInt32.ofNat (min newTokens self.capacity.toNat) }

def tryConsume (self : Limiter) (n : UInt32) : Bool × Limiter :=
  if self.tokens < n then (false, self) else (true, { self with tokens := self.tokens - n })

/-- One `advanceNs` after the other. -/
def advanceAll (self : Limiter) : List ℤ → Outcome Empty Limiter
  | [] => .ok self
  | deltaNs :: deltas => do
    let self ← self.advanceNs deltaNs
    advanceAll self deltas

/-- The tokens of an interval, times the nanoseconds of a second. -/
def due (self : Limiter) (deltaNs : ℤ) : ℕ := self.refillPerSec.toNat * deltaNs.toNat

end Limiter

theorem u64_eq_ok {trap : Trap} {n : ℤ} {m : ℕ} (h : u64 trap n = .ok m) : (m : ℤ) = n := by
  rw [u64] at h
  split at h
  · obtain rfl := Outcome.ok.inj h
    omega
  · cases h

namespace Limiter

/-- **What an interval refills**, up to the capacity. -/
theorem advanceNs_eq_ok {self next : Limiter} {deltaNs : ℤ} (hle : self.tokens ≤ self.capacity)
    (h : self.advanceNs deltaNs = .ok next) :
    next.capacity = self.capacity ∧ next.refillPerSec = self.refillPerSec ∧
      next.tokens.toNat =
        min (self.tokens.toNat + self.due deltaNs / nsPerSec) self.capacity.toNat := by
  have hle' := UInt32.le_iff_toNat_le.mp hle
  rw [advanceNs] at h
  split at h
  · next hnone =>
    obtain rfl := Outcome.ok.inj h
    refine ⟨rfl, rfl, ?_⟩
    rw [due, Int.toNat_of_nonpos hnone, Nat.mul_zero, Nat.zero_div, Nat.add_zero]
    exact (Nat.min_eq_left hle').symm
  · next hpositive =>
    obtain ⟨lastNs, -, h⟩ := Outcome.bind_eq_ok.mp h
    obtain ⟨product, hproduct, h⟩ := Outcome.bind_eq_ok.mp h
    obtain ⟨refill, hrefill, h⟩ := Outcome.bind_eq_ok.mp h
    obtain ⟨sum, hsum, h⟩ := Outcome.bind_eq_ok.mp h
    obtain rfl := Outcome.ok.inj h
    obtain rfl := i128_eq_ok hproduct
    have hdue : ((self.due deltaNs : ℕ) : ℤ) = self.refillPerSec.toNat * deltaNs := by
      rw [due, Int.natCast_mul, Int.toNat_of_nonneg (by omega)]
    have hrefill' : refill = self.due deltaNs / nsPerSec := by
      have hvalue := u64_eq_ok hrefill
      rw [← hdue] at hvalue
      exact_mod_cast hvalue
    have hsum' : sum = self.tokens.toNat + self.due deltaNs / nsPerSec := by
      have hvalue := u64_eq_ok hsum
      omega
    have hcapacity := self.capacity.toNat_lt
    refine ⟨rfl, rfl, ?_⟩
    rw [hsum']
    exact UInt32.toNat_ofNat_of_lt' (by simp only [UInt32.size]; omega)

theorem tryConsume_cases (self : Limiter) (n : UInt32) :
    self.tryConsume n = (false, self) ∨
      self.tryConsume n = (true, { self with tokens := self.tokens - n }) ∧
        (self.tokens - n).toNat + n.toNat = self.tokens.toNat := by
  rw [tryConsume]
  split
  · exact .inl rfl
  · next henough =>
    rw [UInt32.lt_iff_toNat_lt] at henough
    refine .inr ⟨rfl, ?_⟩
    rw [UInt32.toNat_sub_of_le _ _ (UInt32.le_iff_toNat_le.mpr (by omega))]
    omega

end Limiter

/-! ### Runs -/

inductive Call where
  | advanceNs (deltaNs : ℤ)
  | tryConsume (n : UInt32)

/-- A limiter, the tokens that it has granted, and the nanoseconds that have passed. -/
structure History where
  limiter : Limiter
  granted : ℕ := 0
  elapsedNs : ℕ := 0

namespace History

def start (capacity refillPerSec : UInt32) : History := { limiter := .init capacity refillPerSec }

def step (self : History) : Call → Option History
  | .advanceNs deltaNs => do
    let limiter ← (self.limiter.advanceNs deltaNs).toOption
    some { self with limiter, elapsedNs := self.elapsedNs + deltaNs.toNat }
  | .tryConsume n =>
    let r := self.limiter.tryConsume n
    some { self with limiter := r.2, granted := self.granted + if r.1 then n.toNat else 0 }

/-- The tokens are at most the capacity, and those granted at most the capacity and what the time
has refilled. -/
structure Bounded (capacity refillPerSec : UInt32) (s : History) : Prop where
  tokens : s.limiter.tokens ≤ capacity
  granted : nsPerSec * s.granted ≤ nsPerSec * capacity.toNat + refillPerSec.toNat * s.elapsedNs

/-- What makes it so: the tokens that are left count as well. -/
structure Sound (capacity refillPerSec : UInt32) (s : History) : Prop where
  capacity_eq : s.limiter.capacity = capacity
  refillPerSec_eq : s.limiter.refillPerSec = refillPerSec
  tokens : s.limiter.tokens ≤ capacity
  granted : nsPerSec * (s.granted + s.limiter.tokens.toNat) ≤
    nsPerSec * capacity.toNat + refillPerSec.toNat * s.elapsedNs

theorem sound_start (capacity refillPerSec : UInt32) :
    Sound capacity refillPerSec (start capacity refillPerSec) where
  capacity_eq := rfl
  refillPerSec_eq := rfl
  tokens := UInt32.le_refl capacity
  granted := by
    rw [start, Limiter.init, Nat.zero_add]
    exact Nat.le_add_right _ _

theorem sound_step {capacity refillPerSec : UInt32} (self : History) (call : Call) (next : History)
    (hs : Sound capacity refillPerSec self) (h : self.step call = some next) :
    Sound capacity refillPerSec next := by
  obtain ⟨hcapacity, hrefill, htokens, hgranted⟩ := hs
  have htokens' := UInt32.le_iff_toNat_le.mp htokens
  cases call with
  | advanceNs deltaNs =>
    obtain ⟨limiter, hadvance, h⟩ := Option.bind_eq_some_iff.mp h
    obtain rfl := Option.some.inj h
    obtain ⟨hc, hr, ht⟩ := Limiter.advanceNs_eq_ok (hcapacity ▸ htokens)
      (Outcome.toOption_eq_some.mp hadvance)
    have hdiv := Nat.mul_div_le (self.limiter.due deltaNs) nsPerSec
    rw [hcapacity] at ht
    refine ⟨hc.trans hcapacity, hr.trans hrefill, ?_, ?_⟩
    · rw [UInt32.le_iff_toNat_le]
      dsimp only
      omega
    · have hle : limiter.tokens.toNat ≤
          self.limiter.tokens.toNat + self.limiter.due deltaNs / nsPerSec := by omega
      have hscaled := Nat.mul_le_mul_left nsPerSec hle
      have hdue : self.limiter.due deltaNs = refillPerSec.toNat * deltaNs.toNat := by
        rw [Limiter.due, hrefill]
      dsimp only
      rw [Nat.mul_add] at hgranted hscaled ⊢
      rw [Nat.mul_add refillPerSec.toNat]
      omega
  | tryConsume n =>
    obtain rfl := Option.some.inj h
    obtain hsame | ⟨htaken, hsum⟩ := self.limiter.tryConsume_cases n
    · rw [hsame]
      exact ⟨hcapacity, hrefill, htokens, hgranted⟩
    · rw [htaken]
      refine ⟨hcapacity, hrefill, ?_, ?_⟩
      · rw [UInt32.le_iff_toNat_le]
        dsimp only
        omega
      · dsimp only
        rw [if_pos rfl, show self.granted + n.toNat + (self.limiter.tokens - n).toNat =
          self.granted + self.limiter.tokens.toNat by omega]
        exact hgranted

theorem Sound.bounded {capacity refillPerSec : UInt32} {s : History}
    (hs : Sound capacity refillPerSec s) : Bounded capacity refillPerSec s where
  tokens := hs.tokens
  granted := by
    have hgranted := hs.granted
    rw [Nat.mul_add] at hgranted
    omega

end History

/-! ### Intervals that are split -/

/-- The time that passes. -/
def totalNs (deltas : List ℤ) : ℤ := (deltas.map fun deltaNs => (deltaNs.toNat : ℤ)).sum

/-- The fractions of tokens that are dropped come to less than a token, or the bucket is full
anyway. -/
def Whole (limiter : Limiter) (deltas : List ℤ) : Prop :=
  (deltas.map fun deltaNs => limiter.due deltaNs % nsPerSec).sum < nsPerSec ∨
    limiter.capacity.toNat ≤
      limiter.tokens.toNat + (deltas.map fun deltaNs => limiter.due deltaNs / nsPerSec).sum

theorem totalNs_nonneg (deltas : List ℤ) : 0 ≤ totalNs deltas := by
  induction deltas with
  | nil => exact Int.le_refl 0
  | cons deltaNs deltas ih =>
    rw [totalNs, List.map_cons, List.sum_cons]
    exact Int.add_nonneg (Int.natCast_nonneg _) ih

/-- The whole interval is worth what its parts are, in tokens and in fractions. -/
theorem due_totalNs (limiter : Limiter) (deltas : List ℤ) :
    limiter.due (totalNs deltas) =
      nsPerSec * (deltas.map fun deltaNs => limiter.due deltaNs / nsPerSec).sum +
        (deltas.map fun deltaNs => limiter.due deltaNs % nsPerSec).sum := by
  induction deltas with
  | nil => rfl
  | cons deltaNs deltas ih =>
    have hsplit : (totalNs (deltaNs :: deltas)).toNat =
        deltaNs.toNat + (totalNs deltas).toNat := by
      have hnonneg := totalNs_nonneg deltas
      rw [totalNs, List.map_cons, List.sum_cons, ← totalNs]
      omega
    have hhead := Nat.div_add_mod (limiter.due deltaNs) nsPerSec
    have hdue : limiter.due (totalNs (deltaNs :: deltas)) =
        limiter.due deltaNs + limiter.due (totalNs deltas) := by
      rw [Limiter.due, Limiter.due, Limiter.due, hsplit, Nat.mul_add]
    rw [hdue, ih, List.map_cons, List.sum_cons, List.map_cons, List.sum_cons, Nat.mul_add]
    omega

/-- The tokens after all the parts of an interval. -/
theorem advanceAll_eq_ok {self next : Limiter} {deltas : List ℤ} (hle : self.tokens ≤ self.capacity)
    (h : self.advanceAll deltas = .ok next) :
    next.tokens.toNat = min (self.tokens.toNat +
      (deltas.map fun deltaNs => self.due deltaNs / nsPerSec).sum) self.capacity.toNat := by
  induction deltas generalizing self with
  | nil =>
    obtain rfl := Outcome.ok.inj h
    rw [List.map_nil, List.sum_nil, Nat.add_zero]
    exact (Nat.min_eq_left (UInt32.le_iff_toNat_le.mp hle)).symm
  | cons deltaNs deltas ih =>
    obtain ⟨mid, hmid, h⟩ := Outcome.bind_eq_ok.mp h
    obtain ⟨hcapacity, hrefill, htokens⟩ := Limiter.advanceNs_eq_ok hle hmid
    have hmidle : mid.tokens ≤ mid.capacity := by
      rw [UInt32.le_iff_toNat_le, hcapacity, htokens]
      exact Nat.min_le_right _ _
    have hdue : mid.due = self.due := by
      funext deltaNs
      rw [Limiter.due, Limiter.due, hrefill]
    rw [ih hmidle h, hdue, hcapacity, htokens, List.map_cons, List.sum_cons]
    omega

theorem split_iff {limiter split single : Limiter} {deltas : List ℤ}
    (hle : limiter.tokens ≤ limiter.capacity) (hsplit : limiter.advanceAll deltas = .ok split)
    (hsingle : limiter.advanceNs (totalNs deltas) = .ok single) :
    split.tokens = single.tokens ↔ Whole limiter deltas := by
  obtain ⟨-, -, htokens⟩ := Limiter.advanceNs_eq_ok hle hsingle
  have hpositive : 0 < nsPerSec := by decide
  rw [due_totalNs, Nat.mul_add_div hpositive] at htokens
  rw [← UInt32.toNat_inj, advanceAll_eq_ok hle hsplit, htokens, Whole]
  have hfraction := @Nat.div_eq_zero_iff_lt _
    (deltas.map fun deltaNs => limiter.due deltaNs % nsPerSec).sum hpositive
  rw [← hfraction]
  generalize (deltas.map fun deltaNs => limiter.due deltaNs % nsPerSec).sum / nsPerSec = rest
  omega

/-- **The limiter never grants more than it should.  An interval that is split refills what the
whole one does exactly where the fractions that are dropped come to less than a token.** -/
theorem limiter_iff (capacity refillPerSec : UInt32) {calls : List Call} {s : History}
    (h : StepMachine.run History.step (History.start capacity refillPerSec) calls = some s) :
    s.Bounded capacity refillPerSec ∧
      ∀ (deltas : List ℤ) (split single : Limiter), s.limiter.advanceAll deltas = .ok split →
        s.limiter.advanceNs (totalNs deltas) = .ok single →
          (split.tokens = single.tokens ↔ Whole s.limiter deltas) := by
  have hs : History.Sound capacity refillPerSec s :=
    StepMachine.invariant_run History.sound_step (History.sound_start capacity refillPerSec) h
  exact ⟨hs.bounded, fun deltas split single => split_iff (hs.capacity_eq ▸ hs.tokens)⟩

/-- A bucket that is drained and filled again. -/
theorem limiter_iff_drained :
    ∃ s, StepMachine.run History.step (History.start 10 10)
        [.tryConsume 10, .advanceNs 500000000, .tryConsume 6] = some s ∧ s.granted = 10 ∧
      s.Bounded 10 10 := by
  obtain ⟨s, hrun, hgranted⟩ : ∃ s, StepMachine.run History.step (History.start 10 10)
      [.tryConsume 10, .advanceNs 500000000, .tryConsume 6] = some s ∧ s.granted = 10 :=
    ⟨_, rfl, rfl⟩
  exact ⟨s, hrun, hgranted, (limiter_iff 10 10 hrun).1⟩

/-- One token a second: half a second gives none, and neither does the half that follows. -/
theorem split_lost :
    ∃ s, StepMachine.run History.step (History.start 1 1) [.tryConsume 1] = some s ∧
      (s.limiter.advanceAll [500000000, 500000000]).toOption.map (·.tokens) = some 0 ∧
      (s.limiter.advanceNs (totalNs [500000000, 500000000])).toOption.map (·.tokens) = some 1 :=
  ⟨_, rfl, by decide, by decide⟩

end RateLimit

end Llm
end TigerClaw
