import TigerClaw.Library.StepMachine
import TigerClaw.Library.Checked
import Mathlib.Algebra.BigOperators.Group.List.Basic
import Mathlib.Algebra.Ring.Nat

/-!
# The session budget

`src/harness/budget.zig` bounds what one session consumes along four axes.  The counters are
64-bit atomics and `fetchAdd` wraps; a limit of zero means that the axis has no cap.

* `Budget.recordTurn`, `Budget.exceeded`, `Budget.isExhausted`: the code.
* `Budget.Relapses`: a turn that carries every capped axis of an exhausted budget below its limit.
* `staysExhausted_iff`, `grows_iff`: exhaustion lasts exactly if no turn relapses; the counters
  grow exactly if what the turns consume adds up to less than 2 ^ 64 along every axis.
-/

namespace TigerClaw
namespace Harness

structure Limits where
  turns : UInt64 := 0
  inputTokens : UInt64 := 0
  outputTokens : UInt64 := 0
  costMicros : UInt64 := 0

structure Usage where
  turns : UInt64 := 0
  inputTokens : UInt64 := 0
  outputTokens : UInt64 := 0
  costMicros : UInt64 := 0

inductive ExceededAxis where
  | none
  | turns
  | inputTokens
  | outputTokens
  | costMicros
  deriving DecidableEq

/-- The counters are one `Usage`; between two calls `snapshot` reads them as they are. -/
structure Budget where
  limits : Limits
  used : Usage := {}

namespace Budget

def init (limits : Limits) : Budget := { limits }

def snapshot (self : Budget) : Usage := self.used

/-- The arguments of `recordTurn`. -/
structure Turn where
  inputTokens : UInt64
  outputTokens : UInt64
  costMicros : UInt64

/-- `recordTurn`.  `fetchAdd` wraps, as addition on `UInt64` does. -/
def recordTurn (self : Budget) (turn : Turn) : Budget :=
  { self with
    used := {
      turns := self.used.turns + 1
      inputTokens :=
        if turn.inputTokens ≠ 0 then self.used.inputTokens + turn.inputTokens
        else self.used.inputTokens
      outputTokens :=
        if turn.outputTokens ≠ 0 then self.used.outputTokens + turn.outputTokens
        else self.used.outputTokens
      costMicros :=
        if turn.costMicros ≠ 0 then self.used.costMicros + turn.costMicros
        else self.used.costMicros } }

/-- The first axis, in the order of declaration, whose usage has reached its limit. -/
def exceeded (self : Budget) : ExceededAxis :=
  let u := self.snapshot
  if self.limits.turns ≠ 0 ∧ u.turns ≥ self.limits.turns then .turns
  else if self.limits.inputTokens ≠ 0 ∧ u.inputTokens ≥ self.limits.inputTokens then .inputTokens
  else if self.limits.outputTokens ≠ 0 ∧ u.outputTokens ≥ self.limits.outputTokens then
    .outputTokens
  else if self.limits.costMicros ≠ 0 ∧ u.costMicros ≥ self.limits.costMicros then .costMicros
  else .none

def isExhausted (self : Budget) : Bool := self.exceeded != .none

/-- The gate in front of the runner. -/
def check (self : Budget) : ExceededAxis := self.exceeded

end Budget

/-! ## Axis by axis -/

/-- The four axes. -/
inductive Axis where
  | turns
  | inputTokens
  | outputTokens
  | costMicros

def Limits.on (self : Limits) : Axis → UInt64
  | .turns => self.turns
  | .inputTokens => self.inputTokens
  | .outputTokens => self.outputTokens
  | .costMicros => self.costMicros

def Usage.on (self : Usage) : Axis → UInt64
  | .turns => self.turns
  | .inputTokens => self.inputTokens
  | .outputTokens => self.outputTokens
  | .costMicros => self.costMicros

/-- What a turn adds along an axis. -/
def Budget.Turn.on (self : Turn) : Axis → UInt64
  | .turns => 1
  | .inputTokens => self.inputTokens
  | .outputTokens => self.outputTokens
  | .costMicros => self.costMicros

namespace Budget

/-- **A turn adds its amount, modulo 2 ^ 64, along every axis.** -/
theorem recordTurn_on (self : Budget) (turn : Turn) (axis : Axis) :
    (self.recordTurn turn).used.on axis = self.used.on axis + turn.on axis := by
  have hskip (u d : UInt64) : (if d ≠ 0 then u + d else u) = u + d := by
    by_cases hd : d = 0
    · simp [hd]
    · rw [if_pos hd]
  cases axis with
  | turns => rfl
  | inputTokens => exact hskip _ _
  | outputTokens => exact hskip _ _
  | costMicros => exact hskip _ _

@[simp] theorem recordTurn_limits (self : Budget) (turn : Turn) :
    (self.recordTurn turn).limits = self.limits := rfl

/-- The axis has a cap, and its usage has reached it. -/
def AtLimit (self : Budget) (axis : Axis) : Prop :=
  self.limits.on axis ≠ 0 ∧ self.limits.on axis ≤ self.used.on axis

theorem exceeded_eq_none_iff {self : Budget} :
    self.exceeded = .none ↔ ∀ axis, ¬ self.AtLimit axis := by
  unfold exceeded snapshot
  dsimp only
  split_ifs with h₁ h₂ h₃ h₄
  · exact iff_of_false (by decide) fun h => h .turns h₁
  · exact iff_of_false (by decide) fun h => h .inputTokens h₂
  · exact iff_of_false (by decide) fun h => h .outputTokens h₃
  · exact iff_of_false (by decide) fun h => h .costMicros h₄
  · refine iff_of_true rfl fun axis => ?_
    cases axis with
    | turns => exact h₁
    | inputTokens => exact h₂
    | outputTokens => exact h₃
    | costMicros => exact h₄

/-- The budget is exhausted if some axis is at its limit, whichever `exceeded` names. -/
theorem isExhausted_iff {self : Budget} : self.isExhausted = true ↔ ∃ axis, self.AtLimit axis := by
  rw [isExhausted, bne_iff_ne, ne_eq, exceeded_eq_none_iff, not_forall_not]

/-- The turn carries every capped axis of an exhausted budget to below its limit: an axis that was
under its limit does not get there, or gets past 2 ^ 64, and an axis that had reached it is carried
past 2 ^ 64 and comes out under it. -/
def Relapses (self : Budget) (turn : Turn) : Prop :=
  (∃ axis, self.AtLimit axis) ∧
    ∀ axis, self.limits.on axis ≠ 0 →
      (self.used.on axis).toNat + (turn.on axis).toNat < (self.limits.on axis).toNat ∨
        2 ^ 64 ≤ (self.used.on axis).toNat + (turn.on axis).toNat ∧
          (self.used.on axis).toNat + (turn.on axis).toNat <
            (self.limits.on axis).toNat + 2 ^ 64

theorem not_atLimit_recordTurn_iff {self : Budget} {turn : Turn} {axis : Axis}
    (hcap : self.limits.on axis ≠ 0) :
    ¬ (self.recordTurn turn).AtLimit axis ↔
      (self.used.on axis).toNat + (turn.on axis).toNat < (self.limits.on axis).toNat ∨
        2 ^ 64 ≤ (self.used.on axis).toNat + (turn.on axis).toNat ∧
          (self.used.on axis).toNat + (turn.on axis).toNat <
            (self.limits.on axis).toNat + 2 ^ 64 := by
  have hu := (self.used.on axis).toNat_lt
  have hd := (turn.on axis).toNat_lt
  have hl := (self.limits.on axis).toNat_lt
  rw [AtLimit, recordTurn_on, recordTurn_limits, not_and, forall_prop_of_true hcap,
    UInt64.le_iff_toNat_le, UInt64.toNat_add]
  omega

/-- **A turn relapses exactly if the budget is exhausted before it and not after it.** -/
theorem relapses_iff {self : Budget} {turn : Turn} :
    self.Relapses turn ↔
      self.isExhausted = true ∧ (self.recordTurn turn).isExhausted = false := by
  have hafter : (self.recordTurn turn).isExhausted = false ↔
      ∀ axis, ¬ (self.recordTurn turn).AtLimit axis := by
    rw [← Bool.not_eq_true, isExhausted_iff, not_exists]
  rw [isExhausted_iff, hafter, Relapses]
  refine and_congr_right fun _ => forall_congr' fun axis => ?_
  by_cases hcap : self.limits.on axis = 0
  · exact iff_of_true (fun h => absurd hcap h) fun h => h.1 hcap
  · rw [forall_prop_of_true hcap, not_atLimit_recordTurn_iff hcap]

/-! ## Runs -/

/-- One turn after another. -/
def recordTurns (self : Budget) (turns : List Turn) : Budget := turns.foldl recordTurn self

theorem recordTurns_concat (self : Budget) (turns : List Turn) (turn : Turn) :
    self.recordTurns (turns ++ [turn]) = (self.recordTurns turns).recordTurn turn := by
  rw [recordTurns, List.foldl_concat]
  rfl

/-- Once exhausted, exhausted after every later turn. -/
def StaysExhausted (self : Budget) (turns : List Turn) : Prop :=
  ∀ before later after, turns = before ++ later ++ after →
    (self.recordTurns before).isExhausted = true →
      (self.recordTurns (before ++ later)).isExhausted = true

/-- No counter is ever smaller after a turn than before it. -/
def Grows (self : Budget) (turns : List Turn) : Prop :=
  ∀ before turn after, turns = before ++ turn :: after → ∀ axis,
    (self.recordTurns before).used.on axis ≤ (self.recordTurns (before ++ [turn])).used.on axis

theorem staysExhausted_iff (self : Budget) (turns : List Turn) :
    self.StaysExhausted turns ↔
      ∀ before turn after, turns = before ++ turn :: after →
        ¬ (self.recordTurns before).Relapses turn := by
  constructor
  · rintro h before turn after rfl hrel
    obtain ⟨hyes, hno⟩ := relapses_iff.mp hrel
    have hstill := h before [turn] after (by simp) hyes
    rw [recordTurns_concat, hno] at hstill
    exact absurd hstill (by decide)
  · intro h before later
    induction later generalizing before with
    | nil =>
      intro after _ hyes
      rwa [List.append_nil]
    | cons turn later ih =>
      intro after heq hyes
      have hnext : (self.recordTurns (before ++ [turn])).isExhausted = true := by
        rw [recordTurns_concat]
        by_contra hno
        exact h before turn (later ++ after) (by simp [heq])
          (relapses_iff.mpr ⟨hyes, Bool.eq_false_iff.mpr hno⟩)
      simpa using ih (before ++ [turn]) after (by simp [heq]) hnext

theorem grows_cons (self : Budget) (turn : Turn) (turns : List Turn) :
    self.Grows (turn :: turns) ↔
      (∀ axis, self.used.on axis ≤ (self.recordTurn turn).used.on axis) ∧
        (self.recordTurn turn).Grows turns := by
  constructor
  · refine fun h => ⟨h [] turn turns rfl, fun before later after heq => ?_⟩
    exact h (turn :: before) later after (by rw [heq, List.cons_append])
  · rintro ⟨hfirst, hrest⟩ before later after heq
    cases before with
    | nil =>
      obtain ⟨rfl, rfl⟩ := List.cons.inj heq
      exact hfirst
    | cons t before =>
      obtain ⟨rfl, htail⟩ := List.cons.inj heq
      exact hrest before later after htail

/-- A counter grows in a turn exactly if the sum fits. -/
theorem le_recordTurn_iff {self : Budget} {turn : Turn} {axis : Axis} :
    self.used.on axis ≤ (self.recordTurn turn).used.on axis ↔
      (self.used.on axis).toNat + (turn.on axis).toNat < 2 ^ 64 := by
  have hu := (self.used.on axis).toNat_lt
  have hd := (turn.on axis).toNat_lt
  rw [recordTurn_on, UInt64.le_iff_toNat_le, UInt64.toNat_add]
  omega

theorem grows_iff (self : Budget) (turns : List Turn) :
    self.Grows turns ↔ ∀ axis,
      (self.used.on axis).toNat + (turns.map fun turn => (turn.on axis).toNat).sum < 2 ^ 64 := by
  induction turns generalizing self with
  | nil =>
    refine iff_of_true (fun before turn after heq => by simp at heq) fun axis => ?_
    exact (self.used.on axis).toNat_lt
  | cons turn turns ih =>
    rw [grows_cons, ih, ← forall_and]
    refine forall_congr' fun axis => ?_
    rw [le_recordTurn_iff, recordTurn_on, UInt64.toNat_add, List.map_cons, List.sum_cons]
    constructor
    · rintro ⟨hfit, hrest⟩
      rw [Nat.mod_eq_of_lt hfit] at hrest
      omega
    · intro h
      have hfit : (self.used.on axis).toNat + (turn.on axis).toNat < 2 ^ 64 := by omega
      rw [Nat.mod_eq_of_lt hfit]
      omega

end Budget

/-- **Exhaustion lasts exactly if no turn relapses, and the counters grow exactly if nothing
wraps**, that is if what the turns add along each axis comes to less than 2 ^ 64 in total. -/
theorem budget_monotone_iff (limits : Limits) (turns : List Budget.Turn) :
    ((Budget.init limits).StaysExhausted turns ↔
        ∀ before turn after, turns = before ++ turn :: after →
          ¬ ((Budget.init limits).recordTurns before).Relapses turn) ∧
      ((Budget.init limits).Grows turns ↔
        ∀ axis, (turns.map fun turn => (turn.on axis).toNat).sum < 2 ^ 64) := by
  refine ⟨Budget.staysExhausted_iff _ _, ?_⟩
  rw [Budget.grows_iff]
  refine forall_congr' fun axis => ?_
  have hzero : ((Budget.init limits).used.on axis).toNat = 0 := by
    cases axis <;> rfl
  rw [hzero, Nat.zero_add]

/-- Nothing relapses while the counters grow. -/
theorem staysExhausted_of_grows {limits : Limits} {turns : List Budget.Turn}
    (h : (Budget.init limits).Grows turns) : (Budget.init limits).StaysExhausted turns := by
  rw [Budget.staysExhausted_iff]
  rintro before turn after heq ⟨⟨axis, hcap, hle⟩, hall⟩
  have hfit : (((Budget.init limits).recordTurns before).used.on axis).toNat +
      (turn.on axis).toNat < 2 ^ 64 := by
    have := h before turn after heq axis
    rwa [Budget.recordTurns_concat, Budget.le_recordTurn_iff] at this
  have := UInt64.le_iff_toNat_le.mp hle
  rcases hall axis hcap with hlt | ⟨hge, -⟩ <;> omega

/-- A cost that pricing has clamped to the top, and one micro-dollar more. -/
theorem not_staysExhausted :
    ¬ (Budget.init { costMicros := 1 }).StaysExhausted [⟨0, 0, 0xFFFFFFFFFFFFFFFF⟩, ⟨0, 0, 1⟩] :=
  fun h => absurd (h [⟨0, 0, 0xFFFFFFFFFFFFFFFF⟩] [⟨0, 0, 1⟩] [] rfl (by decide)) (by decide)

end Harness
end TigerClaw
