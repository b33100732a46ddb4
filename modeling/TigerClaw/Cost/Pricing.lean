import Mathlib.Algebra.Group.Nat.Defs
import Mathlib.Algebra.Order.Floor.Div
import Mathlib.Data.Nat.Basic
import Mathlib.GroupTheory.GroupAction.Ring
import TigerClaw.Agent.Loop
import TigerClaw.Basic
import TigerClaw.Library.Checked

/-!
# Prices

`src/cost/pricing.zig` and `src/cost/usage_pricing.zig`.  A price is what a million tokens cost, and
the cost of a call is rounded up, so that the books stay ahead of the bill.

* `costMicros`, `lookup`, `priceUsage`: the code, with the checked addition that rounds.
* `Exact`, `Covers`: the cost of one kind of tokens is right, and a call is not priced too low.
* `pricing_iff`: both hold exactly where no product lies just below the top.
-/

namespace TigerClaw
namespace Cost

open Agent (TokenUsage)

structure ModelPrice where
  model : Bytes
  input : UInt64
  output : UInt64
  cacheRead : UInt64 := 0
  cacheWrite : UInt64 := 0

/-- `std.math.maxInt(u64)`. -/
def maxMicros : UInt64 := UInt64.ofNat (2 ^ 64 - 1)

def costMicros (tokens price : UInt64) : Outcome Empty UInt64 :=
  if tokens = 0 ∨ price = 0 then .ok 0
  else
    let numerator := tokens.toNat * price.toNat
    if 2 ^ 64 ≤ numerator then .ok maxMicros
    else if 2 ^ 64 ≤ numerator + 1000000 then .trap .overflow
    else .ok (UInt64.ofNat ((numerator + 1000000 - 1) / 1000000))

def lookup (table : List ModelPrice) (model : Bytes) : Option ModelPrice :=
  table.find? fun entry => entry.model = model

structure Priced where
  costMicros : UInt64
  inputMicros : UInt64
  outputMicros : UInt64
  cacheReadMicros : UInt64
  cacheWriteMicros : UInt64
  unknownModel : Bool
  deriving DecidableEq

def ModelPrice.cacheReadRate (self : ModelPrice) : UInt64 :=
  if self.cacheRead ≠ 0 then self.cacheRead else self.input

def ModelPrice.cacheWriteRate (self : ModelPrice) : UInt64 :=
  if self.cacheWrite ≠ 0 then self.cacheWrite else self.input

def priceUsage (table : List ModelPrice) (model : Bytes) (usage : TokenUsage) :
    Outcome Empty Priced :=
  match lookup table model with
  | none =>
    .ok {
      costMicros := 0
      inputMicros := 0
      outputMicros := 0
      cacheReadMicros := 0
      cacheWriteMicros := 0
      unknownModel := true }
  | some entry => do
    let inCost ← Cost.costMicros usage.input.toUInt64 entry.input
    let outCost ← Cost.costMicros usage.output.toUInt64 entry.output
    let crCost ← Cost.costMicros usage.cacheRead.toUInt64 entry.cacheReadRate
    let cwCost ← Cost.costMicros usage.cacheWrite.toUInt64 entry.cacheWriteRate
    .ok {
      costMicros := ((inCost.satAdd outCost).satAdd crCost).satAdd cwCost
      inputMicros := inCost
      outputMicros := outCost
      cacheReadMicros := crCost
      cacheWriteMicros := cwCost
      unknownModel := false }

/-! ## What a cost should be -/

/-- The cost is rounded up, or is at least what is due, or as much as there is. -/
def Exact (tokens price : UInt64) : Prop :=
  ∃ cost, costMicros tokens price = .ok cost ∧
    (tokens.toNat * price.toNat < 2 ^ 64 →
      cost.toNat = (tokens.toNat * price.toNat) ⌈/⌉ 1000000) ∧
    (2 ^ 64 ≤ tokens.toNat * price.toNat →
      tokens.toNat * price.toNat ≤ 1000000 * cost.toNat ∨ cost = maxMicros)

/-- What is paid for: the tokens of each kind and their price. -/
def ModelPrice.axes (self : ModelPrice) (usage : TokenUsage) : List (UInt64 × UInt64) :=
  [(usage.input.toUInt64, self.input), (usage.output.toUInt64, self.output),
    (usage.cacheRead.toUInt64, self.cacheReadRate),
    (usage.cacheWrite.toUInt64, self.cacheWriteRate)]

/-- The sum before it is divided; nothing for a model without a price. -/
def exactSum (table : List ModelPrice) (model : Bytes) (usage : TokenUsage) : ℕ :=
  match lookup table model with
  | none => 0
  | some entry => ((entry.axes usage).map fun axis => axis.1.toNat * axis.2.toNat).sum

/-- The call is priced, and not below what is due, unless there is no more. -/
def Covers (table : List ModelPrice) (model : Bytes) (usage : TokenUsage) : Prop :=
  ∃ priced, priceUsage table model usage = .ok priced ∧
    (exactSum table model usage ≤ 1000000 * priced.costMicros.toNat ∨
      priced.costMicros = maxMicros)

/-- The product fits, and what is added to round it up does not. -/
def NearTop (tokens price : UInt64) : Prop :=
  tokens.toNat * price.toNat < 2 ^ 64 ∧ 2 ^ 64 ≤ tokens.toNat * price.toNat + 1000000

theorem toNat_maxMicros : maxMicros.toNat = 2 ^ 64 - 1 := rfl

/-- What is computed, and when nothing is. -/
theorem costMicros_spec (tokens price : UInt64) :
    NearTop tokens price ∧ costMicros tokens price = .trap .overflow ∨
      ¬ NearTop tokens price ∧ ∃ cost, costMicros tokens price = .ok cost ∧
        (tokens.toNat * price.toNat < 2 ^ 64 ∧
            cost.toNat = (tokens.toNat * price.toNat + 1000000 - 1) / 1000000 ∨
          2 ^ 64 ≤ tokens.toNat * price.toNat ∧ cost = maxMicros) := by
  rw [costMicros]
  by_cases hzero : tokens = 0 ∨ price = 0
  · have hproduct : tokens.toNat * price.toNat = 0 := by
      rcases hzero with rfl | rfl <;> simp
    refine .inr ⟨?_, 0, if_pos hzero, .inl ⟨?_, ?_⟩⟩
    · rintro ⟨-, htop⟩
      omega
    · omega
    · rw [hproduct]
      rfl
  · rw [if_neg hzero]
    dsimp only
    by_cases hbig : 2 ^ 64 ≤ tokens.toNat * price.toNat
    · exact .inr ⟨fun h => absurd h.1 (by omega), maxMicros, if_pos hbig, .inr ⟨hbig, rfl⟩⟩
    · rw [if_neg hbig]
      by_cases htop : 2 ^ 64 ≤ tokens.toNat * price.toNat + 1000000
      · exact .inl ⟨⟨by omega, htop⟩, if_pos htop⟩
      · refine .inr ⟨fun h => htop h.2, _, if_neg htop, .inl ⟨by omega, ?_⟩⟩
        exact UInt64.toNat_ofNat_of_lt' (by simp only [UInt64.size]; omega)

theorem exact_iff (tokens price : UInt64) : Exact tokens price ↔ ¬ NearTop tokens price := by
  obtain ⟨htop, htrap⟩ | ⟨htop, cost, hcost, hvalue⟩ := costMicros_spec tokens price
  · refine iff_of_false ?_ (not_not_intro htop)
    rintro ⟨cost, hcost, -⟩
    rw [htrap] at hcost
    cases hcost
  · refine iff_of_true ⟨cost, hcost, fun hlt => ?_, fun hle => ?_⟩ htop
    · obtain ⟨-, hvalue⟩ := hvalue.resolve_right fun h => absurd h.1 (by omega)
      exact hvalue
    · exact .inr (hvalue.resolve_left fun h => absurd h.1 (by omega)).2

/-- A cost that is computed covers what is due, or is all there is. -/
theorem le_costMicros {tokens price cost : UInt64} (h : costMicros tokens price = .ok cost) :
    tokens.toNat * price.toNat ≤ 1000000 * cost.toNat ∨ cost = maxMicros := by
  obtain ⟨-, htrap⟩ | ⟨-, cost', hcost, hvalue⟩ := costMicros_spec tokens price
  · rw [htrap] at h
    cases h
  · obtain rfl := Outcome.ok.inj (hcost.symm.trans h)
    exact hvalue.imp (fun ⟨_, hvalue⟩ => by omega) And.right

theorem traps_costMicros {tokens price : UInt64} :
    (costMicros tokens price).Traps ↔ NearTop tokens price := by
  obtain ⟨htop, htrap⟩ | ⟨htop, cost, hcost, -⟩ := costMicros_spec tokens price
  · exact iff_of_true ⟨_, htrap⟩ htop
  · exact iff_of_false (by rw [hcost]; exact Outcome.not_traps_ok _) htop

/-- Two costs that cover what is due cover it together. -/
theorem le_satAdd {a b : UInt64} {m n : ℕ} (ha : m ≤ 1000000 * a.toNat ∨ a = maxMicros)
    (hb : n ≤ 1000000 * b.toNat ∨ b = maxMicros) :
    m + n ≤ 1000000 * (a.satAdd b).toNat ∨ a.satAdd b = maxMicros := by
  have hsum := UInt64.toNat_satAdd a b
  by_cases hfits : a.toNat + b.toNat < 2 ^ 64 - 1
  · have hne : ∀ c : UInt64, c.toNat < 2 ^ 64 - 1 → c ≠ maxMicros := by
      rintro c hc rfl
      exact absurd hc (by rw [toNat_maxMicros]; omega)
    have ha := ha.resolve_right (hne a (by omega))
    have hb := hb.resolve_right (hne b (by omega))
    left
    omega
  · right
    rw [← UInt64.toNat_inj, hsum, toNat_maxMicros]
    omega

theorem traps_priceUsage {table : List ModelPrice} {model : Bytes} {usage : TokenUsage} :
    ¬ (priceUsage table model usage).Traps ↔
      ∀ entry, lookup table model = some entry →
        ∀ axis ∈ entry.axes usage, ¬ NearTop axis.1 axis.2 := by
  rw [priceUsage]
  cases hlookup : lookup table model with
  | none => exact iff_of_true (Outcome.not_traps_ok _) nofun
  | some entry =>
    simp only [Option.some.injEq, forall_eq', ModelPrice.axes, List.forall_mem_cons,
      List.not_mem_nil, false_imp_iff, implies_true, and_true]
    rw [Outcome.not_traps_bind fun inCost _ => Outcome.not_traps_bind fun outCost _ =>
      Outcome.not_traps_bind fun crCost _ => Outcome.not_traps_bind fun cwCost _ =>
        iff_of_true (Outcome.not_traps_ok _) trivial]
    simp only [traps_costMicros, and_true]

/-- What a call is priced at covers what is due. -/
theorem covers_of_eq_ok {table : List ModelPrice} {model : Bytes} {usage : TokenUsage}
    {priced : Priced} (h : priceUsage table model usage = .ok priced) :
    Covers table model usage := by
  refine ⟨priced, h, ?_⟩
  rw [priceUsage] at h
  rw [exactSum]
  cases hlookup : lookup table model with
  | none => exact .inl (Nat.zero_le _)
  | some entry =>
    rw [hlookup] at h
    dsimp only at h ⊢
    obtain ⟨inCost, hin, h⟩ := Outcome.bind_eq_ok.mp h
    obtain ⟨outCost, hout, h⟩ := Outcome.bind_eq_ok.mp h
    obtain ⟨crCost, hcr, h⟩ := Outcome.bind_eq_ok.mp h
    obtain ⟨cwCost, hcw, h⟩ := Outcome.bind_eq_ok.mp h
    obtain rfl := Outcome.ok.inj h
    have hcost := le_satAdd (le_satAdd (le_satAdd (le_costMicros hin) (le_costMicros hout))
      (le_costMicros hcr)) (le_costMicros hcw)
    simpa [ModelPrice.axes, Nat.add_assoc] using hcost

theorem covers_iff (table : List ModelPrice) (model : Bytes) (usage : TokenUsage) :
    Covers table model usage ↔ ∀ entry, lookup table model = some entry →
      ∀ axis ∈ entry.axes usage, ¬ NearTop axis.1 axis.2 := by
  rw [← traps_priceUsage, Outcome.not_traps_iff]
  exact ⟨fun ⟨priced, h, _⟩ => ⟨priced, h⟩, fun ⟨_, h⟩ => covers_of_eq_ok h⟩

/-- **A cost is exact, and a call covered, exactly where no product lies just below the top.** -/
theorem pricing_iff (tokens price : UInt64) (table : List ModelPrice) (model : Bytes)
    (usage : TokenUsage) :
    (Exact tokens price ↔ ¬ NearTop tokens price) ∧
      (Covers table model usage ↔ ∀ entry, lookup table model = some entry →
        ∀ axis ∈ entry.axes usage, ¬ NearTop axis.1 axis.2) :=
  ⟨exact_iff tokens price, covers_iff table model usage⟩

/-- Here the product is the largest `u64`, and the rounding takes the program down. -/
theorem pricing_traps :
    costMicros 65537 281470681808895 = .trap .overflow ∧ ¬ Exact 65537 281470681808895 ∧
      ¬ Covers [{ model := ascii "m", input := 281470681808895, output := 0 }] (ascii "m")
        { input := 65537 } := by
  have htrap : costMicros 65537 281470681808895 = .trap .overflow := by decide
  refine ⟨htrap, ?_, ?_⟩
  · rintro ⟨cost, hcost, -⟩
    rw [htrap] at hcost
    cases hcost
  · rintro ⟨priced, hpriced, -⟩
    have hcall : priceUsage [{ model := ascii "m", input := 281470681808895, output := 0 }]
        (ascii "m") { input := 65537 } = .trap .overflow := by decide
    rw [hcall] at hpriced
    cases hpriced

end Cost
end TigerClaw
