import TigerClaw.Basic

/-!
# Capabilities and manifests

`src/capabilities.zig` and `src/manifest.zig`: what a plug declares about itself, as far as the
order in which plugs start depends on it.
-/

namespace TigerClaw
namespace Plug

/-- Every capability slot known to the runtime, in the order of the integer tags. -/
inductive Capability where
  | persona
  | pairing
  | channel
  | providers
  | planner
  | memory
  | supervisor
  | scheduler
  | guardrails
  | tools
  | auditor
  | clock
  | meter
  | telemetry
  | waiter
  | hookBus
  | contextEngine
  | contextContributor
  deriving DecidableEq

inductive DepKind where
  | requires
  | prefers
  | conflicts
  deriving DecidableEq

/-- A single capability dependency edge. -/
structure Dep where
  capability : Capability
  kind : DepKind
  deriving DecidableEq

/-- The part of a manifest that the dependency graph reads. -/
structure Manifest where
  id : Bytes
  provides : List Capability
  deps : List Dep
  startOrder : Int32 := 0
  deriving DecidableEq

namespace Manifest

/-- The dependency edges that hold a plug back: what it provides itself does not. -/
def blocks (self : Manifest) (d : Dep) : Bool :=
  d.kind == .requires && !self.provides.contains d.capability

/-- The capabilities a plug waits for, once for every edge. -/
def demands (self : Manifest) : List Capability :=
  (self.deps.filter self.blocks).map Dep.capability

/-- The test of the scan for the next plug: smaller start order first, then the smaller id. -/
def startsBefore (m best : Manifest) : Bool :=
  decide (m.startOrder < best.startOrder) ||
    (m.startOrder == best.startOrder && lessThan m.id best.id)

theorem mem_demands {m : Manifest} {cap : Capability} :
    cap ∈ m.demands ↔ ⟨cap, .requires⟩ ∈ m.deps ∧ cap ∉ m.provides := by
  simp only [demands, blocks, List.mem_map, List.mem_filter, Bool.and_eq_true, beq_iff_eq,
    Bool.not_eq_true', List.contains_eq_mem, decide_eq_false_iff_not]
  constructor
  · rintro ⟨⟨cap', kind⟩, ⟨hd, rfl, hself⟩, rfl⟩
    exact ⟨hd, hself⟩
  · rintro ⟨hd, hself⟩
    exact ⟨_, ⟨hd, rfl, hself⟩, rfl⟩

theorem startsBefore_iff {m best : Manifest} :
    m.startsBefore best = true ↔
      m.startOrder.toInt < best.startOrder.toInt ∨
        m.startOrder.toInt = best.startOrder.toInt ∧ lessThan m.id best.id = true := by
  simp only [startsBefore, Bool.or_eq_true, decide_eq_true_eq, Bool.and_eq_true, beq_iff_eq,
    Int32.lt_iff_toInt_lt, Int32.toInt_inj]

theorem startsBefore_asymm {m m' : Manifest} (h : m.startsBefore m' = true) :
    ¬ m'.startsBefore m = true := by
  rw [startsBefore_iff] at h ⊢
  rintro (hlt | ⟨heq, hlt⟩)
  · omega
  · exact lessThan_asymm (h.resolve_left (by omega)).2 hlt

theorem startsBefore_cotrans {m m' : Manifest} (h : m.startsBefore m' = true) (b : Manifest) :
    m.startsBefore b = true ∨ b.startsBefore m' = true := by
  simp only [startsBefore_iff] at h ⊢
  rcases Int.lt_trichotomy m.startOrder.toInt b.startOrder.toInt with hmb | hmb | hmb
  · exact .inl (.inl hmb)
  · rcases Int.lt_trichotomy b.startOrder.toInt m'.startOrder.toInt with hbm | hbm | hbm
    · exact .inr (.inl hbm)
    · exact (lessThan_cotrans (h.resolve_left (by omega)).2 b.id).imp (fun hl => .inr ⟨hmb, hl⟩)
        fun hl => .inr ⟨hbm, hl⟩
    · omega
  · exact .inr (.inl (by omega))

/-- Of two plugs with different ids one starts first. -/
theorem startsBefore_total {m m' : Manifest} (h : m.id ≠ m'.id) :
    m.startsBefore m' = true ∨ m'.startsBefore m = true := by
  rw [startsBefore_iff, startsBefore_iff]
  rcases Int.lt_trichotomy m.startOrder.toInt m'.startOrder.toInt with hlt | heq | hlt
  · exact .inl (.inl hlt)
  · exact (lessThan_total h).imp (fun hl => .inr ⟨heq, hl⟩) fun hl => .inr ⟨heq.symm, hl⟩
  · exact .inr (.inl hlt)

end Manifest

end Plug
end TigerClaw
