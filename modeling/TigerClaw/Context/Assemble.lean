import TigerClaw.Basic
import TigerClaw.Library.Checked
import TigerClaw.Library.Pdq

/-!
# Sections under a budget

The context window of a turn is put together from sections.  `fit` sorts them by priority and
origin, and takes as many as the token budget has room for, one after another.

* `Section`: one piece of the window.
* `sortSections`, `fit`: the order of the sections, and the ones that are kept.
* `fit_sublist`: what is kept stands in the order of the sort.  `fit_filter`: a budget with room
  for some sections, and for none of the others.
-/

namespace TigerClaw
namespace Context

inductive Role where
  | system
  | user
  | assistant
  | tool
  deriving DecidableEq

/-- `ContentBlock`. -/
inductive ContentBlock where
  | text (s : Bytes)
  | toolUse (id name inputJson : Bytes)
  | toolResult (toolUseId content : Bytes) (isError : Bool)
  deriving DecidableEq

inductive SectionKind where
  | systemPreamble
  | channelState
  | memoryHit
  | toolManifest
  | historyTurn
  | compactionSummary
  | currentPrompt
  deriving DecidableEq

structure Section where
  kind : SectionKind
  role : Role
  content : Bytes
  blocks : Option (List ContentBlock) := none
  priority : UInt8
  tokenEstimate : UInt32
  tags : List Bytes := []
  pinned : Bool := false
  origin : Bytes
  deriving DecidableEq

inductive DropReason where
  | overBudget
  | kindExcluded
  | contributorDisabled
  deriving DecidableEq

structure DroppedSection where
  dropped : Section
  reason : DropReason
  deriving DecidableEq

structure FitResult where
  sections : List Section := []
  estimatedTokens : UInt32 := 0
  dropped : List DroppedSection := []

/-- By priority, then by origin. -/
def cmpSection (a b : Section) : Bool :=
  if a.priority ≠ b.priority then a.priority < b.priority else lessThan a.origin b.origin

def sortSections (input : List Section) : List Section := Pdq.pdq cmpSection input

/-- One section of the greedy pass. -/
def take (budget : UInt32) (r : FitResult) (s : Section) : Outcome PlugError FitResult :=
  if UInt32.satAdd r.estimatedTokens s.tokenEstimate ≤ budget then do
    let used ← UInt32.checkedAdd r.estimatedTokens s.tokenEstimate
    pure { r with sections := r.sections ++ [s], estimatedTokens := used }
  else pure { r with dropped := r.dropped ++ [{ dropped := s, reason := .overBudget }] }

/-- Greedy fill under the budget. -/
def fit (input : List Section) (budget : UInt32) : Outcome PlugError FitResult :=
  (sortSections input).foldlM (take budget) {}

/-! ## What is kept -/

theorem take_eq_ok {budget : UInt32} {r r' : FitResult} {s : Section}
    (h : take budget r s = .ok r') :
    r'.sections = r.sections ++ [s] ∨ r'.sections = r.sections := by
  unfold take at h
  split at h
  · obtain ⟨used, -, hr⟩ := Outcome.bind_eq_ok.mp h
    obtain rfl := Outcome.ok.inj hr
    exact .inl rfl
  · obtain rfl := Outcome.ok.inj h
    exact .inr rfl

theorem foldlM_take_sublist {budget : UInt32} {r r' : FitResult} {l : List Section}
    (h : l.foldlM (take budget) r = .ok r') :
    ∃ kept, kept.Sublist l ∧ r'.sections = r.sections ++ kept := by
  induction l generalizing r with
  | nil =>
    obtain rfl := Outcome.ok.inj h
    exact ⟨[], List.Sublist.refl [], (List.append_nil _).symm⟩
  | cons s l ih =>
    rw [List.foldlM_cons] at h
    obtain ⟨r₁, htake, hrest⟩ := Outcome.bind_eq_ok.mp h
    obtain ⟨kept, hsub, hsections⟩ := ih hrest
    rcases take_eq_ok htake with hkeep | hdrop
    · exact ⟨s :: kept, hsub.cons_cons s, by rw [hsections, hkeep, List.append_assoc]; rfl⟩
    · exact ⟨kept, hsub.cons s, by rw [hsections, hdrop]⟩

/-- **What is kept stands in the order of the sort.** -/
theorem fit_sublist {input : List Section} {budget : UInt32} {r : FitResult}
    (h : fit input budget = .ok r) : r.sections.Sublist (sortSections input) := by
  obtain ⟨kept, hsub, hsections⟩ := foldlM_take_sublist h
  rw [hsections]
  exact hsub

/-- The sum of the estimates. -/
def totalTokens (l : List Section) : ℕ := (l.map fun s => s.tokenEstimate.toNat).sum

theorem foldlM_take_filter {budget : UInt32} {small : Section → Bool} {r : FitResult}
    {l : List Section}
    (hbig : ∀ s ∈ l, small s = false → budget.toNat < s.tokenEstimate.toNat)
    (hroom : r.estimatedTokens.toNat + totalTokens (l.filter small) ≤ budget.toNat) :
    ∃ r', l.foldlM (take budget) r = .ok r' ∧ r'.sections = r.sections ++ l.filter small := by
  induction l generalizing r with
  | nil => exact ⟨r, rfl, (List.append_nil _).symm⟩
  | cons s l ih =>
    have hbig' : ∀ s ∈ l, small s = false → budget.toNat < s.tokenEstimate.toNat :=
      fun s hs => hbig s (List.mem_cons_of_mem _ hs)
    rw [List.foldlM_cons]
    by_cases hsmall : small s = true
    · rw [List.filter_cons_of_pos hsmall] at hroom ⊢
      rw [totalTokens, List.map_cons, List.sum_cons, ← totalTokens] at hroom
      have hbudget := budget.toNat_lt
      obtain ⟨used, hused⟩ : ∃ used : UInt32, used.toNat = r.estimatedTokens.toNat +
          s.tokenEstimate.toNat :=
        ⟨UInt32.ofNat _, UInt32.toNat_ofNat_of_lt' (by simp only [UInt32.size]; omega)⟩
      have hfits : UInt32.satAdd r.estimatedTokens s.tokenEstimate ≤ budget := by
        rw [UInt32.le_iff_toNat_le, UInt32.toNat_satAdd]
        omega
      have htake : take budget r s =
          .ok { r with sections := r.sections ++ [s], estimatedTokens := used } := by
        rw [take, if_pos hfits, UInt32.checkedAdd_eq_ok.mpr hused]
        rfl
      obtain ⟨r', hr', hsections⟩ := ih (r := { r with
        sections := r.sections ++ [s], estimatedTokens := used }) hbig' (by dsimp only; omega)
      refine ⟨r', ?_, by rw [hsections, List.append_assoc]; rfl⟩
      rw [htake]
      exact hr'
    · have hover : ¬ UInt32.satAdd r.estimatedTokens s.tokenEstimate ≤ budget := by
        have hlt := hbig s List.mem_cons_self (Bool.eq_false_iff.mpr hsmall)
        have hmax := s.tokenEstimate.toNat_lt
        rw [UInt32.le_iff_toNat_le, UInt32.toNat_satAdd]
        omega
      rw [List.filter_cons_of_neg hsmall] at hroom ⊢
      rw [take, if_neg hover]
      exact ih hbig' hroom

/-- A budget with room for some sections, and for none of the others, keeps just the former. -/
theorem fit_filter {input : List Section} {budget : UInt32} {small : Section → Bool}
    (hbig : ∀ s ∈ input, small s = false → budget.toNat < s.tokenEstimate.toNat)
    (hroom : totalTokens (input.filter small) ≤ budget.toNat) :
    ∃ r, fit input budget = .ok r ∧ r.sections = (sortSections input).filter small := by
  have hperm := Pdq.pdq_perm cmpSection input
  have htotal : totalTokens ((sortSections input).filter small) =
      totalTokens (input.filter small) :=
    ((hperm.filter small).map _).sum_nat
  refine foldlM_take_filter (r := {}) (fun s hs => hbig s (hperm.mem_iff.mp hs)) ?_
  rw [htotal]
  simpa using hroom

end Context
end TigerClaw
