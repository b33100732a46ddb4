import TigerClaw.Context.Assemble
import TigerClaw.Library.PdqSorted

/-!
# What the greedy pass fits

A section is kept when the estimates of what has been kept, and its own, are within the budget.  The
comparison is of a saturating sum, and the sum that is kept is a checked one.  They agree but under
the greatest budget, which no saturating sum exceeds.

* `Fitted`: what a fit should be, and `fitted_take`, one section of it.
* `sortSections_pairwise`: the sections are sorted by priority and origin.
* `fit_greedy_iff`: **a fit is what it should be exactly when the budget is not the greatest, or the
  estimates of all sections have a sum in 32 bits**; else it traps.
-/

namespace TigerClaw
namespace Context

/-- By priority, then by origin. -/
def SortOrder (a b : Section) : Prop :=
  a.priority < b.priority ∨ a.priority = b.priority ∧ lessThan b.origin a.origin = false

/-- The sections that were dropped. -/
def droppedSections (l : List DroppedSection) : List Section := l.map fun d => d.dropped

/-- The sections of `order` are in two parts; the one that is kept is within the budget, and each
section of the other would have been over it with what was kept before. -/
structure Fitted (budget : UInt32) (order : List Section) (r : FitResult) : Prop where
  perm : order.Perm (r.sections ++ droppedSections r.dropped)
  sublist : r.sections.Sublist order
  sum : totalTokens r.sections = r.estimatedTokens.toNat
  within : r.estimatedTokens ≤ budget
  exceeds : ∀ before d after, r.dropped = before ++ d :: after →
    ∃ kept keptAfter front behind, r.sections = kept ++ keptAfter ∧
      order = front ++ d.dropped :: behind ∧ front.Perm (kept ++ droppedSections before) ∧
      budget.toNat < totalTokens kept + d.dropped.tokenEstimate.toNat

/-! ## The order -/

theorem cmpSection_iff {a b : Section} :
    cmpSection a b = true ↔ a.priority.toNat < b.priority.toNat ∨
      a.priority.toNat = b.priority.toNat ∧ lessThan a.origin b.origin = true := by
  rw [cmpSection, UInt8.toNat_inj]
  split
  · rename_i hne
    rw [decide_eq_true_eq, UInt8.lt_iff_toNat_lt]
    exact ⟨.inl, fun h => h.resolve_right fun heq => hne heq.1⟩
  · rename_i heq
    rw [not_not] at heq
    rw [heq]
    simp

theorem cmpSection_asymm {a b : Section} (h : cmpSection a b = true) : cmpSection b a = false := by
  rw [Bool.eq_false_iff, ne_eq, cmpSection_iff]
  rintro (hlt | ⟨heq, hless⟩)
  · rcases cmpSection_iff.mp h with hlt' | ⟨heq', -⟩ <;> omega
  · rcases cmpSection_iff.mp h with hlt' | ⟨-, hless'⟩
    · omega
    · exact lessThan_asymm hless' hless

theorem cmpSection_cotrans {a b c : Section} (h : cmpSection a c = true) :
    cmpSection a b = true ∨ cmpSection b c = true := by
  rw [cmpSection_iff, cmpSection_iff]
  rcases Nat.lt_trichotomy a.priority.toNat b.priority.toNat with hab | hab | hab
  · exact .inl (.inl hab)
  · rcases cmpSection_iff.mp h with hlt | ⟨heq, hless⟩
    · exact .inr (.inl (by omega))
    · rcases lessThan_cotrans hless b.origin with hleft | hright
      · exact .inl (.inr ⟨hab, hleft⟩)
      · exact .inr (.inr ⟨by omega, hright⟩)
  · rcases cmpSection_iff.mp h with hlt | ⟨heq, -⟩
    · exact .inr (.inl (by omega))
    · exact .inr (.inl (by omega))

theorem sortOrder_of_cmpSection {a b : Section} (h : cmpSection b a = false) : SortOrder a b := by
  rw [Bool.eq_false_iff, ne_eq, cmpSection_iff, not_or, not_and, Bool.not_eq_true] at h
  rw [SortOrder, UInt8.lt_iff_toNat_lt, ← UInt8.toNat_inj]
  rcases Nat.lt_or_eq_of_le (Nat.le_of_not_lt h.1) with hlt | heq
  · exact .inl hlt
  · exact .inr ⟨heq, h.2 heq.symm⟩

/-- **The sections are sorted by priority and origin.** -/
theorem sortSections_pairwise (input : List Section) : (sortSections input).Pairwise SortOrder := by
  have hsorted := Pdq.pdq_sorted cmpSection (fun a b => cmpSection_asymm)
    (fun a b c => cmpSection_cotrans) input
  rw [sortSections]
  exact hsorted.imp fun h => sortOrder_of_cmpSection h

/-! ## The pass -/

theorem totalTokens_append (l l' : List Section) :
    totalTokens (l ++ l') = totalTokens l + totalTokens l' := by
  rw [totalTokens, List.map_append, List.sum_append]
  rfl

theorem totalTokens_perm {l l' : List Section} (h : l.Perm l') : totalTokens l = totalTokens l' :=
  (h.map _).sum_nat

/-- One section is kept, with the sum of a checked addition, or it is dropped. -/
theorem take_cases {budget : UInt32} {r r' : FitResult} {s : Section}
    (h : take budget r s = .ok r') :
    (∃ used : UInt32, used.toNat = r.estimatedTokens.toNat + s.tokenEstimate.toNat ∧
        used ≤ budget ∧
        r' = { r with sections := r.sections ++ [s], estimatedTokens := used }) ∨
      (budget.toNat < r.estimatedTokens.toNat + s.tokenEstimate.toNat ∧
        budget.toNat < 2 ^ 32 - 1 ∧
        r' = { r with dropped := r.dropped ++ [{ dropped := s, reason := .overBudget }] }) := by
  rw [take] at h
  split at h
  · rename_i hfits
    obtain ⟨used, hused, hr⟩ := Outcome.bind_eq_ok.mp h
    rw [UInt32.checkedAdd_eq_ok] at hused
    refine .inl ⟨used, hused, ?_, (Outcome.ok.inj hr).symm⟩
    have hlt := used.toNat_lt
    rw [UInt32.le_iff_toNat_le, UInt32.toNat_satAdd] at hfits
    rw [UInt32.le_iff_toNat_le]
    omega
  · rename_i hfits
    rw [UInt32.le_iff_toNat_le, UInt32.toNat_satAdd] at hfits
    exact .inr ⟨by omega, by omega, (Outcome.ok.inj h).symm⟩

/-- **One section of the pass.** -/
theorem fitted_take {budget : UInt32} {order : List Section} {r r' : FitResult} {s : Section}
    (hr : Fitted budget order r) (h : take budget r s = .ok r') :
    Fitted budget (order ++ [s]) r' := by
  rcases take_cases h with ⟨used, hused, hwithin, rfl⟩ | ⟨hover, -, rfl⟩
  · refine ⟨?_, hr.sublist.append (List.Sublist.refl [s]), ?_, hwithin,
      fun before d after hsplit => ?_⟩
    · dsimp only
      rw [List.append_assoc]
      exact (hr.perm.append_right [s]).trans
        (by rw [List.append_assoc]; exact List.perm_append_comm.append_left r.sections)
    · rw [totalTokens_append, hr.sum, hused]
      rfl
    · obtain ⟨kept, keptAfter, front, behind, hkept, rfl, hfront, hlt⟩ :=
        hr.exceeds before d after hsplit
      exact ⟨kept, keptAfter ++ [s], front, behind ++ [s], by simp [hkept], by simp, hfront, hlt⟩
  · refine ⟨?_, hr.sublist.trans (List.sublist_append_left order [s]), hr.sum, hr.within,
      fun before d after hsplit => ?_⟩
    · rw [droppedSections, List.map_append, ← List.append_assoc]
      exact hr.perm.append_right [s]
    · -- it is one of those dropped before, or the one dropped now
      dsimp only at hsplit ⊢
      rcases List.eq_nil_or_concat after with rfl | ⟨after, last, rfl⟩
      · obtain ⟨rfl, hd⟩ := List.append_inj' hsplit rfl
        obtain rfl := List.singleton_inj.mp hd
        exact ⟨r.sections, [], order, [], (List.append_nil _).symm, rfl, hr.perm,
          by rw [hr.sum]; exact hover⟩
      · rw [List.concat_eq_append, ← List.cons_append, ← List.append_assoc] at hsplit
        obtain ⟨kept, keptAfter, front, behind, hkept, rfl, hfront, hlt⟩ :=
          hr.exceeds before d after (List.append_inj' hsplit rfl).1
        exact ⟨kept, keptAfter, front, behind ++ [s], hkept, by simp, hfront, hlt⟩

/-- The whole pass. -/
theorem fitted_foldlM {budget : UInt32} {order l : List Section} {r r' : FitResult}
    (hr : Fitted budget order r) (h : l.foldlM (take budget) r = .ok r') :
    Fitted budget (order ++ l) r' := by
  induction l generalizing order r with
  | nil =>
    obtain rfl := Outcome.ok.inj h
    rwa [List.append_nil]
  | cons s l ih =>
    rw [List.foldlM_cons] at h
    obtain ⟨r₁, htake, hrest⟩ := Outcome.bind_eq_ok.mp h
    have hl := ih (fitted_take hr htake) hrest
    rwa [List.append_assoc] at hl

theorem fitted_nil (budget : UInt32) : Fitted budget [] {} :=
  ⟨List.Perm.refl [], List.Sublist.refl [], rfl, UInt32.zero_le,
    fun before d after hsplit => by simp at hsplit⟩

/-- **The pass goes through** under a budget that is not the greatest, and with estimates whose sum
is in 32 bits. -/
theorem foldlM_take_isOk {budget : UInt32} {l : List Section} {r : FitResult}
    (h : budget.toNat < 2 ^ 32 - 1 ∨ r.estimatedTokens.toNat + totalTokens l ≤ 2 ^ 32 - 1) :
    ∃ r', l.foldlM (take budget) r = .ok r' := by
  induction l generalizing r with
  | nil => exact ⟨r, rfl⟩
  | cons s l ih =>
    have htotal : totalTokens (s :: l) = s.tokenEstimate.toNat + totalTokens l := rfl
    rw [htotal] at h
    rw [List.foldlM_cons, take]
    split
    · rename_i hfits
      rw [UInt32.le_iff_toNat_le, UInt32.toNat_satAdd] at hfits
      obtain ⟨used, hused⟩ : ∃ used : UInt32, used.toNat = r.estimatedTokens.toNat +
          s.tokenEstimate.toNat :=
        ⟨UInt32.ofNat _, UInt32.toNat_ofNat_of_lt' (by simp only [UInt32.size]; omega)⟩
      rw [UInt32.checkedAdd_eq_ok.mpr hused]
      exact ih (by dsimp only; omega)
    · exact ih (by dsimp only; omega)

/-- Under the greatest budget nothing is dropped. -/
theorem foldlM_take_greatest {budget : UInt32} (hbudget : 2 ^ 32 - 1 ≤ budget.toNat)
    {l : List Section} {r r' : FitResult} (h : l.foldlM (take budget) r = .ok r') :
    r'.dropped = r.dropped := by
  induction l generalizing r with
  | nil =>
    obtain rfl := Outcome.ok.inj h
    rfl
  | cons s l ih =>
    rw [List.foldlM_cons] at h
    obtain ⟨r₁, htake, hrest⟩ := Outcome.bind_eq_ok.mp h
    rw [ih hrest]
    rcases take_cases htake with ⟨used, -, -, rfl⟩ | ⟨-, hlt, -⟩
    · rfl
    · omega

/-- What a fit should be: with the sections in order, it has taken each that was within the
budget. -/
def FitsGreedily (input : List Section) (budget : UInt32) : Prop :=
  ∃ r order, fit input budget = .ok r ∧ order.Perm input ∧ order.Pairwise SortOrder ∧
    (r.sections ++ droppedSections r.dropped).Perm input ∧ r.sections.Pairwise SortOrder ∧
    Fitted budget order r

/-- Nothing is dropped under the greatest budget, and the sum of all the estimates is kept. -/
theorem FitsGreedily.totalTokens_le {input : List Section} {budget : UInt32}
    (h : FitsGreedily input budget) (hbudget : 2 ^ 32 - 1 ≤ budget.toNat) :
    totalTokens input ≤ 4294967295 := by
  obtain ⟨r, order, hfit, -, -, hparts, -, hr⟩ := h
  have hdropped : r.dropped = [] := foldlM_take_greatest hbudget hfit
  rw [hdropped, droppedSections, List.map_nil, List.append_nil] at hparts
  have hlt := r.estimatedTokens.toNat_lt
  rw [← totalTokens_perm hparts, hr.sum]
  omega

/-- **A fit is what it should be exactly when the budget is not the greatest, or the estimates of
all sections have a sum in 32 bits.** -/
theorem fit_greedy_iff (input : List Section) (budget : UInt32) :
    FitsGreedily input budget ↔ budget ≠ 4294967295 ∨ totalTokens input ≤ 4294967295 := by
  have hbudget := budget.toNat_lt
  have hgreatest : budget = 4294967295 ↔ budget.toNat = 4294967295 := UInt32.toNat_inj.symm
  rw [ne_eq, hgreatest]
  constructor
  · intro h
    by_cases hlt : budget.toNat < 2 ^ 32 - 1
    · exact .inl (by omega)
    · exact .inr (h.totalTokens_le (by omega))
  · intro h
    have hperm : (sortSections input).Perm input := Pdq.pdq_perm cmpSection input
    have htotal := totalTokens_perm hperm
    have hzero : (({} : FitResult).estimatedTokens).toNat = 0 := rfl
    obtain ⟨r, hfit⟩ : ∃ r, fit input budget = .ok r := foldlM_take_isOk (by omega)
    have hr : Fitted budget (sortSections input) r := fitted_foldlM (fitted_nil budget) hfit
    exact ⟨r, sortSections input, hfit, hperm, sortSections_pairwise input,
      hr.perm.symm.trans hperm, (sortSections_pairwise input).sublist hr.sublist, hr⟩

/-- A section of the history, of which only the estimate matters here. -/
def plainSection (tokenEstimate : UInt32) : Section :=
  { kind := .historyTurn, role := .user, content := [], priority := 0, tokenEstimate, origin := [] }

/-- The sum of the two estimates is within the greatest budget only when it saturates. -/
theorem fit_not_greedy :
    fit [plainSection 4294967295, plainSection 1] 4294967295 = .trap .overflow ∧
      ¬ FitsGreedily [plainSection 4294967295, plainSection 1] 4294967295 := by
  have htrap : fit [plainSection 4294967295, plainSection 1] 4294967295 = .trap .overflow := rfl
  refine ⟨htrap, ?_⟩
  rintro ⟨r, order, hfit, -⟩
  rw [htrap] at hfit
  cases hfit

end Context
end TigerClaw
