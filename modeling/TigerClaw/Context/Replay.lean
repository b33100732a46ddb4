import TigerClaw.Context.Chronology

/-!
# What a turn gets back of its session

Without markers, what `assemble` keeps of a history depends on the sizes of its messages alone: on
where the sort puts them, and on which of them the budget has room for when their turn comes.

* `tokensOf`, `keep`: the estimates and the greedy pass, in whole numbers.
* `replayed`: the positions of a history that come back, in the order of the result.
* `replayed_eq_range`: all of it, where the sort keeps the order and the budget has room.
* `assemble_replayed`: what comes back are the messages at these positions.
-/

namespace TigerClaw
namespace Context

open DefaultEngine

/-- The estimate of a text. -/
def tokensOf (content : Bytes) : ℕ := max 1 ((content.length + 3) / 4)

/-- The greedy pass over positions, where so many tokens are used: each one that still fits. -/
def keep (budget : ℕ) (size : ℕ → ℕ) : ℕ → List ℕ → List ℕ
  | _, [] => []
  | used, i :: l =>
    if used + size i ≤ budget then i :: keep budget size (used + size i) l
    else keep budget size used l

/-- The positions of a history that come back: its messages have these sizes, and the prompt is a
section of its own behind them. -/
def replayed (sizes : List ℕ) (prompt budget : ℕ) : List ℕ :=
  (keep budget (fun i => sizes.getD i prompt) 0 (sortedIndices sizes.length 0)).filter
    (· < sizes.length)

theorem keep_sublist (budget : ℕ) (size : ℕ → ℕ) (used : ℕ) (l : List ℕ) :
    (keep budget size used l).Sublist l := by
  induction l generalizing used with
  | nil => exact List.Sublist.refl []
  | cons i l ih =>
    rw [keep]
    split
    · exact (ih _).cons_cons i
    · exact (ih _).cons i

/-- No message comes back twice. -/
theorem nodup_replayed (sizes : List ℕ) (prompt budget : ℕ) :
    (replayed sizes prompt budget).Nodup :=
  ((nodup_sortedIndices _ 0).sublist (keep_sublist _ _ _ _)).filter _

theorem keep_eq_self {budget : ℕ} {size : ℕ → ℕ} {used : ℕ} {l : List ℕ}
    (h : used + (l.map size).sum ≤ budget) : keep budget size used l = l := by
  induction l generalizing used with
  | nil => rfl
  | cons i l ih =>
    rw [List.map_cons, List.sum_cons] at h
    rw [keep, if_pos (by omega), ih (by omega)]

/-- Where the sort keeps the order and the budget has room, everything comes back as it was. -/
theorem replayed_eq_range {sizes : List ℕ} {prompt budget : ℕ}
    (horder : KeepsOrder sizes.length 0) (hroom : sizes.sum + prompt ≤ budget) :
    replayed sizes prompt budget = List.range sizes.length := by
  have hsizes : (List.range (sizes.length + 0 + 1)).map (fun i => sizes.getD i prompt) =
      sizes ++ [prompt] := by
    refine List.ext_getElem (by simp) fun i h₁ h₂ => ?_
    rw [List.getElem_map, List.getElem_range, List.getElem_append]
    split
    · rename_i hi
      exact List.getD_eq_getElem _ _ hi
    · rename_i hi
      rw [List.getElem_singleton]
      exact List.getD_eq_default _ _ (Nat.le_of_not_lt hi)
  have hsum : ((sortedIndices sizes.length 0).map fun i => sizes.getD i prompt).sum =
      sizes.sum + prompt := by
    rw [sortedIndices, ((Pdq.pdq_perm _ _).map _).sum_nat, hsizes, List.sum_append,
      List.sum_singleton]
  rw [replayed, keep_eq_self (by rw [hsum, Nat.zero_add]; exact hroom), horder]

theorem toNat_of_estimateTokens {s : Bytes} {est : UInt32} (h : estimateTokens s = .ok est) :
    est.toNat = tokensOf s := by
  obtain ⟨n, hn, h⟩ := Outcome.bind_eq_ok.mp h
  rw [UInt32.castNat] at hn
  split at hn
  · rename_i hlt
    obtain rfl := Outcome.ok.inj hn
    obtain rfl := Outcome.ok.inj h
    have hcount : (UInt32.ofNat ((s.length + 3) / 4)).toNat = (s.length + 3) / 4 :=
      UInt32.toNat_ofNat_of_lt' hlt
    rw [tokensOf]
    split
    · rename_i hzero
      rw [hzero, UInt32.toNat_zero] at hcount
      rw [← hcount, UInt32.toNat_one]
      rfl
    · rename_i hpos
      have hne : (s.length + 3) / 4 ≠ 0 := fun heq =>
        hpos (UInt32.toNat_inj.mp (by rw [hcount, heq, UInt32.toNat_zero]))
      rw [hcount]
      omega
  · cases hn

/-- A message and its section say the same. -/
theorem historySection_fields {m : StoredMsg} {s : Section} (h : historySection m = .ok s) :
    s.role = m.role ∧ s.content = m.content ∧ s.blocks = m.blocks ∧
      s.tokenEstimate.toNat = tokensOf m.content := by
  obtain ⟨est, hest, h⟩ := Outcome.bind_eq_ok.mp h
  obtain rfl := Outcome.ok.inj h
  exact ⟨rfl, rfl, rfl, toNat_of_estimateTokens hest⟩

theorem promptSection_tokens {text : Bytes} {s : Section} (h : promptSection text = .ok s) :
    s.tokenEstimate.toNat = tokensOf text := by
  obtain ⟨est, hest, h⟩ := Outcome.bind_eq_ok.mp h
  obtain rfl := Outcome.ok.inj h
  exact toNat_of_estimateTokens hest

/-- The pass that `fit` makes is the one over whole numbers, as long as it returns. -/
theorem foldlM_take_keep {budget : UInt32} {f : ℕ → Section} {size : ℕ → ℕ} {l : List ℕ}
    (hsize : ∀ i ∈ l, (f i).tokenEstimate.toNat = size i) {r r' : FitResult}
    (h : (l.map f).foldlM (take budget) r = .ok r') :
    r'.sections =
      r.sections ++ (keep budget.toNat size r.estimatedTokens.toNat l).map f := by
  induction l generalizing r with
  | nil =>
    obtain rfl := Outcome.ok.inj h
    exact (List.append_nil _).symm
  | cons i l ih =>
    have hi := hsize i List.mem_cons_self
    rw [List.map_cons, List.foldlM_cons] at h
    obtain ⟨r₁, htake, hrest⟩ := Outcome.bind_eq_ok.mp h
    have hlater := ih (fun j hj => hsize j (List.mem_cons_of_mem _ hj)) hrest
    rw [take] at htake
    split at htake
    · obtain ⟨used, hused, hr⟩ := Outcome.bind_eq_ok.mp htake
      obtain rfl := Outcome.ok.inj hr
      rw [UInt32.checkedAdd_eq_ok, hi] at hused
      rename_i hfits
      have hbudget := budget.toNat_lt
      have hmax := used.toNat_lt
      rw [UInt32.le_iff_toNat_le, UInt32.toNat_satAdd, hi] at hfits
      rw [hlater, keep, if_pos (by omega), hused, List.map_cons, List.append_assoc]
      rfl
    · rename_i hover
      obtain rfl := Outcome.ok.inj htake
      rw [UInt32.le_iff_toNat_le, UInt32.toNat_satAdd, hi] at hover
      rw [hlater, keep, if_neg (by omega)]

/-- The sections at these positions are those of the messages there. -/
theorem exists_kept {history : List StoredMsg} {hs : List Section} (ss : List Section) (p : Section)
    (h : List.Forall₂ (fun m s => historySection m = .ok s) history hs) {L : List ℕ}
    (hlt : ∀ i ∈ L, i < hs.length) :
    ∃ kept : List StoredMsg, L.map (history[·]?) = kept.map some ∧
      List.Forall₂ (fun m s => historySection m = .ok s) kept
        (L.map (Layout.sectionAt hs ss p)) := by
  induction L with
  | nil => exact ⟨[], rfl, List.Forall₂.nil⟩
  | cons i L ih =>
    obtain ⟨kept, hkept, hrel⟩ := ih fun j hj => hlt j (List.mem_cons_of_mem _ hj)
    have hi := hlt i List.mem_cons_self
    have hi' : i < history.length := h.length_eq ▸ hi
    refine ⟨history[i] :: kept, ?_, ?_⟩
    · rw [List.map_cons, List.map_cons, hkept, List.getElem?_eq_getElem hi']
    · rw [List.map_cons, Layout.sectionAt_of_lt hi]
      exact List.Forall₂.cons (h.get hi' hi) hrel

namespace Layout

variable {engine : DefaultEngine} {sessionId prompt : Bytes} {hs : List Section} {p : Section}

/-- The sizes of the sections of a history without markers, with the prompt behind it. -/
theorem tokens_sectionAt (h : Layout engine sessionId hs [] p)
    (hprompt : promptSection prompt = .ok p) (i : ℕ) :
    (sectionAt hs [] p i).tokenEstimate.toNat =
      ((engine.history sessionId).map fun m => tokensOf m.content).getD i (tokensOf prompt) := by
  have hlength := h.history.length_eq
  by_cases hi : i < hs.length
  · have hi' : i < (engine.history sessionId).length := hlength ▸ hi
    rw [sectionAt_of_lt hi, List.getD_eq_getElem _ _ (by rwa [List.length_map]), List.getElem_map]
    exact (historySection_fields (h.history.get hi' hi)).2.2.2
  · rw [sectionAt, List.append_nil, List.getD_eq_default _ _ (Nat.le_of_not_lt hi),
      List.getD_eq_default _ _ (by rw [List.length_map, hlength]; exact Nat.le_of_not_lt hi)]
    exact promptSection_tokens hprompt

/-- All but the prompt are sections of the history. -/
theorem notPrompt_comp (h : Layout engine sessionId hs [] p) :
    (fun s : Section => decide (s.kind ≠ .currentPrompt)) ∘ sectionAt hs [] p =
      fun i => decide (i < hs.length) := by
  funext i
  rw [Function.comp_apply]
  rcases h.sectionAt_cases i with ⟨hi, hkind, -⟩ | ⟨hi, hi', -⟩ | ⟨hi, -, hkind, -⟩
  · simp [hi, hkind]
  · exact absurd hi' hi
  · simp [hi, hkind]

end Layout

/-- **What `assemble` keeps of a history without markers are the messages at the positions that
come back.** -/
theorem assemble_replayed {engine : DefaultEngine} {sessionId prompt : Bytes} {budget : UInt32}
    {r : FitResult} (hmarkers : engine.markersOf sessionId = [])
    (h : engine.assemble sessionId prompt budget = .ok r) :
    ∃ kept : List StoredMsg,
      (replayed ((engine.history sessionId).map fun m => tokensOf m.content) (tokensOf prompt)
        budget.toNat).map ((engine.history sessionId)[·]?) = kept.map some ∧
      List.Forall₂ (fun m s => historySection m = .ok s) kept
        (r.sections.filter fun s => s.kind ≠ .currentPrompt) := by
  obtain ⟨l, hsections, hfit⟩ := Outcome.bind_eq_ok.mp h
  obtain ⟨hs, ss, p, rfl, hlayout, hprompt⟩ := sections_eq_ok hsections
  obtain rfl : ss = [] := by
    have hsummaries := hlayout.summaries
    rw [hmarkers] at hsummaries
    exact List.forall₂_nil_left_iff.mp hsummaries
  have hlength := hlayout.history.length_eq
  rw [fit, hlayout.sortSections_eq] at hfit
  have hkept := foldlM_take_keep (fun i _ => hlayout.tokens_sectionAt hprompt i) hfit
  obtain ⟨kept, hpositions, hrel⟩ := exists_kept [] p hlayout.history
    (L := replayed ((engine.history sessionId).map fun m => tokensOf m.content) (tokensOf prompt)
      budget.toNat) fun i hi => by
        simpa [hlength] using (List.mem_filter.mp hi).2
  refine ⟨kept, hpositions, ?_⟩
  rw [hkept, List.nil_append, List.filter_map, hlayout.notPrompt_comp]
  rw [replayed, List.length_map, hlength] at hrel
  exact hrel

end Context
end TigerClaw
