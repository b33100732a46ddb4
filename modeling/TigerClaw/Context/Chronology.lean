import TigerClaw.Context.DefaultEngine
import TigerClaw.Library.PdqPlateau
import Mathlib.Data.List.GetD
import Mathlib.Data.List.Nodup
import Mathlib.Data.List.Perm.Subperm

/-!
# The order of the history

`assemble` hands its sections to a sort that is not stable.  The messages of a session all have the
same priority and the same origin, and they are in the order in which they came; whether they still
are so after the sort depends on how many there are, and on how many markers, and on nothing else.

* `InOrder`: the messages that were kept are in the order in which they were ingested.
* `KeepsOrder n m`: the sort leaves `n` messages in order that come with `m` markers.
* `keepsOrder_iff_of_few`: with at most three markers it does so for at most 24 sections, and for
  fifty or more, but not in between.
* `chronological_iff`: so does `assemble`, whatever the messages and the budget, exactly then.
-/

namespace TigerClaw
namespace Context

open DefaultEngine

/-- The messages of the session that were kept, in the order of the result, are in the order in
which they were ingested. -/
def InOrder (engine : DefaultEngine) (sessionId : Bytes) (r : FitResult) : Prop :=
  ∃ kept : List StoredMsg, kept.Sublist (engine.history sessionId) ∧
    kept.mapM' historySection = .ok (r.sections.filter fun s => s.kind = .historyTurn)

/-- No message is there twice, and no marker: `ingest` and `append` see to that. -/
structure Distinct (engine : DefaultEngine) : Prop where
  messages : (engine.messages.map fun m => (m.sessionId, m.messageId)).Nodup
  markers : (engine.markers.items.map fun mk =>
    (mk.sessionId, mk.rangeStartId, mk.rangeEndId)).Nodup

/-- With `n` messages in view and `m` markers, `assemble` always keeps the order. -/
def Chronological (n m : ℕ) : Prop :=
  ∀ (engine : DefaultEngine) (sessionId prompt : Bytes) (budget : UInt32) (r : FitResult),
    Distinct engine →
    (engine.history sessionId).length = n → (engine.markersOf sessionId).length = m →
    engine.assemble sessionId prompt budget = .ok r → InOrder engine sessionId r

/-- The priorities of the sections before the sort: the messages, the markers and the prompt. -/
def priorityAt (n m i : ℕ) : ℕ := if i < n then 50 else if i < n + m then 40 else 0

/-- Where the sort puts the sections. -/
def sortedIndices (n m : ℕ) : List ℕ :=
  Pdq.pdq (fun i j => priorityAt n m i < priorityAt n m j) (List.range (n + m + 1))

/-- The sort leaves the messages in order. -/
def KeepsOrder (n m : ℕ) : Prop := (sortedIndices n m).filter (· < n) = List.range n

instance (n m : ℕ) : Decidable (KeepsOrder n m) := inferInstanceAs (Decidable (_ = _))

/-! ## Engines without repetition -/

theorem Distinct.init : Distinct {} := ⟨List.nodup_nil, List.nodup_nil⟩

theorem nodup_map_concat {α β : Type} {key : α → β} {l : List α} {a : α}
    (h : (l.map key).Nodup) (hnew : ∀ b ∈ l, key b ≠ key a) : ((l ++ [a]).map key).Nodup := by
  rw [List.map_append, List.map_singleton, ← List.concat_eq_append]
  refine h.concat fun hmem => ?_
  obtain ⟨b, hb, heq⟩ := List.mem_map.mp hmem
  exact hnew b hb heq

theorem Distinct.ingest {engine : DefaultEngine} (h : Distinct engine) (params : StoredMsg) :
    Distinct (engine.ingest params).2 := by
  unfold DefaultEngine.ingest
  split
  · exact h
  · rename_i hnew
    refine ⟨nodup_map_concat h.messages fun m hm heq => hnew ?_, h.markers⟩
    obtain ⟨hsession, hid⟩ := Prod.mk.inj heq
    exact List.any_eq_true.mpr ⟨m, hm, by simp [hsession, hid]⟩

theorem Distinct.append {engine : DefaultEngine} (h : Distinct engine) (mk : CompactionMarker) :
    Distinct { engine with markers := engine.markers.append mk } := by
  unfold MarkerLog.append
  split
  · exact h
  · rename_i hnew
    refine ⟨h.messages, nodup_map_concat h.markers fun mk' hmk' heq => hnew ?_⟩
    simp only [Prod.mk.injEq] at heq
    exact List.any_eq_true.mpr ⟨mk', hmk', by simp [heq]⟩

theorem Distinct.compact {engine engine' : DefaultEngine} (h : Distinct engine)
    {params : CompactParams} {nowNs : ℤ} {res : CompactResult}
    (hcompact : engine.compact params nowNs = .ok (res, engine')) : Distinct engine' := by
  rcases compact_eq_ok hcompact with ⟨rfl, -⟩ | ⟨-, -, -, marker, -, -, -, -, -, rfl⟩
  · exact h
  · exact h.append marker

/-! ## The sort -/

theorem filter_lt_range (n k : ℕ) :
    (List.range (n + k)).filter (fun i => decide (i < n)) = List.range n := by
  rw [List.range_add, List.filter_append, List.filter_eq_self.mpr, List.filter_eq_nil_iff.mpr,
    List.append_nil]
  · intro i hi
    obtain ⟨j, -, rfl⟩ := List.mem_map.mp hi
    simp
  · exact fun i hi => decide_eq_true (List.mem_range.mp hi)

theorem sortedIndices_filter_perm (n m : ℕ) :
    ((sortedIndices n m).filter fun i => decide (i < n)).Perm (List.range n) := by
  have hperm := (Pdq.pdq_perm (fun i j => decide (priorityAt n m i < priorityAt n m j))
    (List.range (n + m + 1))).filter fun i => decide (i < n)
  rwa [Nat.add_assoc, filter_lt_range] at hperm

/-- Up to 24 sections are sorted by insertion, and keep their order. -/
theorem keepsOrder_of_le {n m : ℕ} (h : n + m + 1 ≤ 24) : KeepsOrder n m := by
  have hlength : (List.range (n + m + 1)).length ≤ 24 := by rwa [List.length_range]
  have hstable : (sortedIndices n m).filter (fun i => decide (i < n)) =
      (List.range (n + m + 1)).filter (fun i => decide (i < n)) :=
    Pdq.pdq_stable hlength fun i j hi hj => by
      rw [decide_eq_true_eq] at hi hj
      simp [priorityAt, hi, hj]
  rw [KeepsOrder, hstable, Nat.add_assoc, filter_lt_range]

/-- With at most three markers, fifty sections or more are mended without a pivot, and keep their
order. -/
theorem keepsOrder_of_long {n m : ℕ} (hfew : m ≤ 3) (h : 50 ≤ n + m + 1) : KeepsOrder n m := by
  have htop : ∀ i j, i < n → j < n →
      decide (priorityAt n m i < priorityAt n m j) = false := fun i j hi hj => by
    simp [priorityAt, hi, hj]
  have hsmall : ∀ i ∈ (List.range (m + 1)).map (n + ·), ∀ j, j < n →
      decide (priorityAt n m i < priorityAt n m j) = true := by
    intro i hi j hj
    obtain ⟨k, -, rfl⟩ := List.mem_map.mp hi
    have hge : ¬ n + k < n := by omega
    by_cases hk : k < m
    · simp [priorityAt, hj, hk, hge]
    · simp [priorityAt, hj, hk, hge]
  have hplateau := Pdq.pdq_plateau htop (fun i (hi : i ∈ List.range n) => List.mem_range.mp hi)
    hsmall (by rw [List.length_map, List.length_range]; omega)
    (by rw [List.length_map, List.length_range, List.length_range]; omega)
    (p := fun i => decide (i < n)) fun i hi => of_decide_eq_true hi
  rw [← List.range_add] at hplateau
  rw [KeepsOrder, sortedIndices, Nat.add_assoc, hplateau, filter_lt_range]

/-- From 25 sections to 49, with at most three markers, the pivot is swapped with the first
message. -/
theorem not_keepsOrder {n m : ℕ} (hfew : m ≤ 3) (h : 25 ≤ n + m + 1) (h' : n + m + 1 ≤ 49) :
    ¬ KeepsOrder n m := by
  obtain ⟨k, hk⟩ := Nat.exists_eq_add_of_le (show 24 - m ≤ n by omega)
  have hlt : k < 25 := by omega
  -- one evaluation for each number of markers
  have hnone : ∀ k < 25, ¬ KeepsOrder (24 + k) 0 := by decide +kernel
  have hone : ∀ k < 25, ¬ KeepsOrder (23 + k) 1 := by decide +kernel
  have htwo : ∀ k < 25, ¬ KeepsOrder (22 + k) 2 := by decide +kernel
  have hthree : ∀ k < 25, ¬ KeepsOrder (21 + k) 3 := by decide +kernel
  rw [hk]
  obtain rfl | rfl | rfl | rfl : m = 0 ∨ m = 1 ∨ m = 2 ∨ m = 3 := by omega
  · exact hnone k hlt
  · exact hone k hlt
  · exact htwo k hlt
  · exact hthree k hlt

theorem keepsOrder_iff_of_few {n m : ℕ} (hfew : m ≤ 3) :
    KeepsOrder n m ↔ n + m + 1 ≤ 24 ∨ 50 ≤ n + m + 1 := by
  constructor
  · intro hkeeps
    by_contra hbetween
    exact not_keepsOrder hfew (by omega) (by omega) hkeeps
  · rintro (hshort | hlong)
    · exact keepsOrder_of_le hshort
    · exact keepsOrder_of_long hfew hlong

/-! ## The sections before the sort -/

/-- What the sections of a session look like. -/
structure Layout (engine : DefaultEngine) (sessionId : Bytes) (hs ss : List Section)
    (p : Section) : Prop where
  history : List.Forall₂ (fun m s => historySection m = .ok s) (engine.history sessionId) hs
  summaries : List.Forall₂ (fun mk s => summarySection mk = .ok s) (engine.markersOf sessionId) ss
  prompt : ∃ text, promptSection text = .ok p

theorem sections_eq_ok {engine : DefaultEngine} {sessionId prompt : Bytes} {l : List Section}
    (h : engine.sections sessionId prompt = .ok l) :
    ∃ hs ss p, l = hs ++ ss ++ [p] ∧ Layout engine sessionId hs ss p ∧
      promptSection prompt = .ok p := by
  obtain ⟨hs, hhistory, h⟩ := Outcome.bind_eq_ok.mp h
  obtain ⟨ss, hsummaries, h⟩ := Outcome.bind_eq_ok.mp h
  obtain ⟨p, hprompt, h⟩ := Outcome.bind_eq_ok.mp h
  exact ⟨hs, ss, p, (Outcome.ok.inj h).symm, ⟨Outcome.mapM'_eq_ok.mp hhistory,
    Outcome.mapM'_eq_ok.mp hsummaries, ⟨prompt, hprompt⟩⟩, hprompt⟩

theorem historySection_eq_ok {m : StoredMsg} {s : Section} (h : historySection m = .ok s) :
    s.kind = .historyTurn ∧ s.priority = 50 ∧ s.origin = ascii "default-engine/history" ∧
      s.content = m.content := by
  obtain ⟨est, -, h⟩ := Outcome.bind_eq_ok.mp h
  obtain rfl := Outcome.ok.inj h
  exact ⟨rfl, rfl, rfl, rfl⟩

theorem summarySection_eq_ok {mk : CompactionMarker} {s : Section} (h : summarySection mk = .ok s) :
    s.kind = .compactionSummary ∧ s.priority = 40 ∧ s.origin = ascii "default-engine/summary" := by
  obtain ⟨est, -, h⟩ := Outcome.bind_eq_ok.mp h
  obtain rfl := Outcome.ok.inj h
  exact ⟨rfl, rfl, rfl⟩

theorem promptSection_eq_ok {text : Bytes} {s : Section} (h : promptSection text = .ok s) :
    s.kind = .currentPrompt ∧ s.priority = 0 ∧ s.origin = ascii "default-engine/prompt" := by
  obtain ⟨est, -, h⟩ := Outcome.bind_eq_ok.mp h
  obtain rfl := Outcome.ok.inj h
  exact ⟨rfl, rfl, rfl⟩

namespace Layout

variable {engine : DefaultEngine} {sessionId : Bytes} {hs ss : List Section} {p : Section}

/-- The section at an index; the prompt beyond the end. -/
def sectionAt (hs ss : List Section) (p : Section) (i : ℕ) : Section := (hs ++ ss).getD i p

theorem eq_map_sectionAt (hs ss : List Section) (p : Section) :
    hs ++ ss ++ [p] = (List.range (hs.length + ss.length + 1)).map (sectionAt hs ss p) := by
  refine List.ext_getElem (by simp [Nat.add_assoc]) fun i h₁ h₂ => ?_
  rw [List.getElem_map, List.getElem_range, sectionAt, List.getElem_append]
  split
  · rename_i h
    exact (List.getD_eq_getElem (hs ++ ss) p h).symm
  · rename_i h
    rw [List.getElem_singleton, List.getD_eq_default (hs ++ ss) p (Nat.le_of_not_lt h)]

theorem exists_of_mem {α β : Type} {R : α → β → Prop} {l : List α} {l' : List β}
    (h : List.Forall₂ R l l') {b : β} (hb : b ∈ l') : ∃ a, R a b := by
  induction h with
  | nil => cases hb
  | cons hab _ ih =>
    rcases List.mem_cons.mp hb with rfl | hb
    · exact ⟨_, hab⟩
    · exact ih hb

theorem sectionAt_of_lt {i : ℕ} (hi : i < hs.length) : sectionAt hs ss p i = hs[i] := by
  rw [sectionAt, List.getD_append _ _ _ _ hi, List.getD_eq_getElem]

/-- What is at an index. -/
theorem sectionAt_cases (h : Layout engine sessionId hs ss p) (i : ℕ) :
    (i < hs.length ∧ (sectionAt hs ss p i).kind = .historyTurn ∧
        (sectionAt hs ss p i).priority = 50 ∧
        (sectionAt hs ss p i).origin = ascii "default-engine/history") ∨
      (¬ i < hs.length ∧ i < hs.length + ss.length ∧
        (sectionAt hs ss p i).kind = .compactionSummary ∧ (sectionAt hs ss p i).priority = 40 ∧
        (sectionAt hs ss p i).origin = ascii "default-engine/summary") ∨
      (¬ i < hs.length ∧ ¬ i < hs.length + ss.length ∧
        (sectionAt hs ss p i).kind = .currentPrompt ∧ (sectionAt hs ss p i).priority = 0 ∧
        (sectionAt hs ss p i).origin = ascii "default-engine/prompt") := by
  by_cases hi : i < hs.length
  · obtain ⟨m, hm⟩ := exists_of_mem h.history (List.getElem_mem hi)
    obtain ⟨hkind, hpriority, horigin, -⟩ := historySection_eq_ok hm
    rw [sectionAt_of_lt hi]
    exact .inl ⟨hi, hkind, hpriority, horigin⟩
  by_cases hi' : i < hs.length + ss.length
  · have hlt : i - hs.length < ss.length := by omega
    obtain ⟨mk, hmk⟩ := exists_of_mem h.summaries (List.getElem_mem hlt)
    have hat : sectionAt hs ss p i = ss[i - hs.length] := by
      rw [sectionAt, List.getD_append_right _ _ _ _ (by omega), List.getD_eq_getElem]
    rw [hat]
    exact .inr (.inl ⟨hi, hi', summarySection_eq_ok hmk⟩)
  · obtain ⟨text, htext⟩ := h.prompt
    have hat : sectionAt hs ss p i = p := by
      rw [sectionAt, List.getD_eq_default]
      simpa using hi'
    rw [hat]
    exact .inr (.inr ⟨hi, hi', promptSection_eq_ok htext⟩)

/-- Sections compare as their priorities do: equal priorities come with equal origins. -/
theorem cmpSection_sectionAt (h : Layout engine sessionId hs ss p) (i j : ℕ) :
    cmpSection (sectionAt hs ss p i) (sectionAt hs ss p j) =
      decide (priorityAt hs.length ss.length i < priorityAt hs.length ss.length j) := by
  have hirrefl : ∀ s : Bytes, lessThan s s = false := fun s =>
    Bool.eq_false_iff.mpr fun hlt => lessThan_asymm hlt hlt
  rcases h.sectionAt_cases i with ⟨hi, -, hp, ho⟩ | ⟨hi, hi', -, hp, ho⟩ | ⟨hi, hi', -, hp, ho⟩ <;>
  rcases h.sectionAt_cases j with
    ⟨hj, -, hq, ho'⟩ | ⟨hj, hj', -, hq, ho'⟩ | ⟨hj, hj', -, hq, ho'⟩ <;>
  simp [cmpSection, priorityAt, *]

/-- The sort puts the sections where it puts their indices. -/
theorem sortSections_eq (h : Layout engine sessionId hs ss p) :
    sortSections (hs ++ ss ++ [p]) =
      (sortedIndices hs.length ss.length).map (sectionAt hs ss p) := by
  rw [sortSections, eq_map_sectionAt, Pdq.pdq_map, sortedIndices]
  simp only [h.cmpSection_sectionAt]

theorem map_sectionAt_range (hs ss : List Section) (p : Section) :
    (List.range hs.length).map (sectionAt hs ss p) = hs := by
  refine List.ext_getElem (by simp) fun i h₁ h₂ => ?_
  rw [List.getElem_map, List.getElem_range, sectionAt_of_lt h₂]

/-- The sections of the history are those in front. -/
theorem isHistory_comp (h : Layout engine sessionId hs ss p) :
    (fun s : Section => decide (s.kind = .historyTurn)) ∘ sectionAt hs ss p =
      fun i => decide (i < hs.length) := by
  funext i
  rw [Function.comp_apply]
  rcases h.sectionAt_cases i with ⟨hi, hkind, -⟩ | ⟨hi, -, hkind, -⟩ | ⟨hi, -, hkind, -⟩ <;>
  simp [hi, hkind]

theorem exists_sublist {α β : Type} {R : α → β → Prop} {l : List α} {l' s' : List β}
    (h : List.Forall₂ R l l') (hs : s'.Sublist l') : ∃ s, s.Sublist l ∧ List.Forall₂ R s s' := by
  induction h generalizing s' with
  | nil =>
    obtain rfl := List.eq_nil_of_sublist_nil hs
    exact ⟨[], List.Sublist.refl [], List.Forall₂.nil⟩
  | cons hab _ ih =>
    cases hs with
    | cons _ hs =>
      obtain ⟨s, hsub, hrel⟩ := ih hs
      exact ⟨s, hsub.cons _, hrel⟩
    | cons_cons _ hs =>
      obtain ⟨s, hsub, hrel⟩ := ih hs
      exact ⟨_ :: s, hsub.cons_cons _, List.Forall₂.cons hab hrel⟩

end Layout

theorem chronological_of_keepsOrder {n m : ℕ} (h : KeepsOrder n m) : Chronological n m := by
  intro engine sessionId prompt budget r _ hn hm hassemble
  obtain ⟨l, hsections, hfit⟩ := Outcome.bind_eq_ok.mp hassemble
  obtain ⟨hs, ss, p, rfl, hlayout, -⟩ := sections_eq_ok hsections
  obtain rfl : n = hs.length := hn.symm.trans hlayout.history.length_eq
  obtain rfl : m = ss.length := hm.symm.trans hlayout.summaries.length_eq
  have hsub := (fit_sublist hfit).filter fun s => decide (s.kind = .historyTurn)
  have hhistory : (sortSections (hs ++ ss ++ [p])).filter
      (fun s => decide (s.kind = .historyTurn)) = hs := by
    rw [hlayout.sortSections_eq, List.filter_map, hlayout.isHistory_comp, h,
      Layout.map_sectionAt_range]
  rw [hhistory] at hsub
  obtain ⟨kept, hkept, hrel⟩ := Layout.exists_sublist hlayout.history hsub
  exact ⟨kept, hkept, Outcome.mapM'_eq_ok.mpr hrel⟩

/-! ## Two messages out of order -/

/-- Two messages of one byte among long ones. -/
def probeMsg (a b k : ℕ) : StoredMsg :=
  { sessionId := [], messageId := List.replicate k 0, role := .user
    content := if k = a then [0] else if k = b then [1] else List.replicate 100 0 }

/-- A marker over ids that no message has. -/
def probeMarker (k : ℕ) : CompactionMarker :=
  { rangeStartId := List.replicate (k + 1) 1, rangeEndId := List.replicate (k + 2) 1
    summaryText := List.replicate 100 0, summaryEntryId := [], createdAtMs := 0 }

/-- `n` messages with `m` markers. -/
def probe (n m a b : ℕ) : DefaultEngine :=
  { messages := (List.range n).map (probeMsg a b)
    markers := { items := (List.range m).map probeMarker } }

theorem nodup_map_of_length {α : Type} {f : ℕ → α} (g : α → ℕ) (hg : ∀ k, g (f k) = k) (n : ℕ) :
    ((List.range n).map f).Nodup :=
  List.nodup_range.map fun i j h => by rw [← hg i, h, hg j]

theorem distinct_probe (n m a b : ℕ) : Distinct (probe n m a b) where
  messages := by
    rw [probe, List.map_map]
    exact nodup_map_of_length (fun ids => ids.2.length) (fun k => by simp [probeMsg]) n
  markers := by
    rw [probe, List.map_map]
    exact nodup_map_of_length (fun ids => ids.2.1.length - 1) (fun k => by simp [probeMarker]) m

theorem history_probe (n m a b : ℕ) :
    (probe n m a b).history [] = (List.range n).map (probeMsg a b) := by
  refine List.filter_eq_self.mpr fun msg hmsg => ?_
  obtain ⟨k, -, rfl⟩ := List.mem_map.mp hmsg
  -- the ids of the messages come before the ranges of the markers
  have hbefore : ∀ i, lessThan (List.replicate k 0) (List.replicate (i + 1) 1) = true := by
    intro i
    cases k <;> rfl
  simp [isVisible, probeMsg, probe, MarkerLog.coversSession, CompactionMarker.covers, probeMarker,
    hbefore]

theorem markersOf_probe (n m a b : ℕ) :
    (probe n m a b).markersOf [] = (List.range m).map probeMarker := by
  refine List.filter_eq_self.mpr fun mk hmk => ?_
  obtain ⟨k, -, rfl⟩ := List.mem_map.mp hmk
  rfl

/-! ## What becomes of the probe -/

def probeSection (a b k : ℕ) : Section :=
  { kind := .historyTurn, role := .user, content := (probeMsg a b k).content, priority := 50
    tokenEstimate := if k = a ∨ k = b then 1 else 25, origin := ascii "default-engine/history" }

def probeSummary : Section :=
  { kind := .compactionSummary, role := .system, content := List.replicate 100 0, priority := 40
    tokenEstimate := 25, origin := ascii "default-engine/summary" }

def probePrompt : Section :=
  { kind := .currentPrompt, role := .user, content := [], priority := 0, tokenEstimate := 1
    origin := ascii "default-engine/prompt" }

theorem historySection_probeMsg (a b k : ℕ) :
    historySection (probeMsg a b k) = .ok (probeSection a b k) := by
  by_cases ha : k = a
  · simp only [historySection, probeMsg, probeSection, if_pos ha,
      if_pos (Or.inl ha : k = a ∨ k = b)]
    rfl
  by_cases hb : k = b
  · simp only [historySection, probeMsg, probeSection, if_neg ha, if_pos hb,
      if_pos (Or.inr hb : k = a ∨ k = b)]
    rfl
  · simp only [historySection, probeMsg, probeSection, if_neg ha, if_neg hb,
      if_neg (not_or.mpr ⟨ha, hb⟩)]
    rfl

theorem summarySection_probeMarker (k : ℕ) :
    summarySection (probeMarker k) = .ok probeSummary := by
  simp only [summarySection, probeMarker]
  rfl

theorem layout_probe (n m a b : ℕ) :
    Layout (probe n m a b) [] ((List.range n).map (probeSection a b))
      ((List.range m).map fun _ => probeSummary) probePrompt where
  history := by
    rw [history_probe, List.forall₂_map_left_iff, List.forall₂_map_right_iff]
    exact List.forall₂_same.mpr fun k _ => historySection_probeMsg a b k
  summaries := by
    rw [markersOf_probe, List.forall₂_map_left_iff, List.forall₂_map_right_iff]
    exact List.forall₂_same.mpr fun k _ => summarySection_probeMarker k
  prompt := ⟨[], rfl⟩

def probeSections (n m a b : ℕ) : List Section :=
  (List.range n).map (probeSection a b) ++ ((List.range m).map fun _ => probeSummary) ++
    [probePrompt]

theorem sections_probe (n m a b : ℕ) :
    (probe n m a b).sections [] [] = .ok (probeSections n m a b) := by
  have h := layout_probe n m a b
  rw [sections, Outcome.mapM'_eq_ok.mpr h.history, Outcome.mapM'_eq_ok.mpr h.summaries]
  rfl

/-- Where the sort puts the sections of the probe. -/
def probeAt (n m a b : ℕ) : ℕ → Section :=
  Layout.sectionAt ((List.range n).map (probeSection a b))
    ((List.range m).map fun _ => probeSummary) probePrompt

theorem sortSections_probe (n m a b : ℕ) :
    sortSections (probeSections n m a b) = (sortedIndices n m).map (probeAt n m a b) := by
  have h := (layout_probe n m a b).sortSections_eq
  rw [List.length_map, List.length_map, List.length_range, List.length_range] at h
  exact h

theorem probeAt_of_lt {n k : ℕ} (hk : k < n) (m a b : ℕ) :
    probeAt n m a b k = probeSection a b k := by
  have hlength : k < ((List.range n).map (probeSection a b)).length := by simpa using hk
  rw [probeAt, Layout.sectionAt, List.getD_append _ _ _ _ hlength, List.getD_eq_getElem _ _ hlength,
    List.getElem_map, List.getElem_range]

/-- A section of one token: a budget of three has room for no other. -/
def isSmall (s : Section) : Bool := s.tokenEstimate = 1

theorem isSmall_probeSection (a b k : ℕ) :
    isSmall (probeSection a b k) = decide (k = a ∨ k = b) := by
  by_cases h : k = a ∨ k = b
  · simp [isSmall, probeSection, h]
  · simp [isSmall, probeSection, h]

theorem large_of_not_isSmall {n m a b : ℕ} {s : Section} (hs : s ∈ probeSections n m a b)
    (hsmall : isSmall s = false) : 3 < s.tokenEstimate.toNat := by
  rw [probeSections, List.mem_append, List.mem_append, List.mem_singleton] at hs
  rcases hs with (hs | hs) | rfl
  · obtain ⟨k, -, rfl⟩ := List.mem_map.mp hs
    rw [isSmall_probeSection, decide_eq_false_iff_not] at hsmall
    rw [probeSection, if_neg hsmall]
    exact (by decide : 3 < (25 : UInt32).toNat)
  · obtain ⟨k, -, rfl⟩ := List.mem_map.mp hs
    decide
  · exact absurd hsmall (by decide)

theorem totalTokens_isSmall (l : List Section) :
    totalTokens (l.filter isSmall) = (l.filter isSmall).length := by
  have hone : ∀ s ∈ l.filter isSmall, s.tokenEstimate.toNat = 1 := by
    intro s hs
    rw [decide_eq_true_eq.mp (List.mem_filter.mp hs).2]
    rfl
  rw [totalTokens, List.map_congr_left hone, List.map_const', List.sum_replicate_nat, Nat.mul_one]

theorem length_filter_le_two {l : List ℕ} (hnodup : l.Nodup) (a b : ℕ) :
    (l.filter fun i => decide (i = a ∨ i = b)).length ≤ 2 := by
  have hsub : (l.filter fun i => decide (i = a ∨ i = b)).Subperm [a, b] :=
    List.subperm_of_subset (hnodup.filter _) fun i hi => by simpa using (List.mem_filter.mp hi).2
  exact hsub.length_le

theorem filter_pair {l : List ℕ} (hnodup : l.Nodup) {a b : ℕ} (h : [a, b].Sublist l) :
    l.filter (fun i => decide (i = a ∨ i = b)) = [a, b] := by
  have hsub := h.filter fun i => decide (i = a ∨ i = b)
  have hself : [a, b].filter (fun i => decide (i = a ∨ i = b)) = [a, b] := by simp
  rw [hself] at hsub
  exact (hsub.eq_of_length_le (length_filter_le_two hnodup a b)).symm

/-- Of the probe, three tokens keep the two short messages and the prompt. -/
theorem assemble_probe (n m a b : ℕ) :
    ∃ r, (probe n m a b).assemble [] [] 3 = .ok r ∧
      r.sections = (sortSections (probeSections n m a b)).filter isSmall := by
  have hroom : totalTokens ((probeSections n m a b).filter isSmall) ≤ (3 : UInt32).toNat := by
    have hpair := length_filter_le_two (l := List.range n) List.nodup_range a b
    have hsummaries : ((List.range m).map fun _ => probeSummary).filter isSmall = [] := by
      simp [isSmall, probeSummary]
    have hcomp : isSmall ∘ probeSection a b = fun i => decide (i = a ∨ i = b) :=
      funext (isSmall_probeSection a b)
    rw [totalTokens_isSmall, probeSections, List.filter_append, List.filter_append, hsummaries,
      List.filter_map, hcomp]
    have hprompt : [probePrompt].filter isSmall = [probePrompt] := rfl
    rw [hprompt, List.append_nil, List.length_append, List.length_map]
    exact Nat.succ_le_succ hpair
  obtain ⟨r, hr, hsections⟩ := fit_filter (fun _ => large_of_not_isSmall) hroom
  refine ⟨r, ?_, hsections⟩
  rw [assemble, sections_probe]
  exact hr

/-- Two messages that the sort has the wrong way round. -/
theorem exists_swapped {n m : ℕ} (h : ¬ KeepsOrder n m) :
    ∃ a b, b < a ∧ [a, b].Sublist ((sortedIndices n m).filter fun i => decide (i < n)) := by
  by_contra hnone
  push Not at hnone
  refine h (List.Perm.eq_of_pairwise (fun a b _ _ hab hba => Nat.le_antisymm hab hba) ?_ ?_ ?_)
  · exact List.pairwise_iff_forall_sublist.mpr fun {a b} hab =>
      not_lt.mp fun hlt => hnone a b hlt hab
  · exact List.pairwise_le_range
  · exact sortedIndices_filter_perm n m

theorem nodup_sortedIndices (n m : ℕ) : (sortedIndices n m).Nodup :=
  (Pdq.pdq_perm _ _).nodup_iff.mpr List.nodup_range

/-- What is kept of the history are the two short messages, as the sort has them. -/
theorem history_of_assemble_probe {n m a b : ℕ}
    (hsub : [a, b].Sublist ((sortedIndices n m).filter fun i => decide (i < n))) :
    ((sortSections (probeSections n m a b)).filter isSmall).filter
      (fun s => decide (s.kind = .historyTurn)) = [probeSection a b a, probeSection a b b] := by
  have hcomp : (fun s : Section => decide (s.kind = .historyTurn) && isSmall s) ∘ probeAt n m a b =
      fun i => decide (i = a ∨ i = b) && decide (i < n) := by
    funext i
    have hhistory := congrFun (layout_probe n m a b).isHistory_comp i
    simp only [Function.comp_apply, List.length_map, List.length_range] at hhistory
    rw [Function.comp_apply, probeAt, hhistory, ← probeAt]
    by_cases hi : i < n
    · rw [probeAt_of_lt hi, isSmall_probeSection, Bool.and_comm]
    · simp [hi]
  have hlt : ∀ i ∈ [a, b], i < n := fun i hi =>
    of_decide_eq_true (List.mem_filter.mp (hsub.mem hi)).2
  rw [List.filter_filter, sortSections_probe, List.filter_map, hcomp, ← List.filter_filter,
    filter_pair ((nodup_sortedIndices n m).filter _) hsub, List.map_cons, List.map_singleton,
    probeAt_of_lt (hlt a (by simp)), probeAt_of_lt (hlt b (by simp))]

/-- The contents say which two messages these are. -/
theorem eq_pair_of_map_probeSection {a b : ℕ} (hne : a ≠ b) {ks : List ℕ}
    (h : ks.map (probeSection a b) = [probeSection a b a, probeSection a b b]) : ks = [a, b] := by
  obtain ⟨x, ks, rfl, hx, h⟩ := List.map_eq_cons_iff.mp h
  obtain ⟨y, ks, rfl, hy, h⟩ := List.map_eq_cons_iff.mp h
  obtain rfl := List.map_eq_nil_iff.mp h
  have hxa : x = a := by
    have hcontent := congrArg (·.content) hx
    by_contra hxa
    by_cases hxb : x = b
    · simp [probeSection, probeMsg, hxb, hne.symm] at hcontent
    · simp [probeSection, probeMsg, hxa, hxb] at hcontent
  have hyb : y = b := by
    have hcontent := congrArg (·.content) hy
    by_contra hyb
    by_cases hya : y = a
    · simp [probeSection, probeMsg, hya, hne.symm] at hcontent
    · simp [probeSection, probeMsg, hya, hyb, hne.symm] at hcontent
  rw [hxa, hyb]

theorem keepsOrder_of_chronological {n m : ℕ} (h : Chronological n m) : KeepsOrder n m := by
  by_contra hswap
  obtain ⟨a, b, hba, hsub⟩ := exists_swapped hswap
  obtain ⟨r, hr, hsections⟩ := assemble_probe n m a b
  obtain ⟨kept, hkeptSub, hmap⟩ := h (probe n m a b) [] [] 3 r (distinct_probe n m a b)
    (by simp [history_probe]) (by simp [markersOf_probe]) hr
  rw [history_probe] at hkeptSub
  obtain ⟨ks, hks, rfl⟩ := List.sublist_map_iff.mp hkeptSub
  have hself : (ks.map (probeMsg a b)).mapM' historySection = .ok (ks.map (probeSection a b)) := by
    rw [Outcome.mapM'_eq_ok, List.forall₂_map_left_iff, List.forall₂_map_right_iff]
    exact List.forall₂_same.mpr fun k _ => historySection_probeMsg a b k
  have hsame := Outcome.ok.inj (hself.symm.trans hmap)
  rw [hsections, history_of_assemble_probe hsub] at hsame
  obtain rfl := eq_pair_of_map_probeSection (Nat.ne_of_gt hba) hsame
  -- so they were ingested in this order
  have hlt : a < b := (List.pairwise_cons.mp (List.pairwise_lt_range.sublist hks)).1 b (by simp)
  exact absurd hlt (Nat.lt_asymm hba)

/-- **The history stays in order exactly where the sort keeps the order of the messages**; with at
most three markers, that is up to 24 sections, and from fifty on. -/
theorem chronological_iff (n m : ℕ) :
    (Chronological n m ↔ KeepsOrder n m) ∧
      (m ≤ 3 → (Chronological n m ↔ n + m + 1 ≤ 24 ∨ 50 ≤ n + m + 1)) := by
  have hiff : Chronological n m ↔ KeepsOrder n m :=
    ⟨keepsOrder_of_chronological, chronological_of_keepsOrder⟩
  exact ⟨hiff, fun hfew => hiff.trans (keepsOrder_iff_of_few hfew)⟩

/-! ## A session of 24 messages -/

theorem InOrder.contents {engine : DefaultEngine} {sessionId : Bytes} {r : FitResult}
    (h : InOrder engine sessionId r) :
    ((r.sections.filter fun s => s.kind = .historyTurn).map (·.content)).Sublist
      ((engine.history sessionId).map (·.content)) := by
  obtain ⟨kept, hkept, hmap⟩ := h
  have hcontents : kept.map (·.content) =
      (r.sections.filter fun s => s.kind = .historyTurn).map (·.content) := by
    rw [← List.forall₂_eq_eq_eq, List.forall₂_map_left_iff, List.forall₂_map_right_iff]
    exact (Outcome.mapM'_eq_ok.mp hmap).imp fun m s hs => (historySection_eq_ok hs).2.2.2.symm
  rw [← hcontents]
  exact hkept.map _

/-- Messages that say their number. -/
def talk (n : ℕ) : DefaultEngine :=
  (List.range n).foldl (fun engine k => (engine.ingest
    { sessionId := ascii "s", messageId := ascii "msg-" ++ [UInt8.ofNat (65 + k)]
      role := if k % 2 = 0 then .user else .assistant, content := [UInt8.ofNat k] }).2) {}

/-- **The 24 messages of a session come out of order**, although the budget has room for all of
them: the second one comes last. -/
theorem not_inOrder :
    ∃ r, (talk 24).assemble (ascii "s") (ascii "next") 100000 = .ok r ∧ r.dropped = [] ∧
      ((talk 24).history (ascii "s")).map (·.content) =
        (List.range 24).map (fun k => [UInt8.ofNat k]) ∧
      ((r.sections.filter fun s => s.kind = .historyTurn).map (·.content)).getLast? = some [1] ∧
      ¬ InOrder (talk 24) (ascii "s") r := by
  have heval : (((talk 24).assemble (ascii "s") (ascii "next") 100000).toOption.any fun r =>
      r.dropped = [] ∧
      ((r.sections.filter fun s => s.kind = .historyTurn).map (·.content)).getLast? = some [1] ∧
      ¬ ((r.sections.filter fun s => s.kind = .historyTurn).map (·.content)).Sublist
        (((talk 24).history (ascii "s")).map (·.content))) = true := by
    decide +kernel
  obtain ⟨r, hr, hout⟩ := (Option.any_eq_true _ _).mp heval
  obtain ⟨hdropped, hlast, hcontents⟩ := of_decide_eq_true hout
  exact ⟨r, Outcome.toOption_eq_some.mp hr, hdropped, by decide +kernel, hlast,
    fun h => hcontents h.contents⟩

end Context
end TigerClaw
