import Mathlib.Data.List.Nodup

/-!
# Episodes of starting and stopping

A log of items that are started and stopped.  An episode begins with `opened`; in it every item is
tried at most once, and the items that were started are stopped like a stack: the one that started
last is stopped first.  Some items are not `held`: there is nothing to stop about them, and the
stack passes over them.

* `Lawful`: the discipline, as a relation between a log and the stack it leaves.
* `Balanced`: what the discipline is for, in terms of positions in the log.
* `Lawful.balanced`: a lawful log is balanced.  The proof is one induction for every fact about
  the stack, and each of them looks at the last event only.
-/

universe u v

namespace Episodes

/-- What a log records. -/
inductive Event (ι : Type u) (ο : Type v) where
  | opened
  | started (i : ι)
  | failed (i : ι)
  | stopped (i : ι)
  | closed
  | other (o : ο)

variable {ι : Type u} {ο : Type v} (held : ι → Prop)

/-- The log leaves the items of `live` started, the last one first, and has tried those of `tried`
since the episode began. -/
inductive Lawful : List (Event ι ο) → List ι → List ι → Prop where
  | nil : Lawful [] [] []
  | opened {log : List (Event ι ο)} {tried : List ι} :
      Lawful log [] tried → Lawful (log ++ [.opened]) [] []
  | started {log : List (Event ι ο)} {live tried : List ι} {i : ι} :
      Lawful log live tried → i ∉ tried → Lawful (log ++ [.started i]) (i :: live) (i :: tried)
  | failed {log : List (Event ι ο)} {live tried : List ι} {i : ι} :
      Lawful log live tried → i ∉ tried → Lawful (log ++ [.failed i]) live (i :: tried)
  | stopped {log : List (Event ι ο)} {above live tried : List ι} {i : ι} :
      Lawful log (above ++ i :: live) tried → (∀ j ∈ above, ¬ held j) →
        Lawful (log ++ [.stopped i]) live tried
  | closed {log : List (Event ι ο)} {live tried : List ι} :
      Lawful log live tried → (∀ j ∈ live, ¬ held j) → Lawful (log ++ [.closed]) [] tried
  | other {log : List (Event ι ο)} {live tried : List ι} {o : ο} :
      Lawful log live tried → Lawful (log ++ [.other o]) live tried

/-- A stop of `i` after `before` belongs to one start of `i` in the same episode: there is no
other, `i` has not been stopped since, and whatever was started later has been stopped. -/
def Matched (before : List (Event ι ο)) (i : ι) : Prop :=
  ∃ earlier since, before = earlier ++ .started i :: since ∧ .opened ∉ since ∧
    .stopped i ∉ since ∧ .started i ∉ since ∧
    (∀ a b, earlier = a ++ .started i :: b → .opened ∈ b) ∧
    ∀ j, .started j ∈ since → held j → .stopped j ∈ since

/-- Every stop belongs to a start, no item that failed is stopped in that episode, and nothing
that has to be stopped is left started where an episode closes. -/
structure Balanced (log : List (Event ι ο)) : Prop where
  matched : ∀ before i after, log = before ++ .stopped i :: after → Matched held before i
  failed : ∀ before i after, log = before ++ .stopped i :: after →
    ∀ a b, before = a ++ .failed i :: b → .opened ∈ b
  closed : ∀ before after, log = before ++ .closed :: after →
    ∀ a i b, before = a ++ .started i :: b → .opened ∉ b → held i → .stopped i ∈ b

variable {held}

/-- Where an event stands in a log that ends with `e`: at the end, or before it. -/
theorem concat_eq_append_cons {α : Type*} {log a b : List α} {e x : α}
    (h : log ++ [e] = a ++ x :: b) :
    b = [] ∧ x = e ∧ a = log ∨ ∃ b', b = b' ++ [e] ∧ log = a ++ x :: b' := by
  rcases List.eq_nil_or_concat b with rfl | ⟨b', y, rfl⟩
  · obtain ⟨rfl, he⟩ := List.append_inj' h rfl
    exact .inl ⟨rfl, (List.singleton_inj.mp he).symm, rfl⟩
  · rw [List.concat_eq_append, ← List.cons_append, ← List.append_assoc] at h
    obtain ⟨rfl, he⟩ := List.append_inj' h rfl
    obtain rfl := List.singleton_inj.mp he
    exact .inr ⟨b', List.concat_eq_append, rfl⟩

theorem concat_of_ne {α : Type*} {log a b : List α} {e x : α} (h : log ++ [e] = a ++ x :: b)
    (hne : x ≠ e) : ∃ b', b = b' ++ [e] ∧ log = a ++ x :: b' :=
  (concat_eq_append_cons h).resolve_left fun h => hne h.2.1

namespace Lawful

variable {log : List (Event ι ο)} {live tried : List ι}

theorem nodup_subset (h : Lawful held log live tried) : live.Nodup ∧ live ⊆ tried := by
  induction h with
  | nil => exact ⟨List.nodup_nil, List.nil_subset _⟩
  | opened _ _ => exact ⟨List.nodup_nil, List.nil_subset _⟩
  | started _ hi ih =>
    exact ⟨List.nodup_cons.mpr ⟨fun h => hi (ih.2 h), ih.1⟩, List.cons_subset_cons _ ih.2⟩
  | failed _ _ ih => exact ⟨ih.1, fun j hj => List.mem_cons_of_mem _ (ih.2 hj)⟩
  | stopped _ _ ih =>
    have hnodup := (List.nodup_append.mp ih.1).2.1
    exact ⟨(List.nodup_cons.mp hnodup).2, fun j hj =>
      ih.2 (List.mem_append_right _ (List.mem_cons_of_mem _ hj))⟩
  | closed _ _ _ => exact ⟨List.nodup_nil, List.nil_subset _⟩
  | other _ ih => exact ih

/-- What was started in this episode has been tried, and was started once. -/
theorem mem_tried_of_started (h : Lawful held log live tried) {a b : List (Event ι ο)} {i : ι}
    (heq : log = a ++ .started i :: b) (hopen : .opened ∉ b) : i ∈ tried ∧ .started i ∉ b := by
  induction h generalizing b with
  | nil => simp at heq
  | opened _ _ =>
    obtain ⟨b', rfl, -⟩ := concat_of_ne heq (by simp)
    simp at hopen
  | started hl hk ih =>
    rcases concat_eq_append_cons heq with ⟨rfl, he, -⟩ | ⟨b', rfl, rfl⟩
    · obtain rfl := Event.started.inj he
      exact ⟨List.mem_cons_self, List.not_mem_nil⟩
    · obtain ⟨hmem, hnot⟩ := ih rfl (by simpa using hopen)
      refine ⟨List.mem_cons_of_mem _ hmem, fun h => ?_⟩
      rcases List.mem_append.mp h with h | h
      · exact hnot h
      · obtain rfl := Event.started.inj (List.mem_singleton.mp h)
        exact hk hmem
  | failed _ _ ih =>
    obtain ⟨b', rfl, rfl⟩ := concat_of_ne heq (by simp)
    obtain ⟨hmem, hnot⟩ := ih rfl (by simpa using hopen)
    exact ⟨List.mem_cons_of_mem _ hmem, by simpa using hnot⟩
  | stopped _ _ ih | closed _ _ ih | other _ ih =>
    obtain ⟨b', rfl, rfl⟩ := concat_of_ne heq (by simp)
    obtain ⟨hmem, hnot⟩ := ih rfl (by simpa using hopen)
    exact ⟨hmem, by simpa using hnot⟩

/-- What failed in this episode has been tried, and is not on the stack. -/
theorem notMem_live_of_failed (h : Lawful held log live tried) {a b : List (Event ι ο)} {i : ι}
    (heq : log = a ++ .failed i :: b) (hopen : .opened ∉ b) : i ∈ tried ∧ i ∉ live := by
  induction h generalizing b with
  | nil => simp at heq
  | opened _ _ =>
    obtain ⟨b', rfl, -⟩ := concat_of_ne heq (by simp)
    simp at hopen
  | started _ hk ih =>
    obtain ⟨b', rfl, rfl⟩ := concat_of_ne heq (by simp)
    obtain ⟨hmem, hnot⟩ := ih rfl (by simpa using hopen)
    refine ⟨List.mem_cons_of_mem _ hmem, fun h => ?_⟩
    rcases List.mem_cons.mp h with rfl | h
    · exact hk hmem
    · exact hnot h
  | failed hl hk ih =>
    rcases concat_eq_append_cons heq with ⟨-, he, -⟩ | ⟨b', rfl, rfl⟩
    · obtain rfl := Event.failed.inj he
      exact ⟨List.mem_cons_self, fun h => hk (hl.nodup_subset.2 h)⟩
    · obtain ⟨hmem, hnot⟩ := ih rfl (by simpa using hopen)
      exact ⟨List.mem_cons_of_mem _ hmem, hnot⟩
  | stopped _ _ ih =>
    obtain ⟨b', rfl, rfl⟩ := concat_of_ne heq (by simp)
    obtain ⟨hmem, hnot⟩ := ih rfl (by simpa using hopen)
    exact ⟨hmem, fun h => hnot (List.mem_append_right _ (List.mem_cons_of_mem _ h))⟩
  | closed _ _ ih =>
    obtain ⟨b', rfl, rfl⟩ := concat_of_ne heq (by simp)
    exact ⟨(ih rfl (by simpa using hopen)).1, List.not_mem_nil⟩
  | other _ ih =>
    obtain ⟨b', rfl, rfl⟩ := concat_of_ne heq (by simp)
    exact ih rfl (by simpa using hopen)

/-- What was started in this episode and has to be stopped is on the stack or has been stopped. -/
theorem mem_live_or_stopped (h : Lawful held log live tried) {a b : List (Event ι ο)} {i : ι}
    (heq : log = a ++ .started i :: b) (hopen : .opened ∉ b) (hheld : held i) :
    i ∈ live ∨ .stopped i ∈ b := by
  induction h generalizing b with
  | nil => simp at heq
  | opened _ _ =>
    obtain ⟨b', rfl, -⟩ := concat_of_ne heq (by simp)
    simp at hopen
  | started _ _ ih =>
    rcases concat_eq_append_cons heq with ⟨rfl, he, -⟩ | ⟨b', rfl, rfl⟩
    · obtain rfl := Event.started.inj he
      exact .inl List.mem_cons_self
    · exact (ih rfl (by simpa using hopen)).imp (List.mem_cons_of_mem _) (List.mem_append_left _)
  | failed _ _ ih | other _ ih =>
    obtain ⟨b', rfl, rfl⟩ := concat_of_ne heq (by simp)
    exact (ih rfl (by simpa using hopen)).imp_right (List.mem_append_left _)
  | stopped _ habove ih =>
    obtain ⟨b', rfl, rfl⟩ := concat_of_ne heq (by simp)
    rcases ih rfl (by simpa using hopen) with hlive | hstop
    · -- it is not above the one that is stopped, for those need no stop
      rcases List.mem_append.mp hlive with hlive | hlive
      · exact absurd hheld (habove i hlive)
      · rcases List.mem_cons.mp hlive with rfl | hlive
        · exact .inr (List.mem_append_right _ List.mem_cons_self)
        · exact .inl hlive
    · exact .inr (List.mem_append_left _ hstop)
  | closed _ hfree ih =>
    obtain ⟨b', rfl, rfl⟩ := concat_of_ne heq (by simp)
    rcases ih rfl (by simpa using hopen) with hlive | hstop
    · exact absurd hheld (hfree i hlive)
    · exact .inr (List.mem_append_left _ hstop)

/-- **Everything on the stack was started in this episode** and has not been stopped since, and
nothing below it on the stack was started later. -/
theorem exists_started (h : Lawful held log live tried) (above : List ι) {rest : List ι} {i : ι}
    (hlive : live = above ++ i :: rest) :
    ∃ earlier since, log = earlier ++ .started i :: since ∧ .opened ∉ since ∧
      .stopped i ∉ since ∧ ∀ j ∈ rest, .started j ∉ since := by
  induction h generalizing above with
  | nil | opened _ _ | closed _ _ _ => simp at hlive
  | @started log live tried k hl hk ih =>
    rcases List.cons_eq_append_iff.mp hlive with ⟨rfl, heq⟩ | ⟨above', rfl, rfl⟩
    · obtain ⟨rfl, rfl⟩ := List.cons_eq_cons.mp heq
      exact ⟨log, [], rfl, by simp, by simp, by simp⟩
    · obtain ⟨earlier, since, rfl, hopen, hstop, hbelow⟩ := ih above' rfl
      refine ⟨earlier, since ++ [.started k], by simp, by simpa using hopen, by simpa using hstop,
        fun j hj h => ?_⟩
      rcases List.mem_append.mp h with h | h
      · exact hbelow j hj h
      · obtain rfl := Event.started.inj (List.mem_singleton.mp h)
        exact hk (hl.nodup_subset.2 (List.mem_append_right _ (List.mem_cons_of_mem _ hj)))
  | @failed log live tried k _ _ ih =>
    obtain ⟨earlier, since, rfl, hopen, hstop, hbelow⟩ := ih above hlive
    exact ⟨earlier, since ++ [.failed k], by simp, by simpa using hopen, by simpa using hstop,
      fun j hj => by simpa using hbelow j hj⟩
  | @stopped log above₀ live tried k hl _ ih =>
    subst hlive
    obtain ⟨earlier, since, rfl, hopen, hstop, hbelow⟩ :=
      ih (above₀ ++ k :: above) (by simp)
    have hne : i ≠ k := by
      rintro rfl
      have hnodup := (List.nodup_append.mp hl.nodup_subset.1).2.1
      exact (List.nodup_cons.mp hnodup).1 (List.mem_append_right _ List.mem_cons_self)
    exact ⟨earlier, since ++ [.stopped k], by simp, by simpa using hopen,
      by simpa using ⟨hstop, hne⟩, fun j hj => by simpa using hbelow j hj⟩
  | @other log live tried o _ ih =>
    obtain ⟨earlier, since, rfl, hopen, hstop, hbelow⟩ := ih above hlive
    exact ⟨earlier, since ++ [.other o], by simp, by simpa using hopen, by simpa using hstop,
      fun j hj => by simpa using hbelow j hj⟩

/-- A stop that the discipline allows belongs to a start. -/
theorem matched {above : List ι} {i : ι} (h : Lawful held log (above ++ i :: live) tried)
    (habove : ∀ j ∈ above, ¬ held j) : Matched held log i := by
  obtain ⟨earlier, since, rfl, hopen, hstop, hbelow⟩ := h.exists_started above rfl
  obtain ⟨-, honce⟩ := h.mem_tried_of_started rfl hopen
  refine ⟨earlier, since, rfl, hopen, hstop, honce, ?_, ?_⟩
  · rintro a b rfl
    by_contra hnone
    have hb : Event.opened ∉ b ++ Event.started i :: since := by simp [hnone, hopen]
    have heq : a ++ Event.started i :: b ++ Event.started i :: since =
        a ++ Event.started i :: (b ++ Event.started i :: since) := by simp
    exact (h.mem_tried_of_started heq hb).2 (by simp)
  · intro j hj hheld
    obtain ⟨s₁, s₂, rfl⟩ := List.append_of_mem hj
    have hopen₂ : Event.opened ∉ s₂ := fun hmem => hopen (by simp [hmem])
    rcases h.mem_live_or_stopped (a := earlier ++ .started i :: s₁) (by simp) hopen₂ hheld with
      hlive | hstopped
    · rcases List.mem_append.mp hlive with hmem | hmem
      · exact absurd hheld (habove j hmem)
      · rcases List.mem_cons.mp hmem with rfl | hmem
        · exact absurd hj honce
        · exact absurd hj (hbelow j hmem)
    · simp [hstopped]

/-- A balanced log stays balanced behind an event that neither stops nor closes. -/
theorem balanced_concat (hb : Balanced held log) {e : Event ι ο}
    (hstop : ∀ i, e = .stopped i → Matched held log i ∧
      ∀ a b, log = a ++ .failed i :: b → .opened ∈ b)
    (hclose : e = .closed → ∀ a i b, log = a ++ .started i :: b → .opened ∉ b → held i →
      .stopped i ∈ b) : Balanced held (log ++ [e]) where
  matched := by
    intro before i after heq
    rcases concat_eq_append_cons heq with ⟨-, rfl, rfl⟩ | ⟨after', -, heq'⟩
    · exact (hstop i rfl).1
    · exact hb.matched before i after' heq'
  failed := by
    intro before i after heq
    rcases concat_eq_append_cons heq with ⟨-, rfl, rfl⟩ | ⟨after', -, heq'⟩
    · exact (hstop i rfl).2
    · exact hb.failed before i after' heq'
  closed := by
    intro before after heq
    rcases concat_eq_append_cons heq with ⟨-, rfl, rfl⟩ | ⟨after', -, heq'⟩
    · exact hclose rfl
    · exact hb.closed before after' heq'

/-- **A lawful log is balanced.** -/
theorem balanced (h : Lawful held log live tried) : Balanced held log := by
  induction h with
  | nil => constructor <;> simp
  | opened _ ih | started _ _ ih | failed _ _ ih | other _ ih =>
    exact balanced_concat ih (by simp) (by simp)
  | stopped hl habove ih =>
    refine balanced_concat ih (fun i he => ?_) (by simp)
    obtain rfl := Event.stopped.inj he
    refine ⟨hl.matched habove, fun a b heq => ?_⟩
    by_contra hopen
    exact (hl.notMem_live_of_failed heq hopen).2 (List.mem_append_right _ List.mem_cons_self)
  | closed hl hfree ih =>
    refine balanced_concat ih (by simp) fun _ a i b heq hopen hheld => ?_
    exact (hl.mem_live_or_stopped heq hopen hheld).resolve_left fun h => hfree i h hheld

end Lawful

end Episodes
