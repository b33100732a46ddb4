import Mathlib.Algebra.BigOperators.Group.Finset.Piecewise
import Mathlib.Algebra.Ring.Nat
import Mathlib.Data.Fintype.Card
import Mathlib.Data.List.Perm.Basic
import Mathlib.Logic.Function.Basic
import TigerClaw.Library.StepMachine

/-!
# Counting threads by where they stand

The threads of a component are a finite type, and `place t` is where thread `t` stands.
`population p place` is the number of threads whose place satisfies `p`.

* `population_update`: how the number changes when one thread moves.
* `population_pos`, `population_eq_zero`: what the number says about single threads.

The workers of a pool take the numbers of a shared counter.  Each performs the task of the number
that the counter shows, which moves on; a worker that gets a number behind the last task returns.

* `step`: a worker claims a number, or stores the result of its task.
* `Sound`: which tasks have been performed, and which are under way.
* `length_add_work`: every run has the same number of steps; `exists_step`: no run gets stuck.
* `perm_of_returned`, `out_of_returned`: when all workers have returned, every task has been
  performed once, and its result is in its slot.
-/

universe u v w

namespace Threads

variable {ι : Type u} {β : Type v} [Fintype ι] (p : β → Prop) [DecidablePred p]

/-- How many threads are at a place with `p`. -/
def population (place : ι → β) : ℕ := ∑ t, if p (place t) then 1 else 0

/-- **One thread moves.** -/
theorem population_update [DecidableEq ι] (place : ι → β) (t : ι) (b : β) :
    population p (Function.update place t b) + (if p (place t) then 1 else 0)
      = population p place + if p b then 1 else 0 := by
  have hrest : ∑ u ∈ Finset.univ.erase t, (if p (Function.update place t b u) then 1 else 0)
      = ∑ u ∈ Finset.univ.erase t, if p (place u) then 1 else 0 := by
    refine Finset.sum_congr rfl fun u hu => ?_
    rw [Function.update_of_ne (Finset.ne_of_mem_erase hu)]
  rw [population, population, ← Finset.add_sum_erase _ _ (Finset.mem_univ t), hrest,
    ← Finset.add_sum_erase _ (fun u => if p (place u) then 1 else 0) (Finset.mem_univ t),
    Function.update_self]
  omega

theorem population_pos [DecidableEq ι] {place : ι → β} {t : ι} (h : p (place t)) :
    0 < population p place := by
  rw [population, ← Finset.add_sum_erase _ _ (Finset.mem_univ t), if_pos h]
  omega

theorem population_eq_zero {place : ι → β} (h : ∀ t, ¬ p (place t)) : population p place = 0 :=
  Finset.sum_eq_zero fun t _ => if_neg (h t)

end Threads

/-! ## Workers on a shared counter -/

namespace WorkerPool

open Threads

inductive Place where
  | ready
  | running (i : ℕ)
  | returned
  deriving DecidableEq

def Place.IsRunning : Place → Prop
  | .running _ => True
  | _ => False

instance : DecidablePred Place.IsRunning
  | .ready => inferInstanceAs (Decidable False)
  | .running _ => inferInstanceAs (Decidable True)
  | .returned => inferInstanceAs (Decidable False)

/-- The workers `ι`, with the answers `α` of the tasks so far, and results in `ρ`. -/
structure Pool (ι : Type u) (α : Type v) (ρ : Type w) where
  next : ℕ
  place : ι → Place
  out : ℕ → Option ρ
  /-- The tasks that have been performed and their answers, in the order of the answers. -/
  answers : List (ℕ × α)

inductive Action (ι : Type u) (α : Type v) where
  | claim (t : ι)
  | store (t : ι) (a : α)

variable {ι : Type u} {α : Type v} {ρ : Type w}

def start : Pool ι α ρ where
  next := 0
  place _ := .ready
  out _ := none
  answers := []

variable {result : ℕ → α → ρ} {n : ℕ} {s s' : Pool ι α ρ}

/-! ## Every task once -/

variable [Fintype ι]

/-- How often a task has been performed or is under way. -/
def occurrences (s : Pool ι α ρ) (i : ℕ) : ℕ :=
  (s.answers.map Prod.fst).count i + population (· = .running i) s.place

structure Sound (result : ℕ → α → ρ) (n : ℕ) (s : Pool ι α ρ) : Prop where
  once (i : ℕ) : occurrences s i = if i < s.next ∧ i < n then 1 else 0
  out (i : ℕ) (r : ρ) : s.out i = some r ↔ ∃ a, (i, a) ∈ s.answers ∧ r = result i a
  returned (t : ι) : s.place t = .returned → n ≤ s.next

theorem sound_start (result : ℕ → α → ρ) (n : ℕ) : Sound result n (start : Pool ι α ρ) where
  once i := by
    rw [occurrences, population_eq_zero _ fun t => by simp [start]]
    simp [start]
  out i r := by simp [start]
  returned t h := by simp [start] at h

/-- **When all workers have returned, every task has been performed once.** -/
theorem Sound.perm_of_returned [Nonempty ι] (h : Sound result n s)
    (hreturned : ∀ t, s.place t = .returned) :
    (s.answers.map Prod.fst).Perm (List.range n) := by
  have hle := h.returned (Classical.arbitrary ι) (hreturned _)
  refine List.perm_iff_count.mpr fun i => ?_
  have honce := h.once i
  rw [occurrences, population_eq_zero _ fun t => by simp [hreturned t], Nat.add_zero] at honce
  rw [honce]
  by_cases hi : i < n
  · rw [if_pos ⟨by omega, hi⟩]
    exact (List.count_eq_one_of_mem List.nodup_range (List.mem_range.mpr hi)).symm
  · rw [if_neg fun h => hi h.2]
    exact (List.count_eq_zero_of_not_mem fun h => hi (List.mem_range.mp h)).symm

/-- The slot of every task holds the result of its answer. -/
theorem Sound.out_of_returned [Nonempty ι] (h : Sound result n s)
    (hreturned : ∀ t, s.place t = .returned) {i : ℕ} (hi : i < n) :
    ∃ a, (i, a) ∈ s.answers ∧ s.out i = some (result i a) := by
  have hmem : i ∈ s.answers.map Prod.fst :=
    (h.perm_of_returned hreturned).mem_iff.mpr (List.mem_range.mpr hi)
  obtain ⟨⟨_, a⟩, ha, rfl⟩ := List.mem_map.mp hmem
  exact ⟨a, ha, (h.out _ _).mpr ⟨a, ha, rfl⟩⟩

/-- The steps that are left. -/
def work (n : ℕ) (s : Pool ι α ρ) : ℕ :=
  2 * (n - s.next) + population (· ≠ .returned) s.place + population Place.IsRunning s.place

theorem work_start : work n (start : Pool ι α ρ) = 2 * n + Fintype.card ι := by
  have hall : population (· ≠ Place.returned) (start : Pool ι α ρ).place = Fintype.card ι := by
    rw [population, Finset.sum_congr rfl fun t _ => if_pos (by simp [start]),
      ← Finset.card_eq_sum_ones, Finset.card_univ]
  have hnone : population Place.IsRunning (start : Pool ι α ρ).place = 0 :=
    population_eq_zero _ fun t => by simp [start, Place.IsRunning]
  rw [work, hall, hnone]
  rfl

/-! ## Steps -/

variable [DecidableEq ι]

/-- The result that goes into the slot of a task, from the answer; the number of tasks. -/
def step (result : ℕ → α → ρ) (n : ℕ) (s : Pool ι α ρ) : Action ι α → Option (Pool ι α ρ)
  | .claim t =>
    if s.place t = .ready then
      some { s with
        next := s.next + 1
        place := Function.update s.place t (if s.next < n then .running s.next else .returned) }
    else none
  | .store t a =>
    match s.place t with
    | .running i =>
      some { s with
        place := Function.update s.place t .ready
        out := Function.update s.out i (some (result i a))
        answers := s.answers ++ [(i, a)] }
    | _ => none

omit [Fintype ι] in
/-- What a step can do. -/
theorem step_cases {action : Action ι α} (h : step result n s action = some s') :
    (∃ t, s.place t = .ready ∧ s.next < n ∧ s' = { s with
      next := s.next + 1, place := Function.update s.place t (.running s.next) }) ∨
    (∃ t, s.place t = .ready ∧ n ≤ s.next ∧ s' = { s with
      next := s.next + 1, place := Function.update s.place t .returned }) ∨
    ∃ t i a, s.place t = .running i ∧ s' = { s with
      place := Function.update s.place t .ready
      out := Function.update s.out i (some (result i a))
      answers := s.answers ++ [(i, a)] } := by
  cases action with
  | claim t =>
    rw [step] at h
    split at h
    · rename_i hready
      obtain rfl := Option.some.inj h
      by_cases hlt : s.next < n
      · exact Or.inl ⟨t, hready, hlt, by rw [if_pos hlt]⟩
      · exact Or.inr (Or.inl ⟨t, hready, by omega, by rw [if_neg hlt]⟩)
    · cases h
  | store t a =>
    rw [step] at h
    split at h
    · rename_i i hrunning
      exact Or.inr (Or.inr ⟨t, i, a, hrunning, (Option.some.inj h).symm⟩)
    · cases h

omit [Fintype ι] in
/-- The worker that has moved is somewhere else. -/
theorem eq_of_update_eq {place : ι → Place} {t t' : ι} {b c : Place}
    (h : Function.update place t b t' = c) (hne : b ≠ c) : place t' = c := by
  by_cases heq : t' = t
  · subst heq
    rw [Function.update_self] at h
    exact absurd h hne
  · rwa [Function.update_of_ne heq] at h

theorem sound_step (h : Sound result n s) {action : Action ι α}
    (hstep : step result n s action = some s') : Sound result n s' := by
  rcases step_cases hstep with ⟨t, hready, hlt, rfl⟩ | ⟨t, hready, hle, rfl⟩ |
    ⟨t, i, a, hrunning, rfl⟩
  · refine ⟨fun j => ?_, h.out, fun t' ht' => ?_⟩
    · -- the number that is claimed is under way now, for the first time
      have honce := h.once j
      have hmove := population_update (· = Place.running j) s.place t (.running s.next)
      simp only [occurrences] at honce ⊢
      rw [hready, if_neg (by simp)] at hmove
      simp only [Place.running.injEq] at hmove
      split_ifs at honce hmove ⊢ <;> omega
    · exact Nat.le_succ_of_le (h.returned t' (eq_of_update_eq ht' (by simp)))
  · refine ⟨fun j => ?_, h.out, fun t' _ => Nat.le_succ_of_le hle⟩
    have honce := h.once j
    have hmove := population_update (· = Place.running j) s.place t .returned
    simp only [occurrences] at honce ⊢
    rw [hready, if_neg (by simp), if_neg (by simp)] at hmove
    split_ifs at honce ⊢ <;> omega
  · have hmove := fun j => population_update (· = Place.running j) s.place t .ready
    have hunder := population_pos (· = Place.running i) hrunning
    simp only [hrunning, Place.running.injEq, reduceCtorEq, if_false] at hmove
    refine ⟨fun j => ?_, fun j r => ?_, fun t' ht' => ?_⟩
    · have honce := h.once j
      have hmovej := hmove j
      simp only [occurrences] at honce ⊢
      rw [List.map_append, List.count_append, List.map_singleton, List.count_singleton]
      simp only [beq_iff_eq]
      split_ifs at honce hmovej ⊢ <;> omega
    · -- the task has no answer before
      have hnew : ∀ a', (i, a') ∉ s.answers := by
        intro a' hmem
        have hpos : 0 < (s.answers.map Prod.fst).count i :=
          List.count_pos_iff.mpr (List.mem_map_of_mem hmem)
        have honce := h.once i
        rw [occurrences] at honce
        split_ifs at honce <;> omega
      simp only [List.mem_append, List.mem_singleton, Prod.mk.injEq]
      by_cases hj : j = i
      · subst hj
        rw [Function.update_self]
        constructor
        · intro hr
          exact ⟨a, Or.inr ⟨rfl, rfl⟩, (Option.some.inj hr).symm⟩
        · rintro ⟨a', hmem | ⟨-, rfl⟩, rfl⟩
          · exact absurd hmem (hnew a')
          · rfl
      · rw [Function.update_of_ne hj, h.out j r]
        simp [hj]
    · exact h.returned t' (eq_of_update_eq ht' (by simp))

theorem Sound.of_run {actions : List (Action ι α)}
    (h : StepMachine.run (step result n) start actions = some s) : Sound result n s :=
  StepMachine.invariant_run (fun _ _ _ hs hstep => sound_step hs hstep) (sound_start result n) h

/-! ## Every run ends -/

theorem work_step {action : Action ι α} (hstep : step result n s action = some s') :
    work n s' + 1 = work n s := by
  rcases step_cases hstep with ⟨t, hready, hlt, rfl⟩ | ⟨t, hready, hle, rfl⟩ |
    ⟨t, i, a, hrunning, rfl⟩
  · have hactive := population_update (· ≠ Place.returned) s.place t (.running s.next)
    have hrun := population_update Place.IsRunning s.place t (.running s.next)
    simp [hready, Place.IsRunning] at hactive hrun
    simp only [work, ne_eq]
    omega
  · have hactive := population_update (· ≠ Place.returned) s.place t .returned
    have hrun := population_update Place.IsRunning s.place t .returned
    simp [hready, Place.IsRunning] at hactive hrun
    simp only [work, ne_eq]
    omega
  · have hactive := population_update (· ≠ Place.returned) s.place t .ready
    have hrun := population_update Place.IsRunning s.place t .ready
    simp [hrunning, Place.IsRunning] at hactive hrun
    simp only [work, ne_eq]
    omega

/-- A run has as many steps as there is work done. -/
theorem length_add_work {actions : List (Action ι α)}
    (h : StepMachine.run (step result n) s actions = some s') :
    actions.length + work n s' = work n s := by
  induction actions generalizing s with
  | nil =>
    obtain rfl := Option.some.inj h
    simp
  | cons action actions ih =>
    obtain ⟨s₁, hstep, hrun⟩ := StepMachine.run_cons_eq_some h
    have hwork := work_step hstep
    have hrest := ih hrun
    rw [List.length_cons]
    omega

theorem Sound.work_eq_zero_iff [Nonempty ι] (h : Sound result n s) :
    work n s = 0 ↔ ∀ t, s.place t = .returned := by
  constructor
  · intro hwork t
    by_contra ht
    have := population_pos (· ≠ Place.returned) ht
    rw [work] at hwork
    omega
  · intro hreturned
    have hle := h.returned (Classical.arbitrary ι) (hreturned _)
    rw [work, population_eq_zero (· ≠ Place.returned) fun t => by simp [hreturned t],
      population_eq_zero Place.IsRunning fun t => by simp [hreturned t, Place.IsRunning]]
    omega

omit [Fintype ι] in
/-- A worker that has not returned can go on, if its task has an answer. -/
theorem exists_step [Nonempty α] {t : ι} (h : s.place t ≠ .returned) :
    ∃ action s', step result n s action = some s' := by
  cases hplace : s.place t with
  | ready => exact ⟨.claim t, _, if_pos hplace⟩
  | running i => exact ⟨.store t (Classical.arbitrary α), _, by rw [step, hplace]⟩
  | returned => exact absurd hplace h

end WorkerPool
