import Mathlib.Logic.Function.Basic

/-!
# At most one busy thread

The threads of a component stand at places, some of which are busy.  `Sole busy place t` says that
at most one thread is busy, and that `t` is its place, if there is one.

* `Sole.of_busy`: a busy thread is the one.
* `Sole.idle`, `Sole.alone`, `Sole.move`, `Sole.finish`: what the steps of a thread do to it, while
  no thread becomes busy beside another one.
-/

namespace Exclusion

universe u v

variable {κ : Type u} {τ : Type v}

/-- No thread is busy, or one is, and it stands at `t`. -/
def Sole (busy : τ → Prop) (place : κ → τ) : Option τ → Prop
  | none => ∀ c, ¬ busy (place c)
  | some t => ∃ c, place c = t ∧ busy t ∧ ∀ d, d ≠ c → ¬ busy (place d)

variable {busy : τ → Prop} {place : κ → τ} {t : Option τ} {c : κ} {u : τ}

/-- A busy thread is the one, and all others are not. -/
theorem Sole.of_busy (h : Sole busy place t) (hc : busy (place c)) :
    t = some (place c) ∧ ∀ d, d ≠ c → ¬ busy (place d) := by
  cases t with
  | none => exact absurd hc (h c)
  | some t =>
    obtain ⟨c', rfl, -, hothers⟩ := h
    by_cases hcc : c = c'
    · rw [hcc]
      exact ⟨rfl, hothers⟩
    · exact absurd hc (hothers c hcc)

/-- Where nobody is busy, there is no one. -/
theorem Sole.of_none (h : Sole busy place t) (hnone : ∀ c, ¬ busy (place c)) : t = none := by
  cases t with
  | none => rfl
  | some t =>
    obtain ⟨c', rfl, hbusy, -⟩ := h
    exact absurd hbusy (hnone c')

variable [DecidableEq κ]

/-- A thread that is not busy goes on, and still is not. -/
theorem Sole.idle (h : Sole busy place t) (hc : ¬ busy (place c)) (hu : ¬ busy u) :
    Sole busy (Function.update place c u) t := by
  cases t with
  | none =>
    intro d
    by_cases hd : d = c
    · rwa [hd, Function.update_self]
    · rw [Function.update_of_ne hd]
      exact h d
  | some t =>
    obtain ⟨c', rfl, hbusy, hothers⟩ := h
    have hcc : c' ≠ c := by
      rintro rfl
      exact hc hbusy
    refine ⟨c', Function.update_of_ne hcc u place, hbusy, fun d hd => ?_⟩
    by_cases hdc : d = c
    · rwa [hdc, Function.update_self]
    · rw [Function.update_of_ne hdc]
      exact hothers d hd

/-- While nobody else is busy, a thread becomes busy or goes on. -/
theorem Sole.alone (hothers : ∀ d, d ≠ c → ¬ busy (place d)) (hu : busy u) :
    Sole busy (Function.update place c u) (some u) := by
  refine ⟨c, Function.update_self c u place, hu, fun d hd => ?_⟩
  rw [Function.update_of_ne hd]
  exact hothers d hd

/-- The busy thread goes on. -/
theorem Sole.move (h : Sole busy place t) (hc : busy (place c)) (hu : busy u) :
    Sole busy (Function.update place c u) (some u) :=
  Sole.alone (h.of_busy hc).2 hu

/-- The busy thread is done. -/
theorem Sole.finish (h : Sole busy place t) (hc : busy (place c)) (hu : ¬ busy u) :
    Sole busy (Function.update place c u) none := by
  intro d
  by_cases hd : d = c
  · rwa [hd, Function.update_self]
  · rw [Function.update_of_ne hd]
    exact (h.of_busy hc).2 d hd

end Exclusion
