import Mathlib.Data.Nat.Basic

/-!
# Loops with a body and a fuel

A `while (true)` whose body either goes round again or leaves with a result.  The fuel only
makes the definition structural.

* `loop_sound`: partial correctness, by rounds from the end.
* `loop_total`: an invariant, and a measure that every round decreases, give a result whatever
  the fuel above the measure.
* `loop_map`: two bodies that go round alike give results that are alike.
-/

namespace Loop

universe u v

variable {σ : Type u} {ρ : Type v}

/-- How one round of the body ends. -/
inductive Round (σ : Type u) (ρ : Type v) where
  | again (s : σ)
  | leave (r : ρ)

/-- Run the body until it leaves; `none` when the fuel is gone. -/
def loop (body : σ → Round σ ρ) : ℕ → σ → Option ρ
  | 0, _ => none
  | fuel + 1, s =>
    match body s with
    | .again s' => loop body fuel s'
    | .leave r => some r

variable {body : σ → Round σ ρ}

theorem loop_again {s s' : σ} (h : body s = .again s') (fuel : ℕ) :
    loop body (fuel + 1) s = loop body fuel s' := by
  simp only [loop, h]

theorem loop_leave {s : σ} {r : ρ} (h : body s = .leave r) (fuel : ℕ) :
    loop body (fuel + 1) s = some r := by
  simp only [loop, h]

/-- **Partial correctness of a loop.**  A relation that holds of the last round, and that a round
carries back over the rest of the loop, holds of the whole loop. -/
theorem loop_sound {R : σ → ρ → Prop} (hleave : ∀ s r, body s = .leave r → R s r)
    (hagain : ∀ s s' r, body s = .again s' → R s' r → R s r)
    {fuel : ℕ} {s : σ} {r : ρ} (h : loop body fuel s = some r) : R s r := by
  induction fuel generalizing s with
  | zero => simp only [loop, reduceCtorEq] at h
  | succ fuel ih =>
    cases hr : body s with
    | again s' =>
      rw [loop_again hr] at h
      exact hagain s s' r hr (ih h)
    | leave r' =>
      rw [loop_leave hr] at h
      exact Option.some.inj h ▸ hleave s r' hr

/-- More fuel does not change the result. -/
theorem loop_mono {fuel fuel' : ℕ} {s : σ} {r : ρ} (h : loop body fuel s = some r)
    (hle : fuel ≤ fuel') : loop body fuel' s = some r := by
  induction fuel generalizing s fuel' with
  | zero => simp only [loop, reduceCtorEq] at h
  | succ fuel ih =>
    obtain ⟨fuel', rfl⟩ : ∃ n, fuel' = n + 1 := ⟨fuel' - 1, by omega⟩
    cases hr : body s with
    | again s' =>
      rw [loop_again hr] at h ⊢
      exact ih h (by omega)
    | leave r' =>
      rw [loop_leave hr] at h ⊢
      exact h

/-- **Total correctness of a loop.**  From a state with the invariant `I`, where every round
keeps `I` and decreases `μ` or leaves with a result of `Q`, the loop returns a result of `Q`. -/
theorem loop_total {I : σ → Prop} {Q : ρ → Prop} (μ : σ → ℕ)
    (hbody : ∀ s, I s → (∃ s', body s = .again s' ∧ I s' ∧ μ s' < μ s) ∨
      ∃ r, body s = .leave r ∧ Q r)
    {fuel : ℕ} {s : σ} (hs : I s) (hfuel : μ s < fuel) : ∃ r, loop body fuel s = some r ∧ Q r := by
  induction fuel generalizing s with
  | zero => omega
  | succ fuel ih =>
    rcases hbody s hs with ⟨s', hr, hs', hμ⟩ | ⟨r, hr, hq⟩
    · rw [loop_again hr]
      exact ih hs' (by omega)
    · exact ⟨r, loop_leave hr fuel, hq⟩

/-! ## Two loops -/

variable {σ' : Type*} {ρ' : Type*} {body' : σ' → Round σ' ρ'} {f : σ → σ'} {g : ρ → ρ'}

def Round.map (f : σ → σ') (g : ρ → ρ') : Round σ ρ → Round σ' ρ'
  | .again s => .again (f s)
  | .leave r => .leave (g r)

/-- **A loop that goes round as another one does, state for state, gives its result.** -/
theorem loop_map (h : ∀ s, body' (f s) = (body s).map f g) (fuel : ℕ) (s : σ) :
    loop body' fuel (f s) = (loop body fuel s).map g := by
  induction fuel generalizing s with
  | zero => rfl
  | succ fuel ih =>
    cases hr : body s with
    | again s' =>
      have hr' : body' (f s) = .again (f s') := by rw [h, hr, Round.map]
      rw [loop_again hr, loop_again hr', ih]
    | leave r =>
      have hr' : body' (f s) = .leave (g r) := by rw [h, hr, Round.map]
      rw [loop_leave hr, loop_leave hr', Option.map_some]

end Loop
