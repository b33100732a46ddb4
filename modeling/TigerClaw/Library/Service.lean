import TigerClaw.Library.Checked

/-!
# Services and the requests they answer

A service is a state with a step that takes one request to an answer and the state after it.
`serve` feeds it a list of requests and collects the answers; a step that fails or trips a check
ends it.  `answers` is the same for a specification, whose step is total.

* `tally`: a quantity that every request moves, by what the request and its answer say.
* `serve_refines`: if related states give the same answer to every request and stay related,
  then the service answers every list of requests as the specification does, without failing
  and without tripping a check; and what every step books by request and answer is, in the end,
  the tally.
-/

namespace Service

universe u v w x y z

variable {σ : Type u} {τ : Type v} {α : Type w} {ρ : Type x} {ε : Type y} {β : Type z}

/-- The answers of a service to a list of requests, and the state it is left in. -/
def serve (step : σ → α → Outcome ε (ρ × σ)) (s : σ) : List α → Outcome ε (List ρ × σ)
  | [] => .ok ([], s)
  | a :: as =>
    step s a >>= fun out => serve step out.2 as >>= fun rest => .ok (out.1 :: rest.1, rest.2)

/-- The same for a step that always answers. -/
def answers (step : τ → α → ρ × τ) (t : τ) : List α → List ρ × τ
  | [] => ([], t)
  | a :: as =>
    let rest := answers step (step t a).2 as
    ((step t a).1 :: rest.1, rest.2)

/-- Book every request with its answer. -/
def tally (book : β → α → ρ → β) (b : β) : List α → List ρ → β
  | a :: as, r :: rs => tally book (book b a r) as rs
  | _, _ => b

@[simp] theorem answers_nil (step : τ → α → ρ × τ) (t : τ) : answers step t [] = ([], t) := rfl

theorem answers_cons (step : τ → α → ρ × τ) (t : τ) (a : α) (as : List α) :
    answers step t (a :: as)
      = ((step t a).1 :: (answers step (step t a).2 as).1, (answers step (step t a).2 as).2) :=
  rfl

/-- Every request has one answer. -/
@[simp] theorem length_answers (step : τ → α → ρ × τ) (t : τ) (as : List α) :
    (answers step t as).1.length = as.length := by
  induction as generalizing t with
  | nil => rfl
  | cons a as ih => rw [answers_cons, List.length_cons, List.length_cons, ih]

@[simp] theorem tally_nil (book : β → α → ρ → β) (b : β) (rs : List ρ) :
    tally book b [] rs = b := by
  cases rs <;> rfl

theorem tally_cons (book : β → α → ρ → β) (b : β) (a : α) (as : List α) (r : ρ) (rs : List ρ) :
    tally book b (a :: as) (r :: rs) = tally book (book b a r) as rs := rfl

/-- **A simulation with equal answers carries over to every list of requests.** -/
theorem serve_refines {step : σ → α → Outcome ε (ρ × σ)} {spec : τ → α → ρ × τ}
    {R : σ → τ → Prop} {f : σ → β} {book : β → α → ρ → β}
    (hstep : ∀ s t a, R s t → ∃ s', step s a = .ok ((spec t a).1, s') ∧ R s' (spec t a).2 ∧
      f s' = book (f s) a (spec t a).1)
    {s : σ} {t : τ} (h : R s t) (as : List α) :
    ∃ s', serve step s as = .ok ((answers spec t as).1, s') ∧ R s' (answers spec t as).2 ∧
      f s' = tally book (f s) as (answers spec t as).1 := by
  induction as generalizing s t with
  | nil => exact ⟨s, rfl, h, rfl⟩
  | cons a as ih =>
    obtain ⟨s', ha, h', hf⟩ := hstep s t a h
    obtain ⟨s'', has, h'', hf'⟩ := ih h'
    refine ⟨s'', ?_, h'', ?_⟩
    · rw [serve, ha, Outcome.ok_bind, has, Outcome.ok_bind, answers_cons]
    · rw [hf', hf, answers_cons, tally_cons]

end Service
