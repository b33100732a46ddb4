import Mathlib.Data.List.Basic
import Mathlib.Order.Basic

/-!
# Runs of a partial step function

A component that answers one call after another is a step function
`step : σ → α → Option σ`: the state, the label of the call, and the state after it,
with `none` where the call is not permitted or does not return.  `run` takes the labels of
a whole list in order.

* `run_append`: a run splits wherever its list of labels does.
* `invariant_run`: what every step preserves, every run preserves.
* `invariant_along`: the same for the steps that satisfy a condition.
* `Along`: every step of the run is taken from a state, and with a label, that `P` admits.
  `run_eq_iff_along`: a quantity that never falls, and that stays put exactly on the steps of
  `P`, is the same before and after a run exactly if the run keeps to `P`.
* `related_run`: two runs that take related labels and keep a relation between their states;
  `refines_run` where the second machine takes the same labels and is total.
* `always_iff_along`: the same for a property that holds in every state of the run, and
  `always_iff_along_total` where every step is possible.
-/

namespace StepMachine

universe u v

variable {σ : Type u} {α : Type v} (step : σ → α → Option σ)

/-- Take the labels in order; stop where a step is not possible. -/
def run (s : σ) : List α → Option σ
  | [] => some s
  | a :: as => (step s a).bind fun s' => run s' as

@[simp] theorem run_nil (s : σ) : run step s [] = some s := rfl

theorem run_cons (s : σ) (a : α) (as : List α) :
    run step s (a :: as) = (step s a).bind fun s' => run step s' as := rfl

@[simp] theorem run_singleton (s : σ) (a : α) : run step s [a] = step s a := by
  cases h : step s a <;> simp [run_cons, h]

theorem run_append (s : σ) (as bs : List α) :
    run step s (as ++ bs) = (run step s as).bind fun s' => run step s' bs := by
  induction as generalizing s with
  | nil => rfl
  | cons a as ih =>
    rw [List.cons_append, run_cons, run_cons]
    cases step s a with
    | none => rfl
    | some s' => exact ih s'

/-- Steps that are always possible are taken one after the other. -/
theorem run_total (f : σ → α → σ) (s : σ) (as : List α) :
    run (fun s a => some (f s a)) s as = some (as.foldl f s) := by
  induction as generalizing s with
  | nil => rfl
  | cons a as ih => exact ih (f s a)

variable {step}

/-- A run of `a :: as` is a step and then a run of `as`. -/
theorem run_cons_eq_some {s t : σ} {a : α} {as : List α} (h : run step s (a :: as) = some t) :
    ∃ s', step s a = some s' ∧ run step s' as = some t := by
  rw [run_cons] at h
  exact Option.bind_eq_some_iff.mp h

/-- A run of `as ++ bs` passes through a state between the two. -/
theorem run_append_eq_some {s t : σ} {as bs : List α} (h : run step s (as ++ bs) = some t) :
    ∃ s', run step s as = some s' ∧ run step s' bs = some t := by
  rw [run_append] at h
  exact Option.bind_eq_some_iff.mp h

/-- **What every step preserves, every run preserves.** -/
theorem invariant_run {I : σ → Prop} (hstep : ∀ s a s', I s → step s a = some s' → I s')
    {s t : σ} {as : List α} (hs : I s) (h : run step s as = some t) : I t := by
  induction as generalizing s with
  | nil => exact Option.some.inj h ▸ hs
  | cons a as ih =>
    obtain ⟨s', h₁, h₂⟩ := run_cons_eq_some h
    exact ih (hstep s a s' hs h₁) h₂

/-! ## Runs that keep to a condition -/

variable (step) in
/-- Every step of the run, as far as it gets, is one that `P` admits. -/
def Along (P : σ → α → Prop) (s : σ) : List α → Prop
  | [] => True
  | a :: as => P s a ∧ ∀ s', step s a = some s' → Along P s' as

theorem along_cons {P : σ → α → Prop} {s s' : σ} {a : α} {as : List α} (h : step s a = some s') :
    Along step P s (a :: as) ↔ P s a ∧ Along step P s' as := by
  simp only [Along, h, Option.some.injEq, forall_eq']

/-- A run can be followed to see whether it keeps to a condition. -/
instance decidableAlong {P : σ → α → Prop} [∀ s a, Decidable (P s a)] :
    ∀ s as, Decidable (Along step P s as)
  | _, [] => isTrue trivial
  | s, a :: as =>
    match h : step s a with
    | none => decidable_of_iff (P s a) ⟨fun hP => ⟨hP, fun _ hs' => by simp [h] at hs'⟩, And.left⟩
    | some s' =>
      have := decidableAlong (P := P) s' as
      decidable_of_iff (P s a ∧ Along step P s' as) (along_cons h).symm

/-- A run keeps to what each of its labels satisfies. -/
theorem along_of_forall {P : σ → α → Prop} {s : σ} {as : List α} (h : ∀ a ∈ as, ∀ s, P s a) :
    Along step P s as := by
  induction as generalizing s with
  | nil => trivial
  | cons a as ih =>
    exact ⟨h a List.mem_cons_self s, fun _ _ => ih fun b hb => h b (List.mem_cons_of_mem a hb)⟩

/-- A run that keeps to `P` does so wherever it has got to. -/
theorem along_at {P : σ → α → Prop} {s s' : σ} {as before : List α} {a : α}
    (h : Along step P s as) (hbefore : before ++ [a] <+: as)
    (hrun : run step s before = some s') : P s' a := by
  induction before generalizing s as with
  | nil =>
    obtain ⟨rest, rfl⟩ := hbefore
    exact Option.some.inj hrun ▸ h.1
  | cons b before ih =>
    obtain ⟨rest, rfl⟩ := hbefore
    obtain ⟨s₁, h₁, hrest⟩ := run_cons_eq_some hrun
    exact ih ((along_cons h₁).mp h).2 (List.prefix_append _ _) hrest

/-- **What every step of `P` preserves holds all along a run that keeps to `P`.** -/
theorem invariant_along {I : σ → Prop} {P : σ → α → Prop}
    (hstep : ∀ s a s', I s → P s a → step s a = some s' → I s')
    {s : σ} {as : List α} (hs : I s) (h : Along step P s as) :
    ∀ before s', before <+: as → run step s before = some s' → I s' := by
  induction as generalizing s with
  | nil =>
    intro before s' hbefore hrun
    obtain rfl := List.prefix_nil.mp hbefore
    exact Option.some.inj hrun ▸ hs
  | cons a as ih =>
    intro before s' hbefore hrun
    cases before with
    | nil => exact Option.some.inj hrun ▸ hs
    | cons b before =>
      obtain ⟨rfl, hprefix⟩ := List.cons_prefix_cons.mp hbefore
      obtain ⟨s₁, h₁, hrest⟩ := run_cons_eq_some hrun
      obtain ⟨hP, halong⟩ := (along_cons h₁).mp h
      exact ih (hstep s b s₁ hs hP h₁) halong before s' hprefix hrest

/-- A run that keeps to `P` keeps to what `P` implies. -/
theorem along_imp {I : σ → Prop} {P Q : σ → α → Prop}
    (hstep : ∀ s a s', I s → P s a → step s a = some s' → I s')
    (himp : ∀ s a, I s → P s a → Q s a) {s : σ} {as : List α} (hs : I s)
    (h : Along step P s as) : Along step Q s as := by
  induction as generalizing s with
  | nil => trivial
  | cons a as ih =>
    exact ⟨himp s a hs h.1, fun s' hs' => ih (hstep s a s' hs h.1 hs') (h.2 s' hs')⟩

/-- **A property that a step keeps, or brings to an end for good**, holds after a run exactly if it
did before and the run keeps to the steps that keep it. -/
theorem decided_run {I Q : σ → Prop} {P : σ → α → Prop}
    (hI : ∀ s a s', I s → step s a = some s' → I s')
    (hQ : ∀ s a s', I s → step s a = some s' → (Q s' ↔ Q s ∧ P s a))
    {s t : σ} {as : List α} (hs : I s) (h : run step s as = some t) :
    Q t ↔ Q s ∧ Along step P s as := by
  induction as generalizing s with
  | nil =>
    obtain rfl := Option.some.inj h
    exact ⟨fun hq => ⟨hq, trivial⟩, And.left⟩
  | cons a as ih =>
    obtain ⟨s', hstep, hrest⟩ := run_cons_eq_some h
    rw [along_cons hstep, ih (hI s a s' hs hstep) hrest, hQ s a s' hs hstep, and_assoc]

/-- **Two machines that take related labels side by side keep a relation between their states**, if
the first keeps to `P`. -/
theorem related_run {τ β : Type*} {step' : τ → β → Option τ} {R : σ → τ → Prop} {V : α → β → Prop}
    {P : σ → α → Prop}
    (hstep : ∀ s t a b s' t', R s t → V a b → P s a → step s a = some s' → step' t b = some t' →
      R s' t')
    {s s' : σ} {t t' : τ} {as : List α} {bs : List β} (hR : R s t) (hV : List.Forall₂ V as bs)
    (hP : Along step P s as) (hs : run step s as = some s') (ht : run step' t bs = some t') :
    R s' t' := by
  induction hV generalizing s t with
  | nil => exact Option.some.inj hs ▸ Option.some.inj ht ▸ hR
  | cons hab _ ih =>
    obtain ⟨s₁, hs₁, hs⟩ := run_cons_eq_some hs
    obtain ⟨t₁, ht₁, ht⟩ := run_cons_eq_some ht
    obtain ⟨hP₁, hP⟩ := (along_cons hs₁).mp hP
    exact ih (hstep _ _ _ _ _ _ hR hab hP₁ hs₁ ht₁) hP hs ht

/-- **A machine that refines a total one, step by step, refines it over every run.** -/
theorem refines_run {τ : Type*} {f : τ → α → τ} {R : σ → τ → Prop}
    (hstep : ∀ s t a s', R s t → step s a = some s' → R s' (f t a))
    {s s' : σ} {t : τ} {as : List α} (hR : R s t) (h : run step s as = some s') :
    R s' (as.foldl f t) := by
  induction as generalizing s t with
  | nil => exact Option.some.inj h ▸ hR
  | cons a as ih =>
    obtain ⟨s₁, hs₁, hs⟩ := run_cons_eq_some h
    exact ih (hstep s t a s₁ hR hs₁) hs

/-- A quantity never falls over a run, if it never falls in a step. -/
theorem le_run {β : Type*} [Preorder β] {I : σ → Prop} {f : σ → β}
    (hI : ∀ s a s', I s → step s a = some s' → I s')
    (hle : ∀ s a s', I s → step s a = some s' → f s ≤ f s')
    {s t : σ} {as : List α} (hs : I s) (h : run step s as = some t) : f s ≤ f t :=
  (invariant_run (I := fun u => I u ∧ f s ≤ f u)
    (fun u a u' hu hstep => ⟨hI u a u' hu.1 hstep, hu.2.trans (hle u a u' hu.1 hstep)⟩)
    ⟨hs, le_refl _⟩ h).2

/-- **A quantity that never falls, and that stays put exactly on the steps of `P`, is the same
before and after a run exactly if the run keeps to `P`.** -/
theorem run_eq_iff_along {β : Type*} [PartialOrder β] {I : σ → Prop} {P : σ → α → Prop} {f : σ → β}
    (hI : ∀ s a s', I s → step s a = some s' → I s')
    (hle : ∀ s a s', I s → step s a = some s' → f s ≤ f s')
    (heq : ∀ s a s', I s → step s a = some s' → (f s' = f s ↔ P s a))
    {s t : σ} {as : List α} (hs : I s) (h : run step s as = some t) :
    f t = f s ↔ Along step P s as := by
  induction as generalizing s with
  | nil => simp [Along, Option.some.inj h]
  | cons a as ih =>
    obtain ⟨s', hstep, hrest⟩ := run_cons_eq_some h
    have hs' := hI s a s' hs hstep
    rw [along_cons hstep, ← ih hs' hrest, ← heq s a s' hs hstep]
    constructor
    · intro hts
      -- between two equal values there is room for one value only
      have hmid : f s' = f s :=
        le_antisymm (hts ▸ le_run hI hle hs' hrest) (hle s a s' hs hstep)
      exact ⟨hmid, hts.trans hmid.symm⟩
    · exact fun hboth => hboth.2.trans hboth.1

/-- **A property that stays true exactly in the steps of `P` holds all along a run exactly if the
run keeps to `P`.** -/
theorem always_iff_along {I Q : σ → Prop} {P : σ → α → Prop}
    (hI : ∀ s a s', I s → step s a = some s' → I s')
    (hQ : ∀ s a s', I s → Q s → step s a = some s' → (Q s' ↔ P s a))
    {s t : σ} {as : List α} (hs : I s) (hq : Q s) (h : run step s as = some t) :
    (∀ before s', before <+: as → run step s before = some s' → Q s') ↔ Along step P s as := by
  induction as generalizing s with
  | nil =>
    refine iff_of_true (fun before s' hbefore hrun => ?_) trivial
    obtain rfl := List.prefix_nil.mp hbefore
    exact Option.some.inj hrun ▸ hq
  | cons a as ih =>
    obtain ⟨s₁, hstep, hrest⟩ := run_cons_eq_some h
    rw [along_cons hstep, ← hQ s a s₁ hs hq hstep]
    have hrun : ∀ before, run step s (a :: before) = run step s₁ before := fun before => by
      rw [run_cons, hstep, Option.bind_some]
    constructor
    · intro hall
      have hq₁ : Q s₁ := hall [a] s₁ (by simp) (by rw [run_singleton, hstep])
      refine ⟨hq₁, (ih (hI s a s₁ hs hstep) hq₁ hrest).mp fun before s' hbefore hs' => ?_⟩
      exact hall (a :: before) s' (List.cons_prefix_cons.mpr ⟨rfl, hbefore⟩) (by rw [hrun, hs'])
    · rintro ⟨hq₁, halong⟩ before s' hbefore hs'
      cases before with
      | nil => exact Option.some.inj hs' ▸ hq
      | cons b before =>
        obtain ⟨rfl, hrest'⟩ := List.cons_prefix_cons.mp hbefore
        rw [hrun] at hs'
        exact (ih (hI s b s₁ hs hstep) hq₁ hrest).mpr halong before s' hrest' hs'

/-- The same for steps that are always possible. -/
theorem always_iff_along_total {f : σ → α → σ} {I Q : σ → Prop} {P : σ → α → Prop}
    (hI : ∀ s a, I s → I (f s a)) (hQ : ∀ s a, I s → Q s → (Q (f s a) ↔ P s a))
    {s : σ} (hs : I s) (hq : Q s) (as : List α) :
    (∀ before, before <+: as → Q (before.foldl f s)) ↔ Along (fun s a => some (f s a)) P s as := by
  have halways := always_iff_along (P := P)
    (fun s a s' h hstep => Option.some.inj hstep ▸ hI s a h)
    (fun s a s' h hq hstep => Option.some.inj hstep ▸ hQ s a h hq) hs hq (run_total f s as)
  rw [← halways]
  constructor
  · intro h before s' hbefore hrun
    rw [run_total] at hrun
    exact Option.some.inj hrun ▸ h before hbefore
  · exact fun h before hbefore => h before _ hbefore (run_total f s before)

end StepMachine
