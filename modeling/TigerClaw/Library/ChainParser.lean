import Mathlib.Data.List.Basic
import Mathlib.Data.List.DropRight

/-!
# Parsers of chains

A parser reads a value from the front of a text.  Blanks may stand in front of everything that it
reads.

* `skip`: what is left behind the blanks.
* `Reads`: a parser reads a language, on texts up to some length.  It is sound, it is complete where
  what follows does not run on, and it does not fail for want of fuel.
* `chain`: operands between operators, taken from the left.  `Chain`: its language.
* `Reads.chain`: if the operand's parser reads the operand's language, so does the chain's.
-/

namespace ChainParser

variable {α V E : Type*}

/-- A value and what is left of the text. -/
abbrev Parser (α V E : Type*) : Type _ := List α → Except E (V × List α)

/-- The text behind the blanks. -/
def skip (blank : α → Bool) (s : List α) : List α := s.dropWhile blank

section Skip

variable {blank : α → Bool}

def Blanks (blank : α → Bool) (bl : List α) : Prop := ∀ b ∈ bl, blank b = true

theorem blanks_append {bl bl' : List α} (h : Blanks blank bl) (h' : Blanks blank bl') :
    Blanks blank (bl ++ bl') := fun b hb => (List.mem_append.mp hb).elim (h b) (h' b)

theorem blanks_nil : Blanks blank [] := fun _ hb => absurd hb List.not_mem_nil

theorem skip_append {bl : List α} (h : Blanks blank bl) (s : List α) :
    skip blank (bl ++ s) = skip blank s := List.dropWhile_append_of_pos h

theorem skip_cons {c : α} (hc : blank c = false) (s : List α) : skip blank (c :: s) = c :: s :=
  List.dropWhile_cons_of_neg (by rw [hc]; exact Bool.false_ne_true)

theorem skip_append_cons {bl : List α} (h : Blanks blank bl) {c : α} (hc : blank c = false)
    (s : List α) : skip blank (bl ++ c :: s) = c :: s := by
  rw [skip_append h, skip_cons hc]

/-- The blanks that are passed over. -/
theorem exists_blanks (s : List α) : ∃ bl, s = bl ++ skip blank s ∧ Blanks blank bl := by
  refine ⟨s.takeWhile blank, List.takeWhile_append_dropWhile.symm, fun b hb => ?_⟩
  exact List.mem_takeWhile_imp hb

theorem skip_skip (s : List α) : skip blank (skip blank s) = skip blank s := by
  obtain ⟨bl, hs, hbl⟩ := @exists_blanks _ blank s
  have happend := skip_append hbl (skip blank s)
  rw [← hs] at happend
  exact happend.symm

theorem skip_suffix (s : List α) : skip blank s <:+ s := List.dropWhile_suffix _

end Skip

variable (blank : α → Bool)

/-- **A parser reads a language** on the texts of at most `n` letters.  `ends`: what may follow. -/
structure Reads (p : Parser α V E) (L : List α → V → Prop) (ends : List α → Prop) (fuel : E)
    (n : ℕ) : Prop where
  sound : ∀ s v rest, s.length ≤ n → p s = .ok (v, rest) →
    ∃ c bl, s = c ++ (bl ++ rest) ∧ Blanks blank bl ∧ L c v
  complete : ∀ c v rest, (c ++ rest).length ≤ n → L c v → ends rest →
    ∃ rest', p (c ++ rest) = .ok (v, rest') ∧ rest' <:+ rest ∧ skip blank rest' = skip blank rest
  total : ∀ s, s.length ≤ n → p s ≠ .error fuel

theorem Reads.mono {blank : α → Bool} {p : Parser α V E} {L : List α → V → Prop}
    {ends : List α → Prop} {fuel : E} {m n : ℕ} (h : Reads blank p L ends fuel n) (hm : m ≤ n) :
    Reads blank p L ends fuel m where
  sound s v rest hs := h.sound s v rest (hs.trans hm)
  complete c v rest hn := h.complete c v rest (hn.trans hm)
  total s hs := h.total s (hs.trans hm)

/-! ## Chains -/

section Chain

variable (operand : Parser α V E) (op : α → Option (V → V → Except E V)) (outOfFuel : E)

/-- The loop over the operators that follow. -/
def chainLoop : ℕ → V → List α → Except E (V × List α)
  | fuel, lhs, s =>
    match skip blank s with
    | [] => .ok (lhs, [])
    | o :: rest =>
      match op o with
      | none => .ok (lhs, o :: rest)
      | some f =>
        match fuel with
        | 0 => .error outOfFuel
        | fuel + 1 =>
          match operand rest with
          | .error e => .error e
          | .ok (rhs, rest) =>
            match f lhs rhs with
            | .error e => .error e
            | .ok v => chainLoop fuel v rest

/-- An operand, and the operators and operands behind it. -/
def chain (s : List α) : Except E (V × List α) :=
  match operand s with
  | .error e => .error e
  | .ok (lhs, rest) => chainLoop blank operand op outOfFuel rest.length lhs rest

/-- The language of a chain, which is grouped to the left. -/
inductive Chain (L : List α → V → Prop) : List α → V → Prop
  | one {c : List α} {v : V} : L c v → Chain L c v
  | more {c bl t : List α} {o : α} {f : V → V → Except E V} {a b v : V} : Chain L c a →
      Blanks blank bl → op o = some f → L t b → f a b = .ok v → Chain L (c ++ (bl ++ o :: t)) v

variable {blank operand op outOfFuel}

theorem chainLoop_nil {fuel : ℕ} {lhs : V} {s : List α} (h : skip blank s = []) :
    chainLoop blank operand op outOfFuel fuel lhs s = .ok (lhs, []) := by
  rw [chainLoop, h]

theorem chainLoop_none {fuel : ℕ} {lhs : V} {s rest : List α} {o : α}
    (h : skip blank s = o :: rest) (ho : op o = none) :
    chainLoop blank operand op outOfFuel fuel lhs s = .ok (lhs, o :: rest) := by
  rw [chainLoop, h]
  dsimp only
  rw [ho]

theorem chainLoop_some {fuel : ℕ} {lhs : V} {s rest : List α} {o : α} {f : V → V → Except E V}
    (h : skip blank s = o :: rest) (ho : op o = some f) :
    chainLoop blank operand op outOfFuel (fuel + 1) lhs s =
      match operand rest with
      | .error e => .error e
      | .ok (rhs, rest) =>
        match f lhs rhs with
        | .error e => .error e
        | .ok v => chainLoop blank operand op outOfFuel fuel v rest := by
  rw [chainLoop, h]
  dsimp only
  rw [ho]

/-- **How the loop goes on**: it stops behind the blanks, or takes an operator and its operand. -/
theorem chainLoop_cases {fuel : ℕ} {lhs v : V} {s rest : List α}
    (h : chainLoop blank operand op outOfFuel fuel lhs s = .ok (v, rest)) :
    (v = lhs ∧ rest = skip blank s) ∨
      ∃ m o r f rhs r' u, fuel = m + 1 ∧ skip blank s = o :: r ∧ op o = some f ∧
        operand r = .ok (rhs, r') ∧ f lhs rhs = .ok u ∧
        chainLoop blank operand op outOfFuel m u r' = .ok (v, rest) := by
  cases hskip : skip blank s with
  | nil =>
    rw [chainLoop_nil hskip] at h
    cases h
    exact .inl ⟨rfl, rfl⟩
  | cons o r =>
    cases ho : op o with
    | none =>
      rw [chainLoop_none hskip ho] at h
      cases h
      exact .inl ⟨rfl, rfl⟩
    | some f =>
      cases fuel with
      | zero =>
        rw [chainLoop, hskip] at h
        dsimp only at h
        rw [ho] at h
        cases h
      | succ m =>
        rw [chainLoop_some hskip ho] at h
        cases hoperand : operand r with
        | error e =>
          rw [hoperand] at h
          cases h
        | ok p =>
          obtain ⟨rhs, r'⟩ := p
          rw [hoperand] at h
          dsimp only at h
          cases hf : f lhs rhs with
          | error e =>
            rw [hf] at h
            cases h
          | ok u =>
            rw [hf] at h
            exact .inr ⟨m, o, r, f, rhs, r', u, rfl, rfl, ho, hoperand, hf, h⟩

theorem length_skip_le (s : List α) : (skip blank s).length ≤ s.length := (skip_suffix s).length_le

section Correct

variable {L : List α → V → Prop} {ends : List α → Prop} {n : ℕ}

/-- What is left is not longer than what was there. -/
theorem Reads.length_le {p : Parser α V E} (h : Reads blank p L ends outOfFuel n) {s rest : List α}
    {v : V} (hs : s.length ≤ n) (hp : p s = .ok (v, rest)) : rest.length ≤ s.length := by
  obtain ⟨c, bl, rfl, -, -⟩ := h.sound s v rest hs hp
  rw [List.length_append, List.length_append]
  omega

/-- What the loop takes continues the chain. -/
theorem chainLoop_sound (hoperand : Reads blank operand L ends outOfFuel n) {fuel : ℕ} {lhs v : V}
    {s bl c rest : List α} (hs : s.length ≤ n) (hbl : Blanks blank bl)
    (hc : Chain blank op L c lhs)
    (h : chainLoop blank operand op outOfFuel fuel lhs s = .ok (v, rest)) :
    ∃ d bl', bl ++ s = d ++ (bl' ++ rest) ∧ Blanks blank bl' ∧ Chain blank op L (c ++ d) v := by
  induction fuel using Nat.strongRecOn generalizing lhs s bl c with
  | ind fuel ih =>
    obtain ⟨bs, hbs, hblanks⟩ := @exists_blanks _ blank s
    obtain ⟨rfl, rfl⟩ | ⟨m, o, r, f, rhs, r', u, rfl, hskip, ho, hrhs, hf, hloop⟩ :=
      chainLoop_cases h
    · refine ⟨[], bl ++ bs, ?_, blanks_append hbl hblanks, by rwa [List.append_nil]⟩
      rw [List.nil_append, List.append_assoc, ← hbs]
    · have hlength := @length_skip_le _ blank s
      rw [hskip, List.length_cons] at hlength
      have hr' := hoperand.length_le (by omega) hrhs
      obtain ⟨t, bt, hr, hbt, ht⟩ := hoperand.sound r rhs r' (by omega) hrhs
      obtain ⟨d, bl', hd, hbl', hchain⟩ := ih m (Nat.lt_succ_self m) (by omega) hbt
        (.more hc (blanks_append hbl hblanks) ho ht hf) hloop
      refine ⟨bl ++ bs ++ o :: t ++ d, bl', ?_, hbl', ?_⟩
      · conv_lhs => rw [hbs, hskip, hr, hd]
        simp only [List.append_assoc, List.cons_append]
      · simpa only [List.append_assoc, List.cons_append] using hchain

/-- Reading a chain comes to the loop behind it. -/
theorem chain_complete (hoperand : Reads blank operand L ends outOfFuel n)
    (hends : ∀ o f bl t, op o = some f → Blanks blank bl → ends (bl ++ o :: t))
    (hblank : ∀ o f, op o = some f → blank o = false) {c : List α} {a : V}
    (hc : Chain blank op L c a) {rest : List α} (hn : (c ++ rest).length ≤ n) (hrest : ends rest) :
    ∃ fuel rest', chain blank operand op outOfFuel (c ++ rest) =
        chainLoop blank operand op outOfFuel fuel a rest' ∧ rest'.length ≤ fuel ∧
      rest' <:+ rest ∧ skip blank rest' = skip blank rest := by
  induction hc generalizing rest with
  | one hL =>
    obtain ⟨rest', hp, hsuffix, hskip⟩ := hoperand.complete _ _ rest hn hL hrest
    refine ⟨rest'.length, rest', ?_, Nat.le_refl _, hsuffix, hskip⟩
    rw [chain, hp]
  | @more c bl t o f a b v _ hbl ho ht hf ih =>
    have htext : c ++ (bl ++ o :: t) ++ rest = c ++ (bl ++ o :: (t ++ rest)) := by
      simp only [List.append_assoc, List.cons_append]
    rw [htext] at hn ⊢
    obtain ⟨fuel, r, hchain, hfuel, -, hskip⟩ := ih hn (hends o f bl (t ++ rest) ho hbl)
    rw [skip_append_cons hbl (hblank o f ho)] at hskip
    have hlength := @length_skip_le _ blank r
    rw [hskip, List.length_cons, List.length_append] at hlength
    obtain ⟨m, rfl⟩ : ∃ m, fuel = m + 1 := ⟨fuel - 1, by omega⟩
    have hshort : (t ++ rest).length ≤ n := by
      simp only [List.length_append, List.length_cons] at hn ⊢
      omega
    obtain ⟨rest', hp, hsuffix, hskip'⟩ := hoperand.complete t b rest hshort ht hrest
    refine ⟨m, rest', ?_, ?_, hsuffix, hskip'⟩
    · rw [hchain, chainLoop_some hskip ho, hp]
      dsimp only
      rw [hf]
    · have hle := hsuffix.length_le
      omega

/-- The loop has the fuel that it needs. -/
theorem chainLoop_total (hoperand : Reads blank operand L ends outOfFuel n)
    (hop : ∀ o f a b, op o = some f → f a b ≠ .error outOfFuel) {fuel : ℕ} {lhs : V} {s : List α}
    (hs : s.length ≤ n) (hfuel : s.length ≤ fuel) :
    chainLoop blank operand op outOfFuel fuel lhs s ≠ .error outOfFuel := by
  induction fuel generalizing lhs s with
  | zero =>
    obtain rfl : s = [] := List.length_eq_zero_iff.mp (Nat.le_zero.mp hfuel)
    rw [chainLoop_nil rfl]
    exact nofun
  | succ m ih =>
    cases hskip : skip blank s with
    | nil =>
      rw [chainLoop_nil hskip]
      exact nofun
    | cons o r =>
      have hlength := @length_skip_le _ blank s
      rw [hskip, List.length_cons] at hlength
      cases ho : op o with
      | none =>
        rw [chainLoop_none hskip ho]
        exact nofun
      | some f =>
        rw [chainLoop_some hskip ho]
        cases hr : operand r with
        | error e =>
          intro herror
          exact hoperand.total r (by omega) (hr.trans (congrArg _ (Except.error.inj herror)))
        | ok p =>
          obtain ⟨rhs, r'⟩ := p
          have hr' := hoperand.length_le (by omega) hr
          dsimp only
          cases hf : f lhs rhs with
          | error e =>
            intro herror
            exact hop o f lhs rhs ho (hf.trans (congrArg _ (Except.error.inj herror)))
          | ok u => exact ih (by omega) (by omega)

/-- **A chain is read if its operands are**, and if an operator is no blank and ends an operand. -/
theorem Reads.chain (hoperand : Reads blank operand L ends outOfFuel n)
    (hends : ∀ o f bl t, op o = some f → Blanks blank bl → ends (bl ++ o :: t))
    (hblank : ∀ o f, op o = some f → blank o = false)
    (hop : ∀ o f a b, op o = some f → f a b ≠ .error outOfFuel) :
    Reads blank (chain blank operand op outOfFuel) (Chain blank op L)
      (fun rest => ends rest ∧ ∀ o r, skip blank rest = o :: r → op o = none) outOfFuel n where
  sound s v rest hs h := by
    rw [ChainParser.chain] at h
    cases hfirst : operand s with
    | error e =>
      rw [hfirst] at h
      cases h
    | ok p =>
      obtain ⟨lhs, r⟩ := p
      rw [hfirst] at h
      obtain ⟨c, bl, hsc, hbl, hc⟩ := hoperand.sound s lhs r hs hfirst
      have hr := hoperand.length_le hs hfirst
      obtain ⟨d, bl', hd, hbl', hchain⟩ := chainLoop_sound hoperand (by omega) hbl (.one hc) h
      exact ⟨c ++ d, bl', by rw [hsc, hd, List.append_assoc], hbl', hchain⟩
  complete c v rest hn hc hrest := by
    obtain ⟨fuel, r, hchain, -, hsuffix, hskip⟩ :=
      chain_complete hoperand hends hblank hc hn hrest.1
    refine ⟨skip blank r, ?_, (skip_suffix r).trans hsuffix, by rw [skip_skip, hskip]⟩
    rw [hchain]
    cases hr : skip blank r with
    | nil => exact chainLoop_nil hr
    | cons o r' => exact chainLoop_none hr (hrest.2 o r' (hskip ▸ hr))
  total s hs := by
    rw [ChainParser.chain]
    cases hfirst : operand s with
    | error e =>
      intro herror
      exact hoperand.total s hs (hfirst.trans (congrArg _ (Except.error.inj herror)))
    | ok p =>
      obtain ⟨lhs, r⟩ := p
      have hr := hoperand.length_le hs hfirst
      exact chainLoop_total hoperand hop (by omega) (Nat.le_refl _)

end Correct

end Chain

end ChainParser
