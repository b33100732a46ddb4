import TigerClaw.Library.Pdq
import Mathlib.Data.List.Induction

/-!
# Sorting a plateau

A list that begins with a long plateau, of items none of which is less than another, and ends with
a few smaller ones.  The pivot is chosen within the plateau, where nothing is out of order; so the
sort tries to mend the list, moves one small item after another to the front, and is done.  The
plateau stays in its order.

* `shiftLeft_plateau`, `shiftRight_small`: the two moves of a round.
* `partialLoop_plateau`: each round takes one of the small items to the front.
* `pdq_plateau`: **the plateau stays in order**, with at most four small items behind it and at
  least fifty items in all.
-/

namespace Pdq

universe u

variable {α : Type u} (less : α → α → Bool)

/-! ## Neighbours -/

theorem lessThan_neighbours (l₁ l₂ : List α) (x y : α) :
    (onList less).lessThan (l₁ ++ y :: x :: l₂) (l₁.length + 1) l₁.length = less x y := by
  simp [onList]

theorem swap_neighbours (l₁ l₂ : List α) (x y : α) :
    (onList less).swap (l₁ ++ y :: x :: l₂) (l₁.length + 1) l₁.length = l₁ ++ x :: y :: l₂ := by
  simp [onList, swapAt]

theorem lessThan_neighbours_last (l₁ : List α) (y : α) :
    (onList less).lessThan (l₁ ++ [y]) (l₁.length + 1) l₁.length = false := by
  simp [onList]

/-- What `shiftLeft` does to a list, it does to the part up to its index. -/
theorem shiftLeft_append (l₁ l₂ : List α) (j : ℕ) (h : l₁.length = j + 1) :
    ∃ l₁', shiftLeft (onList less) j (l₁ ++ l₂) = l₁' ++ l₂ ∧ l₁'.length = j + 1 := by
  induction j generalizing l₁ l₂ with
  | zero => exact ⟨l₁, rfl, h⟩
  | succ j ih =>
    have htwo : (l₁.drop j).length = 2 := by
      rw [List.length_drop]
      omega
    obtain ⟨y, x, hlast⟩ := List.length_eq_two.mp htwo
    have hj : (l₁.take j).length = j := by
      rw [List.length_take]
      omega
    have hsplit : l₁ ++ l₂ = l₁.take j ++ y :: x :: l₂ := by
      conv_lhs => rw [← List.take_append_drop j l₁, hlast]
      simp
    have hless := lessThan_neighbours less (l₁.take j) l₂ x y
    have hswap := swap_neighbours less (l₁.take j) l₂ x y
    rw [hj] at hless hswap
    rw [shiftLeft, hsplit, hless, hswap]
    split
    · obtain ⟨l₁', hshift, hlength⟩ := ih (l₁.take j ++ [x]) (y :: l₂) (by simp [hj])
      refine ⟨l₁' ++ [y], ?_, by simp [hlength]⟩
      simpa using hshift
    · exact ⟨l₁, hsplit.symm, h⟩

/-- A small item moves left through the plateau, and in front of it. -/
theorem shiftLeft_plateau {x : α} (front plateau rest : List α)
    (h : ∀ t ∈ plateau, less x t = true) :
    ∃ front', shiftLeft (onList less) (front.length + plateau.length)
        (front ++ plateau ++ x :: rest) = front' ++ plateau ++ rest ∧
      front'.length = front.length + 1 := by
  induction plateau using List.reverseRecOn generalizing rest with
  | nil =>
    obtain ⟨front', hshift, hlength⟩ :=
      shiftLeft_append less (front ++ [x]) rest front.length (by simp)
    exact ⟨front', by simpa using hshift, hlength⟩
  | append_singleton plateau t ih =>
    obtain ⟨front', hshift, hlength⟩ := ih (t :: rest) fun t' ht' => h t' (by simp [ht'])
    refine ⟨front', ?_, hlength⟩
    have hindex : front.length + (plateau ++ [t]).length = (front ++ plateau).length + 1 := by
      simp [Nat.add_assoc]
    have hsplit : front ++ (plateau ++ [t]) ++ x :: rest = front ++ plateau ++ t :: x :: rest := by
      simp
    rw [hindex, hsplit, shiftLeft, lessThan_neighbours, if_pos (h t (by simp)), swap_neighbours,
      List.length_append, hshift]
    simp

/-- An item of the plateau moves right through the small items behind it. -/
theorem shiftRight_small {t : α} (front small rest : List α) (h : ∀ x ∈ small, less x t = true)
    (hrest : ∀ t' ∈ rest, less t' t = false) (fuel : ℕ) (hfuel : small.length ≤ fuel) :
    shiftRight (onList less) fuel front.length (front ++ t :: (small ++ rest)) =
      front ++ small ++ t :: rest := by
  induction small generalizing front fuel with
  | nil =>
    rw [List.append_nil, List.nil_append]
    cases fuel with
    | zero => rfl
    | succ fuel =>
      have hstop : (onList less).lessThan (front ++ t :: rest) (front.length + 1) front.length =
          false := by
        cases rest with
        | nil => exact lessThan_neighbours_last less front t
        | cons t' rest => rw [lessThan_neighbours, hrest t' (by simp)]
      rw [shiftRight, hstop, if_neg Bool.false_ne_true]
  | cons x small ih =>
    obtain ⟨fuel, rfl⟩ := Nat.exists_eq_add_of_le hfuel
    have hrest' := ih (front ++ [x]) (fun x' hx' => h x' (by simp [hx'])) (small.length + fuel)
      (by omega)
    rw [List.length_append, List.length_singleton] at hrest'
    have hadd : (x :: small).length + fuel = (small.length + fuel) + 1 := by
      rw [List.length_cons]
      omega
    rw [hadd, shiftRight, List.cons_append, lessThan_neighbours, if_pos (h x (by simp)),
      swap_neighbours]
    simpa using hrest'

/-! ## The rounds -/

variable {less}

section Context

variable {σ : Type u} (ctx : Context σ)

/-- Where nothing is out of order, the scan goes on. -/
theorem nextInversion_skip {s : σ} {i : ℕ} (d fuel : ℕ)
    (h : ∀ k, i ≤ k → k < i + d → ctx.lessThan s k (k - 1) = false) :
    nextInversion ctx s (d + fuel) i = nextInversion ctx s fuel (i + d) := by
  induction d generalizing i with
  | zero => rw [Nat.zero_add, Nat.add_zero]
  | succ d ih =>
    have hfirst := h i (le_refl i) (by omega)
    rw [show d + 1 + fuel = (d + fuel) + 1 by omega, nextInversion, hfirst,
      if_neg Bool.false_ne_true, ih fun k hk hk' => h k (by omega) (by omega),
      show i + 1 + d = i + (d + 1) by omega]

/-- The scan ends where two neighbours are out of order, or with its fuel. -/
theorem nextInversion_spec (s : σ) (fuel i : ℕ) :
    i ≤ nextInversion ctx s fuel i ∧ nextInversion ctx s fuel i ≤ i + fuel ∧
      (nextInversion ctx s fuel i = i + fuel ∨
        ctx.lessThan s (nextInversion ctx s fuel i) (nextInversion ctx s fuel i - 1) = true) := by
  induction fuel generalizing i with
  | zero => exact ⟨le_refl i, le_refl i, .inl rfl⟩
  | succ fuel ih =>
    rw [nextInversion]
    split
    · rename_i hless
      exact ⟨le_refl i, by omega, .inr hless⟩
    · obtain ⟨hle, hle', hend⟩ := ih (i + 1)
      refine ⟨by omega, by omega, ?_⟩
      rcases hend with hend | hend
      · exact .inl (by omega)
      · exact .inr hend

variable {ctx} {I : σ → Prop}
  (hI : ∀ s j, I s → ctx.lessThan s (j + 1) j = true → I (ctx.swap s (j + 1) j))

include hI

theorem shiftLeft_invariant (j : ℕ) {s : σ} (hs : I s) : I (shiftLeft ctx j s) := by
  induction j generalizing s with
  | zero => exact hs
  | succ j ih =>
    rw [shiftLeft]
    split
    · rename_i hless
      exact ih (hI s j hs hless)
    · exact hs

theorem shiftRight_invariant (fuel j : ℕ) {s : σ} (hs : I s) : I (shiftRight ctx fuel j s) := by
  induction fuel generalizing j s with
  | zero => exact hs
  | succ fuel ih =>
    rw [shiftRight]
    split
    · rename_i hless
      exact ih (j + 1) (hI s j hs hless)
    · exact hs

/-- Mending keeps what the swaps of neighbours out of order keep. -/
theorem partialLoop_invariant (a b steps i : ℕ) (hi : 0 < i) (hib : i ≤ b) {s : σ} (hs : I s) :
    I (partialLoop ctx a b steps i s).1 := by
  induction steps generalizing i s with
  | zero => exact hs
  | succ steps ih =>
    rw [partialLoop]
    dsimp only
    obtain ⟨hle, hle', hend⟩ := nextInversion_spec ctx s (b - i) i
    generalize nextInversion ctx s (b - i) i = k at hle hle' hend ⊢
    split
    · exact hs
    rename_i hkb
    split
    · exact hs
    have hless := hend.resolve_left (by omega)
    obtain ⟨j, rfl⟩ := Nat.exists_eq_succ_of_ne_zero (show k ≠ 0 by omega)
    have hswap : I (ctx.swap s (j + 1) j) := hI s j hs hless
    refine ih (j + 1) (by omega) (by omega) ?_
    rw [Nat.succ_sub_one]
    have hleft : I (if 2 ≤ j + 1 - a then shiftLeft ctx j (ctx.swap s (j + 1) j)
        else ctx.swap s (j + 1) j) := by
      split
      · exact shiftLeft_invariant hI j hswap
      · exact hswap
    split
    · exact shiftRight_invariant hI _ _ hleft
    · exact hleft

end Context

variable {top : α → Prop} (htop : ∀ x y, top x → top y → less x y = false)

include htop

/-- From the plateau on, nothing is out of order in a list that ends with it. -/
theorem lessThan_of_top {l₁ l₂ : List α} (h : ∀ x ∈ l₂, top x) {i j : ℕ} (hi : l₁.length ≤ i)
    (hj : l₁.length ≤ j) : (onList less).lessThan (l₁ ++ l₂) i j = false := by
  simp only [onList, List.getElem?_append_right hi, List.getElem?_append_right hj]
  split
  · rename_i x y hx hy
    exact htop x y (h x (List.mem_of_getElem? hx)) (h y (List.mem_of_getElem? hy))
  · rfl

/-- What the scan finds behind the plateau: the first of the small items, if one is left. -/
theorem nextInversion_plateau (front plateau small rest : List α) (hne : plateau ≠ [])
    (hplateau : ∀ t ∈ plateau, top t) (hrest : ∀ t ∈ rest, top t)
    (hsmall : ∀ x ∈ small, ∀ t, top t → less x t = true) :
    nextInversion (onList less) (front ++ plateau ++ small ++ rest)
        (small.length + rest.length) (front.length + plateau.length) =
      if small = [] then front.length + plateau.length + rest.length
      else front.length + plateau.length := by
  cases small with
  | nil =>
    have hscan := nextInversion_skip (onList less) (s := front ++ (plateau ++ rest))
      (i := front.length + plateau.length) rest.length 0 fun k hk _ =>
        lessThan_of_top htop (fun t ht => (List.mem_append.mp ht).elim (hplateau t) (hrest t))
          (by omega) (by have := List.length_pos_of_ne_nil hne; omega)
    simpa [nextInversion] using hscan
  | cons x small =>
    obtain rfl | ⟨plateau, t, rfl⟩ := List.eq_nil_or_concat plateau
    · exact absurd rfl hne
    have hindex : front.length + (plateau.concat t).length = (front ++ plateau).length + 1 := by
      simp [Nat.add_assoc]
    have hsplit : front ++ plateau.concat t ++ x :: small ++ rest =
        front ++ plateau ++ t :: x :: (small ++ rest) := by simp
    have hless := hsmall x (by simp) t (hplateau t (by simp))
    rw [hindex, hsplit, if_neg (List.cons_ne_nil x small), List.length_cons,
      show small.length + 1 + rest.length = (small.length + rest.length) + 1 by omega,
      nextInversion, Nat.add_sub_cancel, lessThan_neighbours, if_pos hless]

/-- The list after a round: a small item is in front, and the last item of the plateau is behind the
others. -/
theorem round_plateau (front plateau small rest : List α) (x t : α) (ht : top t)
    (hplateau : ∀ t' ∈ plateau, top t') (hrest : ∀ t' ∈ rest, top t')
    (hx : ∀ t', top t' → less x t' = true)
    (hsmall : ∀ x' ∈ small, ∀ t', top t' → less x' t' = true)
    (hlong : 1 ≤ front.length + plateau.length) :
    ∃ front', front'.length = front.length + 1 ∧
      (let i := front.length + plateau.length + 1
       let b := i + (small.length + 1 + rest.length)
       let s := (onList less).swap (front ++ plateau ++ t :: x :: (small ++ rest)) i (i - 1)
       let s := if 2 ≤ i - 0 then shiftLeft (onList less) (i - 1) s else s
       if 2 ≤ b - i then shiftRight (onList less) (b - (i + 1)) i s else s) =
        front' ++ plateau ++ small ++ t :: rest := by
  obtain ⟨front', hshift, hlength⟩ := shiftLeft_plateau less front plateau
    (t :: (small ++ rest)) fun t' ht' => hx t' (hplateau t' ht')
  refine ⟨front', hlength, ?_⟩
  have hswap := swap_neighbours less (front ++ plateau) (small ++ rest) x t
  rw [List.length_append] at hswap
  have hright := shiftRight_small less (front' ++ plateau) small rest
    (fun x' hx' => hsmall x' hx' t ht) (fun t' ht' => htop t' t (hrest t' ht') ht)
    (small.length + rest.length) (by omega)
  rw [List.length_append, hlength, show front.length + 1 + plateau.length =
    front.length + plateau.length + 1 by omega] at hright
  dsimp only
  have hleft : 2 ≤ front.length + plateau.length + 1 - 0 := by omega
  rw [Nat.add_sub_cancel, hswap, if_pos hleft, hshift]
  split
  · rw [show front.length + plateau.length + 1 + (small.length + 1 + rest.length) -
      (front.length + plateau.length + 1 + 1) = small.length + rest.length by omega, hright]
  · -- nothing is left behind the item
    rename_i hshort
    obtain rfl : small = [] := List.eq_nil_of_length_eq_zero (by omega)
    obtain rfl : rest = [] := List.eq_nil_of_length_eq_zero (by omega)
    simp

/-- **Each round takes a small item to the front**, and when none is left the list is sorted. -/
theorem partialLoop_plateau (small front plateau rest : List α) (steps i : ℕ)
    (hplateau : ∀ t ∈ plateau, top t) (hrest : ∀ t ∈ rest, top t)
    (hsmall : ∀ x ∈ small, ∀ t, top t → less x t = true)
    (hlong : small.length < plateau.length)
    (hb : 50 ≤ front.length + plateau.length + (small.length + rest.length))
    (hsteps : small.length < steps)
    (hi : nextInversion (onList less) (front ++ plateau ++ small ++ rest)
        (front.length + plateau.length + (small.length + rest.length) - i) i =
      if small = [] then front.length + plateau.length + rest.length
      else front.length + plateau.length) :
    (partialLoop (onList less) 0 (front.length + plateau.length + (small.length + rest.length))
      steps i (front ++ plateau ++ small ++ rest)).2 = true := by
  induction small generalizing front plateau rest steps i with
  | nil =>
    obtain ⟨steps, rfl⟩ := Nat.exists_eq_succ_of_ne_zero (show steps ≠ 0 by omega)
    rw [if_pos rfl] at hi
    rw [partialLoop]
    dsimp only
    rw [hi, if_pos (by simp)]
  | cons x small ih =>
    obtain ⟨steps, rfl⟩ := Nat.exists_eq_succ_of_ne_zero (show steps ≠ 0 by omega)
    obtain rfl | ⟨plateau, t, rfl⟩ := List.eq_nil_or_concat plateau
    · simp at hlong
    rw [List.concat_eq_append] at hplateau hlong hb hi ⊢
    have ht : top t := hplateau t (by simp)
    have hplateau' : ∀ t' ∈ plateau, top t' := fun t' ht' => hplateau t' (by simp [ht'])
    have hrest' : ∀ t' ∈ t :: rest, top t' := fun t' ht' =>
      (List.mem_cons.mp ht').elim (fun heq => heq ▸ ht) (hrest t')
    have hsmall' : ∀ x' ∈ small, ∀ t', top t' → less x' t' = true :=
      fun x' hx' => hsmall x' (by simp [hx'])
    rw [List.length_append, List.length_singleton, List.length_cons] at hb hi hlong ⊢
    rw [List.length_cons] at hsteps
    obtain ⟨front', hlength, hround⟩ := round_plateau htop front plateau small rest x t ht hplateau'
      hrest (hsmall x (by simp)) hsmall' (by omega)
    have hne : plateau ≠ [] := List.ne_nil_of_length_pos (by omega)
    have hscan := nextInversion_plateau htop front' plateau small (t :: rest) hne hplateau' hrest'
      hsmall'
    have hnext := ih front' plateau (t :: rest) steps (front'.length + plateau.length) hplateau'
      hrest' hsmall' (by omega) (by rw [List.length_cons]; omega) (by omega)
      (by rwa [Nat.add_sub_cancel_left])
    have hbound : front.length + plateau.length + 1 + (small.length + 1 + rest.length) =
        front'.length + plateau.length + (small.length + (t :: rest).length) := by
      rw [List.length_cons]
      omega
    have hindex : front.length + plateau.length + 1 = front'.length + plateau.length := by omega
    have hsplit : front ++ (plateau ++ [t]) ++ x :: small ++ rest =
        front ++ plateau ++ t :: x :: (small ++ rest) := by simp
    rw [if_neg (List.cons_ne_nil x small), ← Nat.add_assoc front.length plateau.length 1] at hi
    rw [← Nat.add_assoc front.length plateau.length 1, partialLoop]
    dsimp only at hround ⊢
    rw [hi, if_neg (by omega), if_neg (by omega), hsplit, hround, hbound, hindex]
    exact hnext

omit htop in
/-- No swap is made for a pivot where nothing is out of order. -/
theorem chosePivot_of_forall {σ : Type u} (ctx : Context σ) {b N : ℕ} {s : σ}
    (h : ∀ i j, i < N → j < N → ctx.lessThan s i j = false) (hb : 50 ≤ b)
    (hN : b / 4 * 3 + 1 < N) : chosePivot ctx 0 b s = (s, b / 4 * 2, .increasing) := by
  have horder : ∀ i j n, i < N → j < N → order2 ctx i j (s, n) = (s, n) := fun i j n hi hj => by
    rw [order2, h j i hj hi, if_neg Bool.false_ne_true]
  have hsort : ∀ i j k, i < N → j < N → k < N → sort3 ctx i j k (s, 0) = (s, 0) :=
    fun i j k hi hj hk => by rw [sort3, horder i j 0 hi hj, horder j k 0 hj hk, horder i j 0 hi hj]
  unfold chosePivot
  simp only [Nat.sub_zero, Nat.zero_add]
  rw [if_pos (by omega), if_pos (by omega)]
  simp only [hsort _ _ _ (show b / 4 * 1 - 1 < N by omega) (show b / 4 * 1 < N by omega)
    (show b / 4 * 1 + 1 < N by omega), hsort _ _ _ (show b / 4 * 2 - 1 < N by omega)
    (show b / 4 * 2 < N by omega) (show b / 4 * 2 + 1 < N by omega),
    hsort _ _ _ (show b / 4 * 3 - 1 < N by omega) (show b / 4 * 3 < N by omega)
    (show b / 4 * 3 + 1 < N by omega), hsort _ _ _ (show b / 4 * 1 < N by omega)
    (show b / 4 * 2 < N by omega) (show b / 4 * 3 < N by omega)]
  rfl

omit htop in
/-- A list that is mended at once is sorted. -/
theorem pdqContext_of_mended {σ : Type u} {ctx : Context σ} {b j : ℕ} {s : σ} (hb : 24 < b)
    (hpivot : chosePivot ctx 0 b s = (s, j, .increasing))
    (hmended : (partialInsertionSort ctx 0 b s).2 = true) :
    pdqContext ctx 0 b s = (partialInsertionSort ctx 0 b s).1 := by
  have hprepare : prepare ctx (start 0 b s) = (s, j, .increasing) := by
    rw [prepare]
    simp only [start, if_true, hpivot]
    rfl
  have hmend : mend ctx (start 0 b s) .increasing s = partialInsertionSort ctx 0 b s :=
    if_pos ⟨rfl, rfl, rfl⟩
  have hpass : pass ctx 0 (start 0 b s) = .leave (partialInsertionSort ctx 0 b s).1 := by
    have hlimit : (start 0 b s).range.limit ≠ 0 := Nat.succ_ne_zero _
    rw [pass, if_neg (by simp only [start]; omega), if_neg hlimit, passRange]
    simp only [hprepare, hmend, hmended, if_true]
    rfl
  rw [pdqContext, Loop.loop_leave hpass]
  rfl

/-- **A plateau with at most four smaller items behind it, and fifty items in all, stays in its
order.** -/
theorem pdq_plateau {plateau small : List α} (hplateau : ∀ t ∈ plateau, top t)
    (hsmall : ∀ x ∈ small, ∀ t, top t → less x t = true) (hfew : small.length ≤ 4)
    (hlong : 50 ≤ plateau.length + small.length) {p : α → Bool} (hp : ∀ x, p x → top x) :
    (pdq less (plateau ++ small)).filter p = (plateau ++ small).filter p := by
  have hlength : (plateau ++ small).length = plateau.length + small.length := List.length_append
  have hflat : ∀ i j, i < plateau.length → j < plateau.length →
      (onList less).lessThan (plateau ++ small) i j = false := by
    intro i j hi hj
    simp only [onList, List.getElem?_append_left hi, List.getElem?_append_left hj,
      List.getElem?_eq_getElem hi, List.getElem?_eq_getElem hj]
    exact htop _ _ (hplateau _ (List.getElem_mem hi)) (hplateau _ (List.getElem_mem hj))
  have hpivot := chosePivot_of_forall (onList less) hflat hlong (by omega)
  have hmended : (partialInsertionSort (onList less) 0 (plateau.length + small.length)
      (plateau ++ small)).2 = true := by
    have hscan := nextInversion_plateau htop [] plateau small []
      (List.ne_nil_of_length_pos (by omega)) hplateau (by simp) hsmall
    have hskip := nextInversion_skip (onList less) (s := plateau ++ small) (i := 1)
      (plateau.length - 1) small.length fun k hk hk' => hflat k (k - 1) (by omega) (by omega)
    have hround := partialLoop_plateau htop small [] plateau [] 5 1 hplateau (by simp) hsmall
      (by omega) (by simpa using hlong) (by omega)
    simp only [List.nil_append, List.append_nil, List.length_nil, Nat.zero_add, Nat.add_zero]
      at hscan hround
    refine hround ?_
    rw [show plateau.length + small.length - 1 = plateau.length - 1 + small.length by omega, hskip,
      show 1 + (plateau.length - 1) = plateau.length by omega, hscan]
  rw [pdq, hlength, pdqContext_of_mended (by omega) hpivot hmended]
  exact partialLoop_invariant (I := fun s : List α => s.filter p = (plateau ++ small).filter p)
    (fun s j hs hless =>
      (filter_swap (fun x y hx hy => htop x y (hp x hx) (hp y hy)) hless).trans hs)
    0 _ 5 1 (by omega) (by omega) rfl

end Pdq
