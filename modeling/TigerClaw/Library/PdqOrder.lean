import Mathlib.Logic.Equiv.Basic
import TigerClaw.Library.PdqPlateau

/-!
# What the parts of the sort leave

The sort sees its items through comparisons by index, and so an order on the items is an order on
the indices, and what a part of the sort does to the items is a permutation of the indices.

* `Lawful`: the comparisons are a weak order, and a swap exchanges two indices.
* `Rearranged`: a part has permuted the items of a range, and has left the others where they were.
* `insertionContext_sorted`, `heapContext_sorted`: **the short sort and the heap sort, sort**.
* `partialInsertionSort_sorted`: a range that counts as mended is sorted, when nothing before it is
  greater than an item in it.
-/

namespace Pdq

universe u

variable {σ : Type u} {ctx : Context σ} {n : ℕ}

/-- The items are in a weak order, and a swap of two of the first `n` of them exchanges them. -/
structure Lawful (ctx : Context σ) (n : ℕ) : Prop where
  swap : ∀ {i j}, i < n → j < n → ∀ s k l,
    ctx.lessThan (ctx.swap s i j) k l =
      ctx.lessThan s (Equiv.swap i j k) (Equiv.swap i j l)
  asymm : ∀ {s i j}, ctx.lessThan s i j = true → ctx.lessThan s j i = false
  cotrans : ∀ {s i j k}, j < n → ctx.lessThan s i k = true →
    ctx.lessThan s i j = true ∨ ctx.lessThan s j k = true

/-- The two are not out of order. -/
def Context.Le (ctx : Context σ) (s : σ) (i j : ℕ) : Prop := ctx.lessThan s j i = false

/-- No two items from `a` to `b` are out of order. -/
def Context.SortedOn (ctx : Context σ) (s : σ) (a b : ℕ) : Prop :=
  ∀ i j, a ≤ i → i < j → j < b → ctx.Le s i j

/-- The items of `s` from `a` to `b` are in some order in `s'`, and the others where they were. -/
def Rearranged (ctx : Context σ) (a b : ℕ) (s s' : σ) : Prop :=
  ∃ p : Equiv.Perm ℕ, (∀ i, i < a ∨ b ≤ i → p i = i) ∧
    ∀ i j, ctx.lessThan s' i j = ctx.lessThan s (p i) (p j)

/-! ## The order of the indices -/

namespace Lawful

variable (h : Lawful ctx n) {s : σ} {i j k : ℕ}

include h

theorem le_refl (s : σ) (i : ℕ) : ctx.Le s i i := by
  rw [Context.Le, Bool.eq_false_iff]
  intro hless
  rw [h.asymm hless] at hless
  cases hless

theorem le_of_lessThan (hless : ctx.lessThan s i j = true) : ctx.Le s i j := h.asymm hless

theorem le_trans (hj : j < n) (hij : ctx.Le s i j) (hjk : ctx.Le s j k) : ctx.Le s i k := by
  rw [Context.Le, Bool.eq_false_iff]
  intro hki
  rcases h.cotrans hj hki with hkj | hji
  · exact Bool.noConfusion (hjk.symm.trans hkj)
  · exact Bool.noConfusion (hij.symm.trans hji)

theorem le_swap (hi : i < n) (hj : j < n) (s : σ) (k l : ℕ) :
    ctx.Le (ctx.swap s i j) k l ↔ ctx.Le s (Equiv.swap i j k) (Equiv.swap i j l) := by
  rw [Context.Le, Context.Le, h.swap hi hj]

end Lawful

/-- What is not in order is out of order. -/
theorem Context.le_or_lessThan (ctx : Context σ) (s : σ) (i j : ℕ) :
    ctx.Le s i j ∨ ctx.lessThan s j i = true := by
  cases hless : ctx.lessThan s j i with
  | false => exact .inl hless
  | true => exact .inr rfl

theorem Context.SortedOn.mono {s : σ} {a b a' b' : ℕ} (h : ctx.SortedOn s a b) (ha : a ≤ a')
    (hb : b' ≤ b) : ctx.SortedOn s a' b' :=
  fun i j hi hij hj => h i j (by omega) hij (by omega)

theorem Context.sortedOn_of_le {a b : ℕ} (hab : b ≤ a + 1) (s : σ) : ctx.SortedOn s a b := by
  intro i j hi hij hj
  omega

/-- One more item that is not out of order with the last. -/
theorem Lawful.sortedOn_succ (h : Lawful ctx n) {s : σ} {a b : ℕ} (hab : a < b) (hb : b < n)
    (hs : ctx.SortedOn s a b) (hlast : ctx.Le s (b - 1) b) : ctx.SortedOn s a (b + 1) := by
  intro i j hi hij hj
  by_cases hjb : j = b
  · subst hjb
    by_cases hib : i = j - 1
    · rwa [hib]
    · exact h.le_trans (by omega) (hs i (j - 1) hi (by omega) (by omega)) hlast
  · exact hs i j hi hij (by omega)

/-! ## Rearranging a range -/

namespace Rearranged

variable {a b : ℕ} {s s' s'' : σ}

theorem refl (a b : ℕ) (s : σ) : Rearranged ctx a b s s :=
  ⟨Equiv.refl ℕ, fun _ _ => rfl, fun _ _ => rfl⟩

theorem trans (h : Rearranged ctx a b s s') (h' : Rearranged ctx a b s' s'') :
    Rearranged ctx a b s s'' := by
  obtain ⟨p, hp, hless⟩ := h
  obtain ⟨q, hq, hless'⟩ := h'
  refine ⟨q.trans p, fun i hi => ?_, fun i j => ?_⟩
  · rw [Equiv.trans_apply, hq i hi, hp i hi]
  · rw [hless', hless, Equiv.trans_apply, Equiv.trans_apply]

theorem mono {a' b' : ℕ} (h : Rearranged ctx a b s s') (ha : a' ≤ a) (hb : b ≤ b') :
    Rearranged ctx a' b' s s' := by
  obtain ⟨p, hp, hless⟩ := h
  exact ⟨p, fun i hi => hp i (by omega), hless⟩

theorem swap (h : Lawful ctx n) {i j : ℕ} (hai : a ≤ i) (hib : i < b) (haj : a ≤ j) (hjb : j < b)
    (hb : b ≤ n) (s : σ) : Rearranged ctx a b s (ctx.swap s i j) := by
  refine ⟨Equiv.swap i j, fun k hk => ?_, h.swap (by omega) (by omega) s⟩
  exact Equiv.swap_apply_of_ne_of_ne (by omega) (by omega)

/-- The indices of the range are permuted among themselves. -/
theorem exists_perm (h : Rearranged ctx a b s s') :
    ∃ p : ℕ → ℕ, (∀ i, i < a ∨ b ≤ i → p i = i) ∧ (∀ i, a ≤ i → i < b → a ≤ p i ∧ p i < b) ∧
      ∀ i j, ctx.Le s' i j ↔ ctx.Le s (p i) (p j) := by
  obtain ⟨p, hp, hless⟩ := h
  refine ⟨p, hp, fun i hai hib => ?_, fun i j => by rw [Context.Le, Context.Le, hless]⟩
  by_contra hout
  have hfixed := p.injective (hp (p i) (by omega))
  omega

/-- Items outside the range are in the order they were in. -/
theorem le_iff (h : Rearranged ctx a b s s') {i j : ℕ} (hi : i < a ∨ b ≤ i) (hj : j < a ∨ b ≤ j) :
    ctx.Le s' i j ↔ ctx.Le s i j := by
  obtain ⟨p, hp, -, hle⟩ := h.exists_perm
  rw [hle, hp i hi, hp j hj]

/-- What is not greater than any item of the range stays so. -/
theorem le_of_below (h : Rearranged ctx a b s s') {i : ℕ} (hi : i < a ∨ b ≤ i)
    (hs : ∀ j, a ≤ j → j < b → ctx.Le s i j) {j : ℕ} (haj : a ≤ j) (hjb : j < b) :
    ctx.Le s' i j := by
  obtain ⟨p, hp, hinside, hle⟩ := h.exists_perm
  rw [hle, hp i hi]
  exact hs (p j) (hinside j haj hjb).1 (hinside j haj hjb).2

/-- What is not less than any item of the range stays so. -/
theorem le_of_above (h : Rearranged ctx a b s s') {j : ℕ} (hj : j < a ∨ b ≤ j)
    (hs : ∀ i, a ≤ i → i < b → ctx.Le s i j) {i : ℕ} (hai : a ≤ i) (hib : i < b) :
    ctx.Le s' i j := by
  obtain ⟨p, hp, hinside, hle⟩ := h.exists_perm
  rw [hle, hp j hj]
  exact hs (p i) (hinside i hai hib).1 (hinside i hai hib).2

theorem sortedOn (h : Rearranged ctx a b s s') {c d : ℕ} (hcd : d ≤ a ∨ b ≤ c)
    (hs : ctx.SortedOn s c d) : ctx.SortedOn s' c d := by
  intro i j hi hij hj
  rw [h.le_iff (by omega) (by omega)]
  exact hs i j hi hij hj

end Rearranged

/-! ## Loops over a range of indices -/

/-- What each index of a range carries on, the whole range carries on. -/
theorem foldl_range'_invariant {τ : Type*} {f : τ → ℕ → τ} {P : ℕ → τ → Prop} {a : ℕ} (m : ℕ)
    (hstep : ∀ i t, a ≤ i → i < a + m → P i t → P (i + 1) (f t i)) {t : τ} (ht : P a t) :
    P (a + m) ((List.range' a m).foldl f t) := by
  induction m with
  | zero => exact ht
  | succ m ih =>
    rw [List.range'_1_concat, List.foldl_append]
    exact hstep (a + m) _ (by omega) (by omega)
      (ih fun i t hi him => hstep i t hi (by omega))

/-- The same, with the last index first. -/
theorem foldl_reverse_range'_invariant {τ : Type*} {f : τ → ℕ → τ} {P : ℕ → τ → Prop} {a : ℕ}
    (m : ℕ) (hstep : ∀ i t, a ≤ i → i < a + m → P (i + 1) t → P i (f t i)) {t : τ}
    (ht : P (a + m) t) : P a ((List.range' a m).reverse.foldl f t) := by
  induction m generalizing t with
  | zero => exact ht
  | succ m ih =>
    rw [List.range'_1_concat, List.reverse_append, List.foldl_append]
    exact ih (fun i t hi him => hstep i t hi (by omega))
      (hstep (a + m) t (by omega) (by omega) ht)

/-! ## Insertion -/

section Insertion

variable (h : Lawful ctx n)

include h

theorem insertLeft_rearranged {a b j : ℕ} (haj : a ≤ j) (hjb : j < b) (hb : b ≤ n) (s : σ) :
    Rearranged ctx a b s (insertLeft ctx a j s) := by
  induction j generalizing s with
  | zero => exact Rearranged.refl a b s
  | succ j ih =>
    rw [insertLeft]
    split
    · rename_i hless
      exact (Rearranged.swap h haj hjb (by omega) (by omega) hb s).trans
        (ih (by omega) (by omega) _)
    · exact Rearranged.refl a b s

/-- **An item goes left to its place**, when the others are sorted and it is not greater than those
behind it. -/
theorem insertLeft_sortedOn {a b j : ℕ} (hjb : j < b) (hb : b ≤ n) {s : σ}
    (hs : ∀ i k, a ≤ i → i < k → k < b → k ≠ j → ctx.Le s i k) :
    ctx.SortedOn (insertLeft ctx a j s) a b := by
  induction j generalizing s with
  | zero => exact fun i k hi hik hk => hs i k hi hik hk (by omega)
  | succ j ih =>
    rw [insertLeft]
    split
    · rename_i hless
      -- the item is at `j` now, and its left neighbour where it was
      refine ih (by omega) fun i k hi hik hk hkj => ?_
      rw [h.le_swap (by omega) (by omega)]
      by_cases hkj' : k = j + 1
      · subst hkj'
        rw [Equiv.swap_apply_left]
        by_cases hij : i = j
        · subst hij
          rw [Equiv.swap_apply_right]
          exact h.le_of_lessThan hless.2
        · rw [Equiv.swap_apply_of_ne_of_ne (by omega) hij]
          exact hs i j hi (by omega) (by omega) (by omega)
      · rw [Equiv.swap_apply_of_ne_of_ne hkj' hkj, Equiv.swap_apply_def]
        split
        · exact hs j k (by omega) (by omega) hk hkj'
        split
        · exact hs (j + 1) k (by omega) (by omega) hk hkj'
        · exact hs i k hi hik hk hkj'
    · rename_i hstop
      intro i k hi hik hk
      by_cases hkj : k = j + 1
      · subst hkj
        have hle : ctx.Le s j (j + 1) :=
          (ctx.le_or_lessThan s j (j + 1)).resolve_right fun hless => hstop ⟨by omega, hless⟩
        by_cases hij : i = j
        · rwa [hij]
        · exact h.le_trans (by omega) (hs i j hi (by omega) (by omega) (by omega)) hle
      · exact hs i k hi hik hk hkj

theorem insertionContext_sorted {a b : ℕ} (hb : b ≤ n) (s : σ) :
    Rearranged ctx a b s (insertionContext ctx a b s) ∧
      ctx.SortedOn (insertionContext ctx a b s) a b := by
  by_cases hab : b ≤ a + 1
  · rw [insertionContext, Nat.sub_eq_zero_of_le hab]
    exact ⟨Rearranged.refl a b s, Context.sortedOn_of_le hab s⟩
  · have hinserted := foldl_range'_invariant (f := fun s i => insertLeft ctx a i s)
      (P := fun i s' => Rearranged ctx a b s s' ∧ ctx.SortedOn s' a i) (a := a + 1) (b - (a + 1))
      (fun i s' hi hib hs' => ⟨hs'.1.trans (insertLeft_rearranged h (by omega) (by omega) hb s'),
        insertLeft_sortedOn h (by omega) (by omega) fun j k hj hjk hk hki =>
          hs'.2 j k hj hjk (by omega)⟩)
      ⟨Rearranged.refl a b s, Context.sortedOn_of_le (le_refl (a + 1)) s⟩
    rwa [show a + 1 + (b - (a + 1)) = b by omega] at hinserted

end Insertion

/-! ## The heap -/

/-- `c` is a child of `p` in the heap that begins at `a`. -/
def IsChild (a p c : ℕ) : Prop := c = (p - a) * 2 + a + 1 ∨ c = (p - a) * 2 + a + 2

/-- No item from `lo` on is less than its children. -/
def Context.HeapOn (ctx : Context σ) (s : σ) (a b lo : ℕ) : Prop :=
  ∀ p c, lo ≤ p → IsChild a p c → c < b → ctx.Le s c p

/-- A heap but for the item at `cur`, which may be less than its children; they are not greater than
its parent. -/
structure Sinking (ctx : Context σ) (s : σ) (a b lo cur : ℕ) : Prop where
  except : ∀ p c, lo ≤ p → p ≠ cur → IsChild a p c → c < b → ctx.Le s c p
  grand : ∀ p c, lo ≤ p → IsChild a p cur → IsChild a cur c → c < b → ctx.Le s c p

/-- An item without children has sunk. -/
theorem Sinking.heapOn_of_leaf {s : σ} {a b lo cur : ℕ} (hsink : Sinking ctx s a b lo cur)
    (hleaf : b ≤ (cur - a) * 2 + a + 1) : ctx.HeapOn s a b lo := by
  intro p c hp hc hcb
  refine hsink.except p c hp ?_ hc hcb
  rintro rfl
  unfold IsChild at hc
  omega

/-- The items from `i` on have been taken off the heap in front of them, the greatest first. -/
structure Popped (ctx : Context σ) (s : σ) (a b i : ℕ) : Prop where
  heap : ctx.HeapOn s a i a
  sorted : ctx.SortedOn s i b
  apart : ∀ j k, a ≤ j → j < i → i ≤ k → k < b → ctx.Le s j k

section Heap

variable (h : Lawful ctx n)

include h

/-- The greater of the two children. -/
theorem greaterChild_spec {a b cur : ℕ} (hchild : (cur - a) * 2 + a + 1 < b) (s : σ) :
    ∃ child, (if (cur - a) * 2 + a + 1 + 1 < b ∧
          ctx.lessThan s ((cur - a) * 2 + a + 1) ((cur - a) * 2 + a + 1 + 1)
        then (cur - a) * 2 + a + 1 + 1 else (cur - a) * 2 + a + 1) = child ∧
      IsChild a cur child ∧ child < b ∧ ∀ c, IsChild a cur c → c < b → ctx.Le s c child := by
  refine ⟨_, rfl, ?_⟩
  split
  · rename_i hnext
    refine ⟨.inr rfl, hnext.1, fun c hc _ => ?_⟩
    rcases hc with rfl | rfl
    · exact h.le_of_lessThan hnext.2
    · exact h.le_refl s _
  · rename_i hnext
    refine ⟨.inl rfl, hchild, fun c hc hcb => ?_⟩
    rcases hc with rfl | rfl
    · exact h.le_refl s _
    · exact (ctx.le_or_lessThan s _ _).resolve_right fun hless => hnext ⟨hcb, hless⟩

/-- The item at `cur` changes places with its greater child, and sinks from there. -/
theorem Sinking.swap {s : σ} {a b lo cur child : ℕ} (hsink : Sinking ctx s a b lo cur)
    (ha : a ≤ lo) (hlo : lo ≤ cur) (hb : b ≤ n) (hchild : IsChild a cur child) (hchildb : child < b)
    (hgreater : ∀ c, IsChild a cur c → c < b → ctx.Le s c child) (hle : ctx.Le s cur child) :
    Sinking ctx (ctx.swap s child cur) a b lo child := by
  have hlt : cur < child := by
    unfold IsChild at hchild
    omega
  refine ⟨fun p c hp hpc hc hcb => ?_, fun p c hp hpc hc hcb => ?_⟩
  · rw [h.le_swap (by omega) (by omega)]
    by_cases hpcur : p = cur
    · -- the old child is not less than the other one, nor than the item
      subst hpcur
      rw [Equiv.swap_apply_right]
      by_cases hcc : c = child
      · rwa [hcc, Equiv.swap_apply_left]
      · have hcp : c ≠ p := by
          unfold IsChild at hc
          omega
        rw [Equiv.swap_apply_of_ne_of_ne hcc hcp]
        exact hgreater c hc hcb
    · rw [Equiv.swap_apply_of_ne_of_ne hpc hpcur]
      by_cases hccur : c = cur
      · subst hccur
        rw [Equiv.swap_apply_right]
        exact hsink.grand p child hp hc hchild hchildb
      · have hcc : c ≠ child := by
          unfold IsChild at hc hchild
          omega
        rw [Equiv.swap_apply_of_ne_of_ne hcc hccur]
        exact hsink.except p c hp hpcur hc hcb
  · -- the parent of the child is where the item was
    obtain rfl : p = cur := by
      unfold IsChild at hpc hchild
      omega
    have hltc : child < c := by
      unfold IsChild at hc
      omega
    rw [h.le_swap (by omega) (by omega), Equiv.swap_apply_right,
      Equiv.swap_apply_of_ne_of_ne (by omega) (by omega)]
    exact hsink.except child c (by omega) (by omega) hc hcb

/-- **An item sinks to its place in the heap.** -/
theorem siftDown_spec {a b lo cur fuel : ℕ} {s : σ} (ha : a ≤ lo) (hlo : lo ≤ cur) (hb : b ≤ n)
    (hfuel : b ≤ cur + fuel) (hsink : Sinking ctx s a b lo cur) :
    Rearranged ctx a b s (siftDown ctx a b fuel cur s) ∧
      ctx.HeapOn (siftDown ctx a b fuel cur s) a b lo := by
  induction fuel generalizing cur s with
  | zero => exact ⟨Rearranged.refl a b s, hsink.heapOn_of_leaf (by omega)⟩
  | succ fuel ih =>
    rw [siftDown]
    dsimp only
    split
    · rename_i hin
      obtain ⟨child, hdef, hchild, hchildb, hgreater⟩ := greaterChild_spec h hin s
      rw [hdef]
      have hlt : cur < child := by
        unfold IsChild at hchild
        omega
      split
      · rename_i hless
        refine ⟨Rearranged.refl a b s, fun p c hp hc hcb => ?_⟩
        by_cases hpcur : p = cur
        · subst hpcur
          exact h.le_trans (by omega) (hgreater c hc hcb) (h.le_of_lessThan hless)
        · exact hsink.except p c hp hpcur hc hcb
      · rename_i hless
        have hle : ctx.Le s cur child := (ctx.le_or_lessThan s cur child).resolve_right hless
        have hsink' := hsink.swap h ha hlo hb hchild hchildb hgreater hle
        have hrest := ih (by omega) (by omega) hsink'
        exact ⟨(Rearranged.swap h (by omega) hchildb (by omega) (by omega) hb s).trans hrest.1,
          hrest.2⟩
    · rename_i hstop
      exact ⟨Rearranged.refl a b s, hsink.heapOn_of_leaf (by omega)⟩

/-- The first item of a heap is not less than any other. -/
theorem Context.HeapOn.le_top {s : σ} {a b : ℕ} (hs : ctx.HeapOn s a b a) (hb : b ≤ n) {i : ℕ}
    (hai : a ≤ i) (hib : i < b) : ctx.Le s i a := by
  induction i using Nat.strong_induction_on with
  | _ i ih =>
    by_cases hia : i = a
    · rw [hia]
      exact h.le_refl s a
    · have hparent : IsChild a (a + (i - a - 1) / 2) i := by
        unfold IsChild
        omega
      exact h.le_trans (by omega) (hs _ i (by omega) hparent hib)
        (ih _ (by omega) (by omega) (by omega))

/-- The first item of the heap is put before those that have been taken off. -/
theorem Popped.pop {s : σ} {a b i : ℕ} (hs : Popped ctx s a b (i + 1)) (hai : a ≤ i) (hib : i < b)
    (hb : b ≤ n) :
    Rearranged ctx a b s (siftDown ctx a i i a (ctx.swap s a i)) ∧
      Popped ctx (siftDown ctx a i i a (ctx.swap s a i)) a b i := by
  have hswap := Rearranged.swap h (le_refl a) (by omega) hai (Nat.lt_succ_self i)
    (by omega : i + 1 ≤ n) s
  have htop : ∀ j, a ≤ j → j < i → ctx.Le (ctx.swap s a i) j i := by
    intro j haj hji
    have hold : a ≤ Equiv.swap a i j ∧ Equiv.swap a i j < i + 1 := by
      rw [Equiv.swap_apply_def]
      split_ifs <;> omega
    rw [h.le_swap (by omega) (by omega), Equiv.swap_apply_right]
    exact hs.heap.le_top h (by omega) hold.1 hold.2
  have hover : ∀ j k, a ≤ j → j < i + 1 → i + 1 ≤ k → k < b → ctx.Le (ctx.swap s a i) j k :=
    fun j k haj hji hik hkb => hswap.le_of_above (.inr hik)
      (fun j haj hji => hs.apart j k haj hji hik hkb) haj hji
  have hsink : Sinking ctx (ctx.swap s a i) a i a a := by
    refine ⟨fun p c hp hpa hc hci => ?_, fun p c hp hpa => ?_⟩
    · have hpc : p < c := by
        unfold IsChild at hc
        omega
      rw [h.le_swap (by omega) (by omega), Equiv.swap_apply_of_ne_of_ne (by omega) (by omega),
        Equiv.swap_apply_of_ne_of_ne hpa (by omega)]
      exact hs.heap p c hp hc (by omega)
    · unfold IsChild at hpa
      omega
  obtain ⟨hsift, hheap⟩ := siftDown_spec h (le_refl a) (le_refl a) (by omega)
    (Nat.le_add_left i a) hsink
  refine ⟨(hswap.mono (le_refl a) (by omega)).trans (hsift.mono (le_refl a) (by omega)), hheap,
    hsift.sortedOn (.inr (le_refl i)) fun j k hj hjk hk => ?_,
    fun j k haj hji hik hkb => hsift.le_of_above (.inr hik) (fun j haj hji => ?_) haj hji⟩
  · by_cases hji : j = i
    · subst hji
      exact hover j k hai (Nat.lt_succ_self j) hjk hk
    · exact hswap.sortedOn (.inr (le_refl _)) hs.sorted j k (by omega) hjk hk
  · by_cases hki : k = i
    · rw [hki]
      exact htop j haj hji
    · exact hover j k haj (by omega) (by omega) hkb

theorem heapContext_sorted {a b : ℕ} (hab : a ≤ b) (hb : b ≤ n) (s : σ) :
    Rearranged ctx a b s (heapContext ctx a b s) ∧
      ctx.SortedOn (heapContext ctx a b s) a b := by
  -- the heap is built from its last parent to its first
  have hbuild := foldl_reverse_range'_invariant (f := fun s i => siftDown ctx a b b i s)
    (P := fun i s' => Rearranged ctx a b s s' ∧ ctx.HeapOn s' a b i) (a := a) ((b - a) / 2)
    (fun i s' hi _ hs' => by
      have hsink : Sinking ctx s' a b i i :=
        ⟨fun p c hp hpi => hs'.2 p c (by omega), fun p c hp hc => by
          unfold IsChild at hc
          omega⟩
      have hsift := siftDown_spec h hi (le_refl i) hb (Nat.le_add_left b i) hsink
      exact ⟨hs'.1.trans hsift.1, hsift.2⟩)
    ⟨Rearranged.refl a b s, fun p c hp hc hcb => by
      unfold IsChild at hc
      omega⟩
  rw [heapContext]
  generalize (List.range' a ((b - a) / 2)).reverse.foldl _ s = heap at hbuild ⊢
  have hpop := foldl_reverse_range'_invariant
    (f := fun s i => siftDown ctx a i i a (ctx.swap s a i))
    (P := fun i s' => Rearranged ctx a b s s' ∧ Popped ctx s' a b i) (a := a) (b - a)
    (fun i s' hi hib hs' => by
      have hpopped := hs'.2.pop h hi (by omega) hb
      exact ⟨hs'.1.trans hpopped.1, hpopped.2⟩)
    ⟨hbuild.1, by
      rw [show a + (b - a) = b by omega]
      exact ⟨hbuild.2, Context.sortedOn_of_le (Nat.le_succ b) heap, fun j k _ _ _ _ => by omega⟩⟩
  exact ⟨hpop.1, hpop.2.sorted⟩

end Heap

/-! ## Mending -/

section Mend

variable (h : Lawful ctx n)

include h

/-- The shift to the left stops at the front of the range, where nothing before is greater. -/
theorem shiftLeft_eq_insertLeft {a b j : ℕ} (haj : a ≤ j) (hjb : j < b) (hb : b ≤ n) {s : σ}
    (hbelow : ∀ i k, i < a → a ≤ k → k < b → ctx.Le s i k) :
    shiftLeft ctx j s = insertLeft ctx a j s := by
  induction j generalizing s with
  | zero => rfl
  | succ j ih =>
    rw [shiftLeft, insertLeft]
    by_cases haj' : a ≤ j
    · have hswap := Rearranged.swap h haj hjb haj' (by omega) hb s
      rw [ih haj' (by omega) fun i k hia hak hkb =>
        hswap.le_of_below (.inl hia) (fun k hak hkb => hbelow i k hia hak hkb) hak hkb]
      simp only [Nat.lt_succ_of_le haj', true_and]
    · have hstop : ctx.lessThan s (j + 1) j = false := hbelow j (j + 1) (by omega) haj hjb
      simp only [hstop, Bool.false_eq_true, and_false, if_false]

theorem shiftRight_rearranged {a b j fuel : ℕ} (haj : a ≤ j) (hfuel : j + fuel < b) (hb : b ≤ n)
    (s : σ) : Rearranged ctx a b s (shiftRight ctx fuel j s) := by
  induction fuel generalizing j s with
  | zero => exact Rearranged.refl a b s
  | succ fuel ih =>
    rw [shiftRight]
    split
    · exact (Rearranged.swap h (by omega) (by omega) haj (by omega) hb s).trans
        (ih (by omega) (by omega) _)
    · exact Rearranged.refl a b s

/-- What the scan passes is sorted. -/
theorem nextInversion_sortedOn {a i fuel : ℕ} (hai : a < i) (hfuel : i + fuel ≤ n) {s : σ}
    (hs : ctx.SortedOn s a i) : ctx.SortedOn s a (nextInversion ctx s fuel i) := by
  induction fuel generalizing i with
  | zero => exact hs
  | succ fuel ih =>
    rw [nextInversion]
    split
    · exact hs
    · rename_i hle
      exact ih (by omega) (by omega)
        (h.sortedOn_succ hai (by omega) hs (Bool.eq_false_iff.mpr hle))

/-- One round: the smaller of the two items goes left to its place, and the greater one right. -/
theorem mendInversion_spec {a b k : ℕ} (hak : a < k) (hkb : k < b) (hb : b ≤ n) {s : σ}
    (hbelow : ∀ i j, i < a → a ≤ j → j < b → ctx.Le s i j) (hs : ctx.SortedOn s a k) :
    let s₁ := ctx.swap s k (k - 1)
    let s₂ := if 2 ≤ k - a then shiftLeft ctx (k - 1) s₁ else s₁
    let s₃ := if 2 ≤ b - k then shiftRight ctx (b - (k + 1)) k s₂ else s₂
    Rearranged ctx a b s s₃ ∧ ctx.SortedOn s₃ a k := by
  intro s₁ s₂ s₃
  have hswap : Rearranged ctx (k - 1) (k + 1) s s₁ :=
    Rearranged.swap h (by omega) (by omega) (le_refl (k - 1)) (by omega) (by omega) s
  have hswap' := hswap.mono (by omega : a ≤ k - 1) (by omega : k + 1 ≤ b)
  have hleft : Rearranged ctx a b s₁ s₂ ∧ ctx.SortedOn s₂ a k := by
    unfold s₂
    split
    · have hsorted₁ := hswap.sortedOn (.inl (le_refl (k - 1))) (hs.mono (le_refl a) (by omega))
      rw [shiftLeft_eq_insertLeft h (by omega) (by omega : k - 1 < b) hb fun i j hia haj hjb =>
        hswap'.le_of_below (.inl hia) (fun j haj hjb => hbelow i j hia haj hjb) haj hjb]
      exact ⟨insertLeft_rearranged h (by omega) (by omega) hb s₁,
        insertLeft_sortedOn h (by omega) (by omega) fun i j hi hij hj hjk =>
          hsorted₁ i j hi hij (by omega)⟩
    · exact ⟨Rearranged.refl a b s₁, Context.sortedOn_of_le (by omega) s₁⟩
  have hright : Rearranged ctx k b s₂ s₃ := by
    unfold s₃
    split
    · exact shiftRight_rearranged h (le_refl k) (by omega) hb s₂
    · exact Rearranged.refl k b s₂
  exact ⟨(hswap'.trans hleft.1).trans (hright.mono (by omega) (le_refl b)),
    hright.sortedOn (.inl (le_refl k)) hleft.2⟩

theorem partialLoop_spec {a b steps i : ℕ} (hai : a < i) (hib : i ≤ b) (hb : b ≤ n) {s : σ}
    (hbelow : ∀ i j, i < a → a ≤ j → j < b → ctx.Le s i j) (hs : ctx.SortedOn s a i) :
    Rearranged ctx a b s (partialLoop ctx a b steps i s).1 ∧
      ((partialLoop ctx a b steps i s).2 = true →
        ctx.SortedOn (partialLoop ctx a b steps i s).1 a b) := by
  induction steps generalizing i s with
  | zero => exact ⟨Rearranged.refl a b s, fun hmended => Bool.noConfusion hmended⟩
  | succ steps ih =>
    rw [partialLoop]
    dsimp only
    obtain ⟨hik, hkb, -⟩ := nextInversion_spec ctx s (b - i) i
    have hscanned := nextInversion_sortedOn h hai (by omega : i + (b - i) ≤ n) hs
    generalize nextInversion ctx s (b - i) i = k at hik hkb hscanned ⊢
    split
    · rename_i heq
      exact ⟨Rearranged.refl a b s, fun _ => heq ▸ hscanned⟩
    rename_i hne
    split
    · exact ⟨Rearranged.refl a b s, fun hmended => Bool.noConfusion hmended⟩
    obtain ⟨hmend, hsorted⟩ := mendInversion_spec h (by omega) (by omega) hb hbelow hscanned
    obtain ⟨hrest, hmended⟩ := ih (by omega) (by omega) (fun i j hia haj hjb =>
      hmend.le_of_below (.inl hia) (fun j haj hjb => hbelow i j hia haj hjb) haj hjb) hsorted
    exact ⟨hmend.trans hrest, hmended⟩

/-- **A range that counts as mended is sorted**, when nothing before it is greater. -/
theorem partialInsertionSort_sorted {a b : ℕ} (hab : a < b) (hb : b ≤ n) {s : σ}
    (hbelow : ∀ i j, i < a → a ≤ j → j < b → ctx.Le s i j) :
    Rearranged ctx a b s (partialInsertionSort ctx a b s).1 ∧
      ((partialInsertionSort ctx a b s).2 = true →
        ctx.SortedOn (partialInsertionSort ctx a b s).1 a b) :=
  partialLoop_spec h (Nat.lt_succ_self a) hab hb hbelow
    (Context.sortedOn_of_le (le_refl (a + 1)) s)

end Mend

end Pdq
