import Mathlib.Data.List.Induction
import Mathlib.Data.List.Nodup
import Mathlib.Logic.Equiv.Defs

/-!
# Greedy orders

Items are placed one after the other.  What is ready may depend on what has been placed, and among
the ready items the one that precedes all others is placed next.

* `Best`, `Prefix`: the next item, and the lists that such choices build.
* `Prefix.isPrefix`: there is only one greedy order, as far as it goes.
* `Prefix.length_le_of_stuck`: and it ends where nothing is ready.
* `Prefix.map`: a renaming of the items renames the greedy order.
* `not_ordered_of_stuck`: where nothing is ready, no order at all serves the items that are left.
* `Prefix.ordered_iff`: a greedy order for a notion of readiness that is too generous is right
  exactly when, at every stage of the order for the strict notion, whatever is ready only by the
  generous one is preceded by something that is ready by both.
-/

universe u v

namespace Greedy

variable {ι : Type u} (ready met : List ι → ι → Prop) (precedes : ι → ι → Prop)

/-- `b` is ready, and precedes whatever else is. -/
structure Best (placed : List ι) (b : ι) : Prop where
  notMem : b ∉ placed
  isReady : ready placed b
  precedesAll : ∀ i ∉ placed, ready placed i → i ≠ b → precedes b i

/-- What choosing the best item again and again builds. -/
inductive Prefix : List ι → Prop where
  | nil : Prefix []
  | snoc {placed : List ι} {b : ι} :
      Prefix placed → Best ready precedes placed b → Prefix (placed ++ [b])

/-- Nothing that is left is ready. -/
def Stuck (placed : List ι) : Prop := ∀ i ∉ placed, ¬ ready placed i

/-- Everything in the list is ready when its turn comes. -/
def Ordered (order : List ι) : Prop :=
  ∀ before i after, order = before ++ i :: after → ready before i

variable {ready met precedes}

/-- There is one best item. -/
theorem Best.eq (hasymm : ∀ i j, precedes i j → ¬ precedes j i) {placed : List ι} {b c : ι}
    (hb : Best ready precedes placed b) (hc : Best ready precedes placed c) : b = c := by
  by_contra hne
  exact hasymm b c (hb.precedesAll c hc.notMem hc.isReady fun h => hne h.symm)
    (hc.precedesAll b hb.notMem hb.isReady hne)

namespace Prefix

theorem nodup {order : List ι} (h : Prefix ready precedes order) : order.Nodup := by
  induction h with
  | nil => exact List.nodup_nil
  | snoc _ hbest ih =>
    rw [← List.concat_eq_append]
    exact ih.concat hbest.notMem

/-- Every item was the best one when it was placed. -/
theorem best {order : List ι} (h : Prefix ready precedes order) {before after : List ι} {i : ι}
    (heq : order = before ++ i :: after) :
    Prefix ready precedes before ∧ Best ready precedes before i := by
  induction h generalizing after with
  | nil => simp at heq
  | snoc hplaced hbest ih =>
    rename_i placed b
    rcases List.eq_nil_or_concat after with rfl | ⟨after, c, rfl⟩
    · obtain ⟨rfl, hb⟩ := List.append_inj' heq rfl
      obtain rfl := List.singleton_inj.mp hb
      exact ⟨hplaced, hbest⟩
    · rw [List.concat_eq_append, ← List.cons_append, ← List.append_assoc] at heq
      exact ih (List.append_inj' heq rfl).1

theorem ordered {order : List ι} (h : Prefix ready precedes order) : Ordered ready order :=
  fun _ _ _ heq => (h.best heq).2.isReady

/-- **There is only one greedy order**: the longer of two starts with the shorter. -/
theorem isPrefix (hasymm : ∀ i j, precedes i j → ¬ precedes j i) {xs ys : List ι}
    (hx : Prefix ready precedes xs) (hy : Prefix ready precedes ys)
    (hle : xs.length ≤ ys.length) : xs <+: ys := by
  induction hx with
  | nil => exact List.nil_prefix
  | snoc hplaced hbest ih =>
    rename_i placed b
    rw [List.length_append, List.length_singleton] at hle
    obtain ⟨rest, rfl⟩ := ih (by omega)
    cases rest with
    | nil =>
      rw [List.append_nil] at hle
      omega
    | cons c rest =>
      obtain rfl := hbest.eq hasymm (hy.best rfl).2
      exact ⟨rest, by simp⟩

/-- No greedy order goes on where nothing is ready. -/
theorem length_le_of_stuck (hasymm : ∀ i j, precedes i j → ¬ precedes j i) {xs ys : List ι}
    (hx : Prefix ready precedes xs) (hstuck : Stuck ready xs) (hy : Prefix ready precedes ys) :
    ys.length ≤ xs.length := by
  by_contra hlt
  obtain ⟨rest, rfl⟩ := hx.isPrefix hasymm hy (by omega)
  cases rest with
  | nil => simp at hlt
  | cons c rest =>
    have hbest := (hy.best rfl).2
    exact hstuck c hbest.notMem hbest.isReady

/-! ## Renaming the items -/

variable {κ : Type v} {ready' : List κ → κ → Prop} {precedes' : κ → κ → Prop}

/-- The order of the renamed items is the renamed order. -/
theorem map (e : ι ≃ κ) (hready : ∀ placed i, ready' (placed.map e) (e i) ↔ ready placed i)
    (hprecedes : ∀ i j, i ≠ j → precedes i j → precedes' (e i) (e j)) {xs : List ι}
    (h : Prefix ready precedes xs) : Prefix ready' precedes' (xs.map e) := by
  induction h with
  | nil => exact nil
  | snoc hplaced hbest ih =>
    rename_i placed b
    rw [List.map_append]
    refine ih.snoc ⟨?_, (hready placed b).mpr hbest.isReady, fun k hk hkr hne => ?_⟩
    · rw [List.mem_map_of_injective e.injective]
      exact hbest.notMem
    · obtain ⟨i, rfl⟩ := e.surjective k
      rw [List.mem_map_of_injective e.injective] at hk
      have hib : i ≠ b := fun h => hne (congrArg e h)
      exact hprecedes b i hib.symm (hbest.precedesAll i hk ((hready placed i).mp hkr) hib)

end Prefix

/-- What is stuck stays stuck under other names. -/
theorem Stuck.map {κ : Type v} {ready' : List κ → κ → Prop} (e : ι ≃ κ)
    (hready : ∀ placed i, ready' (placed.map e) (e i) ↔ ready placed i) {placed : List ι}
    (h : Stuck ready placed) : Stuck ready' (placed.map e) := by
  intro k hk hkr
  obtain ⟨i, rfl⟩ := e.surjective k
  rw [List.mem_map_of_injective e.injective] at hk
  exact h i hk ((hready placed i).mp hkr)

/-- **Where nothing is ready, no order serves what is left.**  The first item of the order that
is left has only placed items before it, so it would be ready. -/
theorem not_ordered_of_stuck (hmono : ∀ xs ys i, xs ⊆ ys → met xs i → ready ys i)
    {placed order : List ι} (hstuck : Stuck ready placed) {x : ι} (hx : x ∈ order)
    (hleft : x ∉ placed) : ¬ Ordered met order := by
  intro hord
  have hpre (before : List ι) : ∀ after, order = before ++ after → before ⊆ placed := by
    induction before using List.reverseRecOn with
    | nil => exact fun _ _ => List.nil_subset placed
    | append_singleton before i ih =>
      intro after heq
      rw [List.append_assoc] at heq
      have hbefore := ih _ heq
      refine List.append_subset.mpr ⟨hbefore, List.cons_subset.mpr ⟨?_, List.nil_subset _⟩⟩
      by_contra hi
      exact hstuck i hi (hmono before placed i hbefore (hord before i after heq))
  exact hleft (hpre order [] (List.append_nil order).symm hx)

/-- **When a generous notion of readiness does no harm.**  `met` is the strict notion, and a
greedy order by the generous one places everything. -/
theorem Prefix.ordered_iff (hasymm : ∀ i j, precedes i j → ¬ precedes j i)
    (hready : ∀ placed i, met placed i → ready placed i) {order : List ι}
    (horder : Prefix ready precedes order) (hall : ∀ i, i ∈ order) :
    Ordered met order ↔
      ∀ placed, Prefix met precedes placed → ∀ j ∉ placed, ready placed j → ¬ met placed j →
        ∃ i ∉ placed, met placed i ∧ precedes i j := by
  -- what is best by the generous notion and strictly ready is best by the strict notion
  have hstrict {placed : List ι} {b : ι} (hb : Best ready precedes placed b)
      (hm : met placed b) : Best met precedes placed b :=
    ⟨hb.notMem, hm, fun i hi hmi => hb.precedesAll i hi (hready placed i hmi)⟩
  constructor
  · intro hord placed hplaced j hj hrj hmj
    have hnext {placed : List ι} (hpre : placed <+: order) {j : ι} (hj : j ∉ placed) :
        ∃ c, placed ++ [c] <+: order ∧ Best ready precedes placed c ∧ met placed c := by
      obtain ⟨rest, heq⟩ := hpre
      cases rest with
      | nil =>
        rw [List.append_nil] at heq
        exact absurd (heq ▸ hall j) hj
      | cons c rest =>
        exact ⟨c, ⟨rest, by rw [List.append_assoc, List.singleton_append, heq]⟩,
          (horder.best heq.symm).2, hord placed c rest heq.symm⟩
    have hpre : placed <+: order := by
      clear hj hrj hmj
      induction hplaced with
      | nil => exact List.nil_prefix
      | snoc hprev hbest ih =>
        obtain ⟨c, hpre, hc, hmet⟩ := hnext ih hbest.notMem
        rw [hbest.eq hasymm (hstrict hc hmet)]
        exact hpre
    obtain ⟨c, -, hbest, hmet⟩ := hnext hpre hj
    exact ⟨c, hbest.notMem, hmet, hbest.precedesAll j hj hrj fun h => hmj (h ▸ hmet)⟩
  · intro hcond
    have hmet {before : List ι} {b : ι} (hprev : Prefix met precedes before)
        (hbest : Best ready precedes before b) : met before b := by
      by_contra hno
      obtain ⟨i, hi, hmi, hib⟩ := hcond before hprev b hbest.notMem hbest.isReady hno
      have hne : i ≠ b := fun h => hno (h ▸ hmi)
      exact hasymm i b hib (hbest.precedesAll i hi (hready before i hmi) hne)
    have hpre (before : List ι) : ∀ after, order = before ++ after →
        Prefix met precedes before := by
      induction before using List.reverseRecOn with
      | nil => exact fun _ _ => Prefix.nil
      | append_singleton before b ih =>
        intro after heq
        rw [List.append_assoc] at heq
        have hprev := ih _ heq
        have hbest := (horder.best heq).2
        exact hprev.snoc (hstrict hbest (hmet hprev hbest))
    exact fun before b after heq => hmet (hpre before _ heq) (horder.best heq).2

end Greedy
