import Mathlib.Data.List.Basic

/-!
# The last entry that satisfies a test

* `At`, `split`: a list has no such entry, or is split at the last one.
* `modify`: one entry changes, the last one that satisfies the test.
* `At.filter`: the last of all is the last of those that are kept.
-/

namespace LastMatch

universe u

variable {α : Type u}

/-- The last entry of the list that satisfies `q`, with what is before and after it. -/
structure At (q : α → Bool) (l before : List α) (x : α) (after : List α) : Prop where
  eq : l = before ++ x :: after
  holds : q x = true
  last : ∀ y ∈ after, q y = false

theorem split (q : α → Bool) (l : List α) :
    (∀ x ∈ l, q x = false) ∨ ∃ before x after, At q l before x after := by
  induction l with
  | nil => exact .inl fun _ h => nomatch h
  | cons a l ih =>
    rcases ih with hnone | ⟨before, x, after, rfl, hx, hlast⟩
    · by_cases ha : q a = true
      · exact .inr ⟨[], a, l, rfl, ha, hnone⟩
      · refine .inl fun x hx => ?_
        rcases List.mem_cons.mp hx with rfl | hx
        · exact Bool.eq_false_iff.mpr ha
        · exact hnone x hx
    · exact .inr ⟨a :: before, x, after, rfl, hx, hlast⟩

/-- The last entry that satisfies `q` changes. -/
def modify (q : α → Bool) (f : α → α) : List α → List α
  | [] => []
  | x :: l => if l.any q then x :: modify q f l else if q x then f x :: l else x :: l

theorem modify_of_forall_not {q : α → Bool} (f : α → α) {l : List α} (h : ∀ x ∈ l, q x = false) :
    modify q f l = l := by
  cases l with
  | nil => rfl
  | cons x l =>
    have hany : l.any q = false := List.any_eq_false.mpr fun y hy => by
      rw [h y (List.mem_cons_of_mem _ hy)]
      simp
    rw [modify, hany, h x List.mem_cons_self]
    rfl

theorem modify_at {q : α → Bool} (f : α → α) {l before after : List α} {x : α}
    (h : At q l before x after) : modify q f l = before ++ f x :: after := by
  obtain ⟨rfl, hx, hlast⟩ := h
  induction before with
  | nil =>
    have hany : after.any q = false := List.any_eq_false.mpr fun y hy => by
      rw [hlast y hy]
      simp
    rw [List.nil_append, modify, hany, hx]
    rfl
  | cons a before ih =>
    have hany : (before ++ x :: after).any q = true :=
      List.any_eq_true.mpr ⟨x, List.mem_append_right _ List.mem_cons_self, hx⟩
    rw [List.cons_append, modify, if_pos hany, ih, List.cons_append]

/-- The entry at a place changes. -/
theorem modify_length (f : α → α) (before after : List α) (x : α) :
    (before ++ x :: after).modify before.length f = before ++ f x :: after := by
  induction before with
  | nil => rfl
  | cons a before ih =>
    rw [List.cons_append, List.length_cons, List.modify_succ_cons, ih, List.cons_append]

theorem getElem?_length (before after : List α) (x : α) :
    (before ++ x :: after)[before.length]? = some x := by
  rw [List.getElem?_append_right (Nat.le_refl _), Nat.sub_self, List.getElem?_cons_zero]

/-- What is the last of all is the last of those that are kept. -/
theorem At.filter {q m : α → Bool} {l before after : List α} {x : α} (h : At q l before x after)
    (hm : m x = true) : At q (l.filter m) (before.filter m) x (after.filter m) where
  eq := by rw [h.eq, List.filter_append, List.filter_cons_of_pos hm]
  holds := h.holds
  last y hy := h.last y (List.mem_filter.mp hy).1

end LastMatch
