import Mathlib.Data.List.AList
import Mathlib.Algebra.BigOperators.Group.List.Basic
import Mathlib.Algebra.Ring.Nat

/-!
# Totals over an association list

`AList` is a finite map that carries the proof that its keys are distinct.  `tally f m` adds
up `f` over its entries; inserting a fresh key adds one term, erasing a key takes its term
away.
-/

namespace AList

universe u v

variable {α : Type u} {β : α → Type v} [DecidableEq α]

omit [DecidableEq α] in
/-- The sum of `f` over the entries. -/
def tally (f : ∀ a, β a → ℕ) (m : AList β) : ℕ := (m.entries.map fun e => f e.1 e.2).sum

variable (f : ∀ a, β a → ℕ)

omit [DecidableEq α] in
@[simp] theorem tally_empty : tally f (∅ : AList β) = 0 := by
  simp [tally]

/-- A fresh key adds its own term. -/
theorem tally_insert_of_notMem {m : AList β} {a : α} (b : β a) (h : a ∉ m) :
    tally f (m.insert a b) = f a b + tally f m := by
  rw [tally, entries_insert_of_notMem h, List.map_cons, List.sum_cons, tally]

/-- An erased key takes its term away. -/
theorem tally_erase {m : AList β} {a : α} {b : β a} (h : m.lookup a = some b) :
    tally f m = f a b + tally f (m.erase a) := by
  have hmem : a ∈ m.entries.keys := mem_keys.mp (lookup_isSome.mp (by rw [h]; rfl))
  obtain ⟨b', l₁, l₂, hnot, hsplit, herase⟩ := List.exists_of_kerase hmem
  have hb : b' = b := by
    have hin : (⟨a, b'⟩ : Sigma β) ∈ m.entries := by rw [hsplit]; simp
    have hlook : m.lookup a = some b' := mem_lookup_iff.mpr hin
    exact Option.some.inj (hlook.symm.trans h)
  subst hb
  have hrest : tally f (m.erase a) = ((l₁ ++ l₂).map fun e => f e.1 e.2).sum := by
    rw [← herase]
    rfl
  rw [hrest, tally, hsplit]
  simp only [List.map_append, List.map_cons, List.sum_append, List.sum_cons]
  omega

end AList
