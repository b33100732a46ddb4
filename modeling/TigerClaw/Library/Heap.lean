import Mathlib.Data.List.Basic

/-!
# Buffers of an allocator

The buffers that have been allocated, in their order, each until it is freed.  A slice names a
buffer, and the empty slice none.

* `read_alloc`: what a new slice reads.
* `read_alloc_of_read`, `read_free_of_ne`: what an old one still does.
-/

universe u

/-- The contents of the buffers; none where one has been freed. -/
abbrev Heap (α : Type u) : Type u := List (Option (List α))

namespace Heap

/-- A slice; none is the empty one. -/
abbrev Slice := Option ℕ

variable {α : Type u}

/-- What is read through a slice; none if its buffer has been freed. -/
def read (self : Heap α) : Slice → Option (List α)
  | none => some []
  | some i => self[i]?.join

/-- A slice with the given contents; the empty one needs no buffer. -/
def alloc (self : Heap α) : List α → Heap α × Slice
  | [] => (self, none)
  | x :: xs => (self ++ [some (x :: xs)], some self.length)

def free (self : Heap α) : Slice → Heap α
  | none => self
  | some i => self.set i none

theorem read_alloc (self : Heap α) (xs : List α) :
    read (self.alloc xs).1 (self.alloc xs).2 = some xs := by
  cases xs with
  | nil => rfl
  | cons x xs =>
    show (self ++ [some (x :: xs)])[self.length]?.join = _
    rw [List.getElem?_concat_length]
    rfl

/-- A new buffer is beside the others. -/
theorem read_alloc_of_read {self : Heap α} {s : Slice} {ys : List α} (h : self.read s = some ys)
    (xs : List α) : read (self.alloc xs).1 s = some ys := by
  cases xs with
  | nil => exact h
  | cons x xs =>
    cases s with
    | none => exact h
    | some i =>
      have hlt : i < self.length := by
        by_contra hge
        rw [read, List.getElem?_eq_none (Nat.le_of_not_lt hge)] at h
        exact nomatch h
      show (self ++ [some (x :: xs)])[i]?.join = _
      rw [List.getElem?_append_left hlt]
      exact h

/-- What is freed is freed, and the rest is as it was. -/
theorem read_free_of_ne {s t : Slice} (self : Heap α) (h : ∀ i ∈ t, s ≠ some i) :
    read (self.free t) s = self.read s := by
  cases t with
  | none => rfl
  | some j =>
    cases s with
    | none => rfl
    | some i =>
      have hij : j ≠ i := fun hji => h j rfl (congrArg some hji.symm)
      show (self.set j none)[i]?.join = _
      rw [List.getElem?_set_ne hij]
      rfl

end Heap
