import Mathlib.Data.List.Rotate
import Mathlib.Data.Nat.ModEq

/-!
# Bounded queues that drop their oldest entry, and rings of cells

The specification is a list: `BoundedFifo.push` appends, after dropping the head if the list
has reached the capacity, and `BoundedFifo.pop` takes the head.

The representation is a ring: a list of cells, the index of the oldest entry and the number of
entries.  `Ring.contents` reads the entries off in order, as the first `len` cells of the ring
turned so that `head` comes first.

* `Ring.contents_set`: writing behind the last entry appends;
* `Ring.contents_advance`: moving the head on drops the oldest entry;
* `Ring.getElem?_head`: the cell at the head holds the oldest entry;
* `BoundedFifo.length_push`, `BoundedFifo.push_sublist`: what a push can do to the length and to
  the order.
-/

universe u

variable {α : Type u}

namespace BoundedFifo

/-- Append, dropping the oldest entry of a full queue. -/
def push (cap : ℕ) (queue : List α) (a : α) : List α :=
  if queue.length = cap then queue.tail ++ [a] else queue ++ [a]

/-- The oldest entry and the queue behind it. -/
def pop : List α → Option (α × List α)
  | [] => none
  | a :: queue => some (a, queue)

theorem push_of_lt {cap : ℕ} {queue : List α} (h : queue.length < cap) (a : α) :
    push cap queue a = queue ++ [a] :=
  if_neg h.ne

theorem push_of_full {cap : ℕ} {queue : List α} (h : queue.length = cap) (a : α) :
    push cap queue a = queue.tail ++ [a] :=
  if_pos h

/-- A push drops one entry from a full queue and none from any other. -/
theorem length_push {cap : ℕ} (hcap : 0 < cap) (queue : List α) (a : α) :
    (push cap queue a).length + (if queue.length = cap then 1 else 0) = queue.length + 1 := by
  by_cases hfull : queue.length = cap
  · rw [push_of_full hfull, if_pos hfull, List.length_append, List.length_tail,
      List.length_singleton]
    omega
  · rw [push, if_neg hfull, if_neg hfull, List.length_append, List.length_singleton]

/-- A push keeps the order of what it does not drop. -/
theorem push_sublist (cap : ℕ) (queue : List α) (a : α) :
    (push cap queue a).Sublist (queue ++ [a]) := by
  rw [push]
  split
  · exact (List.tail_sublist queue).append (List.Sublist.refl [a])
  · exact List.Sublist.refl _

end BoundedFifo

namespace Ring

/-- The entries of the ring, oldest first. -/
def contents (cells : List α) (head len : ℕ) : List α := (cells.rotate head).take len

theorem length_contents {cells : List α} {head len : ℕ} (h : len ≤ cells.length) :
    (contents cells head len).length = len := by
  rw [contents, List.length_take, List.length_rotate, Nat.min_eq_left h]

@[simp] theorem contents_zero (cells : List α) (head : ℕ) : contents cells head 0 = [] :=
  List.take_zero

theorem getElem_contents {cells : List α} {head len i : ℕ}
    (h : i < (contents cells head len).length) (hcell : (i + head) % cells.length < cells.length) :
    (contents cells head len)[i] = cells[(i + head) % cells.length] := by
  simp only [contents, List.getElem_take, List.getElem_rotate]

/-- Positions less than a turn apart are different cells. -/
theorem index_inj {cap head i j : ℕ} (hi : i < cap) (hj : j < cap)
    (h : (i + head) % cap = (j + head) % cap) : i = j :=
  Nat.ModEq.eq_of_lt_of_lt (Nat.ModEq.add_right_cancel' head h) hi hj

/-- The cell at the head holds the oldest entry. -/
theorem getElem?_head {cells : List α} {head len : ℕ} (hhead : head < cells.length)
    (hpos : 0 < len) (hlen : len ≤ cells.length) :
    cells[head]? = (contents cells head len).head? := by
  have hlt : 0 < (contents cells head len).length := by rwa [length_contents hlen]
  rw [List.head?_eq_getElem?, List.getElem?_eq_getElem hlt,
    getElem_contents hlt (Nat.mod_lt _ (Nat.zero_lt_of_lt hhead)), List.getElem?_eq_getElem hhead]
  simp only [Nat.zero_add, Nat.mod_eq_of_lt hhead]

/-- **Moving the head on drops the oldest entry**, wherever in the ring it was. -/
theorem contents_advance {cells : List α} {head len : ℕ} (hlen : len ≤ cells.length)
    (hpos : 0 < len) :
    contents cells ((head + 1) % cells.length) (len - 1) = (contents cells head len).tail := by
  have hcells : 0 < cells.length := hpos.trans_le hlen
  apply List.ext_getElem
  · rw [length_contents (by omega), List.length_tail, length_contents hlen]
  · intro i h₁ h₂
    rw [getElem_contents h₁ (Nat.mod_lt _ hcells), List.getElem_tail,
      getElem_contents _ (Nat.mod_lt _ hcells)]
    simp only [Nat.add_mod_mod]
    congr 2
    omega

/-- **Writing behind the last entry appends**, wherever in the ring that is. -/
theorem contents_set {cells : List α} {head len : ℕ} (hlen : len < cells.length) (a : α) :
    contents (cells.set ((head + len) % cells.length) a) head (len + 1)
      = contents cells head len ++ [a] := by
  have hcells : 0 < cells.length := Nat.zero_lt_of_lt hlen
  have hset : 0 < (cells.set ((head + len) % cells.length) a).length := by
    rwa [List.length_set]
  apply List.ext_getElem
  · rw [length_contents (by rw [List.length_set]; omega), List.length_append,
      length_contents hlen.le, List.length_singleton]
  · intro i h₁ h₂
    have hi : i ≤ len := by
      rw [length_contents (by rw [List.length_set]; omega)] at h₁
      omega
    rw [getElem_contents h₁ (Nat.mod_lt _ hset), List.getElem_append]
    simp only [List.length_set, List.getElem_set, Nat.add_comm head len]
    rcases Nat.lt_or_eq_of_le hi with hlt | rfl
    · have hne : (len + head) % cells.length ≠ (i + head) % cells.length := fun h =>
        hlt.ne (index_inj hlen (hlt.trans hlen) h).symm
      rw [if_neg hne, dif_pos (by rwa [length_contents hlen.le]),
        getElem_contents _ (Nat.mod_lt _ hcells)]
    · rw [if_pos rfl, dif_neg (by rw [length_contents hlen.le]; omega), List.getElem_singleton]

end Ring
