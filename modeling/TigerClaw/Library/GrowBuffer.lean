import Mathlib.Data.List.Basic
import Mathlib.Order.Lattice

/-!
# A buffer that grows

Lists are appended one after the other to a buffer, and each is viewed where it stands.  A buffer
that is too small is replaced: its contents move to a new one, and the old one is gone, with
whatever was viewed in it.  Clearing the buffer keeps its memory, so what comes next is written over
what was there.

* `GrowBuffer`, `append`, `clear`: the buffer.  `View.read`: what is viewed.
* `read_append_self`: what has just been appended is viewed as it is.
* `read_append_iff`: what an older view still reads.
-/

universe u

/-- How large a new buffer is made, from the old capacity and what has to fit. -/
abbrev Growth : Type := { grow : ℕ → ℕ → ℕ // ∀ capacity minimum, minimum ≤ grow capacity minimum }

/-- The buffer now in use; those with a smaller number are gone. -/
structure GrowBuffer (α : Type u) where
  number : ℕ
  /-- The memory that has been written, also behind `len`. -/
  contents : List α
  len : ℕ
  capacity : ℕ
  len_le : len ≤ contents.length
  contents_le : contents.length ≤ capacity

namespace GrowBuffer

variable {α : Type u}

/-- A part of the buffer of some number. -/
structure View where
  number : ℕ
  offset : ℕ
  length : ℕ

/-- Nothing is read from a buffer that is gone, unless there is nothing to read. -/
def View.read (view : View) (buffer : GrowBuffer α) : Option (List α) :=
  if view.length = 0 then some []
  else if view.number = buffer.number then
    some ((buffer.contents.drop view.offset).take view.length)
  else none

/-- No memory yet. -/
def empty : GrowBuffer α := ⟨0, [], 0, 0, le_refl 0, le_refl 0⟩

/-- A list written over another one. -/
def overwrite (ys : List α) (start : ℕ) (xs : List α) : List α :=
  ys.take start ++ xs ++ ys.drop (start + xs.length)

theorem getElem?_overwrite {ys : List α} {start : ℕ} (hstart : start ≤ ys.length) (xs : List α)
    (k : ℕ) :
    (overwrite ys start xs)[k]? =
      if start ≤ k ∧ k < start + xs.length then xs[k - start]? else ys[k]? := by
  rw [overwrite, List.append_assoc, List.getElem?_append, List.getElem?_append, List.length_take,
    Nat.min_eq_left hstart]
  by_cases hbefore : k < start
  · rw [if_pos hbefore, if_neg (by omega), List.getElem?_take_of_lt hbefore]
  · rw [if_neg hbefore]
    by_cases hin : k - start < xs.length
    · rw [if_pos hin, if_pos (by omega)]
    · rw [if_neg hin, if_neg (by omega), List.getElem?_drop]
      congr 1
      omega

theorem length_overwrite {ys : List α} {start : ℕ} (hstart : start ≤ ys.length) (xs : List α) :
    (overwrite ys start xs).length = max (start + xs.length) ys.length := by
  rw [overwrite, List.length_append, List.length_append, List.length_take, List.length_drop]
  omega

section

variable (grow : Growth) (self : GrowBuffer α)

def Fits (xs : List α) : Prop := self.len + xs.length ≤ self.capacity

instance (xs : List α) : Decidable (self.Fits xs) := inferInstanceAs (Decidable (_ ≤ _))

/-- Where the next list will stand. -/
def next (xs : List α) : View where
  number := if self.Fits xs then self.number else self.number + 1
  offset := self.len
  length := xs.length

/-- In place, or in a new buffer, if one is granted. -/
def append (xs : List α) (granted : Bool) : Option (GrowBuffer α × View) :=
  if h : self.Fits xs then
    some ({ number := self.number
            contents := overwrite self.contents self.len xs
            len := self.len + xs.length
            capacity := self.capacity
            len_le := by
              rw [length_overwrite self.len_le]
              exact le_max_left ..
            contents_le := by
              rw [length_overwrite self.len_le]
              exact max_le h self.contents_le }, self.next xs)
  else if granted then
    some ({ number := self.number + 1
            contents := self.contents.take self.len ++ xs
            len := self.len + xs.length
            capacity := grow.1 self.capacity (self.len + xs.length)
            len_le := by
              rw [List.length_append, List.length_take, Nat.min_eq_left self.len_le]
            contents_le := by
              rw [List.length_append, List.length_take, Nat.min_eq_left self.len_le]
              exact grow.2 .. }, self.next xs)
  else none

/-- The memory is kept. -/
def clear : GrowBuffer α := { self with len := 0, len_le := Nat.zero_le _ }

end

variable {grow : Growth} {self buffer : GrowBuffer α} {xs ys : List α} {granted : Bool}
  {view view' : View}

/-! ## Appending -/

/-- What appending does. -/
theorem append_spec (h : self.append grow xs granted = some (buffer, view)) :
    view = self.next xs ∧ buffer.len = self.len + xs.length ∧
      (self.Fits xs ∧ buffer.number = self.number ∧ buffer.capacity = self.capacity ∧
          buffer.contents = overwrite self.contents self.len xs ∨
        ¬ self.Fits xs ∧ buffer.number = self.number + 1 ∧
          buffer.capacity = grow.1 self.capacity (self.len + xs.length) ∧
          buffer.contents = self.contents.take self.len ++ xs) := by
  rw [append] at h
  split at h
  · rename_i hfits
    obtain ⟨rfl, rfl⟩ := Prod.mk.inj (Option.some.inj h)
    exact ⟨rfl, rfl, .inl ⟨hfits, rfl, rfl, rfl⟩⟩
  · rename_i hfits
    split at h
    · obtain ⟨rfl, rfl⟩ := Prod.mk.inj (Option.some.inj h)
      exact ⟨rfl, rfl, .inr ⟨hfits, rfl, rfl, rfl⟩⟩
    · cases h

/-- **What has been appended is viewed as it is.** -/
theorem read_append_self (h : self.append grow xs granted = some (buffer, view)) :
    view.read buffer = some xs := by
  obtain ⟨rfl, -, hcases⟩ := append_spec h
  rw [View.read, next]
  by_cases hxs : xs.length = 0
  · rw [if_pos hxs, List.length_eq_zero_iff.mp hxs]
  · rw [if_neg hxs]
    rcases hcases with ⟨hfits, hnumber, -, hcontents⟩ | ⟨hfits, hnumber, -, hcontents⟩
    · rw [if_pos (by rw [if_pos hfits, hnumber]), hcontents, overwrite, List.append_assoc,
        List.drop_left' (by rw [List.length_take, Nat.min_eq_left self.len_le]),
        List.take_left' rfl]
    · rw [if_pos (by rw [if_neg hfits, hnumber]), hcontents,
        List.drop_left' (by rw [List.length_take, Nat.min_eq_left self.len_le]),
        List.take_of_length_le (le_refl _)]

/-- What is written over the part that `view` shows as `ys` is the same there. -/
def Spares (self : GrowBuffer α) (xs : List α) (view : View) (ys : List α) : Prop :=
  ∀ i < ys.length, self.len ≤ view.offset + i → view.offset + i < self.len + xs.length →
    ys[i]? = xs[view.offset + i - self.len]?

/-- **An older view reads what it did** exactly if the buffer is not replaced and its part is not
written over with something else. -/
theorem read_append_iff (h : self.append grow xs granted = some (buffer, view'))
    (hread : view.read self = some ys) (hlen : view.length = ys.length) (hys : ys ≠ []) :
    view.read buffer = some ys ↔ self.Fits xs ∧ self.Spares xs view ys := by
  have hne : view.length ≠ 0 := fun hzero => hys (List.length_eq_zero_iff.mp (hlen ▸ hzero))
  rw [View.read, if_neg hne] at hread
  split at hread
  · rename_i hnumber
    have hold : ∀ i < ys.length, self.contents[view.offset + i]? = ys[i]? := by
      intro i hi
      rw [← Option.some.inj hread, List.getElem?_take_of_lt (hlen.symm ▸ hi), List.getElem?_drop]
    obtain ⟨-, -, ⟨hfits, hsame, -, hcontents⟩ | ⟨hfits, hmoved, -⟩⟩ := append_spec h
    · rw [View.read, if_neg hne, if_pos (by rw [hnumber, hsame]), Option.some.injEq,
        and_iff_right hfits, hcontents, List.ext_getElem?_iff]
      have hnew : ∀ i, ((overwrite self.contents self.len xs).drop view.offset |>.take
          view.length)[i]? =
            if i < ys.length then (overwrite self.contents self.len xs)[view.offset + i]?
            else none := by
        intro i
        rw [List.getElem?_take, hlen, List.getElem?_drop]
      constructor
      · intro hall i hi hlo hhi
        rw [← hall i, hnew, if_pos hi, getElem?_overwrite self.len_le, if_pos ⟨hlo, hhi⟩]
      · intro hspares i
        rw [hnew]
        by_cases hi : i < ys.length
        · rw [if_pos hi, getElem?_overwrite self.len_le]
          split
          · rename_i hin
            exact (hspares i hi hin.1 hin.2).symm
          · exact hold i hi
        · rw [if_neg hi, List.getElem?_eq_none (Nat.le_of_not_lt hi)]
    · refine iff_of_false ?_ fun hboth => hfits hboth.1
      rw [View.read, if_neg hne, if_neg (by omega)]
      simp
  · cases hread

/-! ## Without clearing -/

/-- A view into the part that is in use, or into a buffer that is gone. -/
def Within (self : GrowBuffer α) (view : View) : Prop :=
  view.number < self.number ∨
    view.number = self.number ∧ view.offset + view.length ≤ self.len

/-- The views stay inside, with the new one. -/
theorem within_append (h : self.append grow xs granted = some (buffer, view')) :
    buffer.Within view' ∧ ∀ view, self.Within view → buffer.Within view := by
  obtain ⟨rfl, hlen, hcases⟩ := append_spec h
  have hnumber : buffer.number = (self.next xs).number := by
    rw [next]
    rcases hcases with ⟨hfits, hsame, -⟩ | ⟨hfits, hmoved, -⟩
    · rw [if_pos hfits, hsame]
    · rw [if_neg hfits, hmoved]
  refine ⟨.inr ⟨hnumber.symm, ?_⟩, fun view hview => ?_⟩
  · show self.len + xs.length ≤ buffer.len
    omega
  · rw [Within] at hview ⊢
    rcases hcases with ⟨-, hsame, -⟩ | ⟨-, hmoved, -⟩ <;> omega

/-- **What is inside goes on being read until the buffer is replaced.** -/
theorem read_append_of_within (h : self.append grow xs granted = some (buffer, view'))
    (hview : self.Within view) (hne : view.length ≠ 0) :
    view.read buffer = if self.Fits xs then view.read self else none := by
  obtain ⟨-, -, ⟨hfits, hsame, -, hcontents⟩ | ⟨hfits, hmoved, -⟩⟩ := append_spec h
  · rw [if_pos hfits, View.read, View.read, if_neg hne, if_neg hne, hsame, hcontents]
    rcases hview with hgone | ⟨hnumber, hinside⟩
    · rw [if_neg (by omega), if_neg (by omega)]
    · rw [if_pos hnumber, if_pos hnumber, Option.some.injEq, List.ext_getElem?_iff]
      intro i
      rw [List.getElem?_take, List.getElem?_take, List.getElem?_drop, List.getElem?_drop,
        getElem?_overwrite self.len_le]
      by_cases hi : i < view.length
      · rw [if_pos hi, if_pos hi, if_neg (by omega)]
      · rw [if_neg hi, if_neg hi]
  · rw [if_neg hfits, View.read, if_neg hne, if_neg]
    rcases hview with hgone | ⟨hnumber, -⟩ <;> omega

/-- Nothing is always read. -/
theorem read_of_length_eq_zero (h : view.length = 0) : view.read buffer = some [] := if_pos h

end GrowBuffer
