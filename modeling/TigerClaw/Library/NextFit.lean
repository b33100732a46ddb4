import Mathlib.Algebra.BigOperators.Group.List.Basic
import Mathlib.Algebra.Ring.Nat

/-!
# Next fit

Items are put into bins in their order, and a new bin is begun as soon as the next item does not
fit.  The bins are of `size`, and `cap` of it is used, so that a closed bin loses what is left of
its size.

* `begun`, `last`, `lost`: how many bins are begun, what the last one holds, what the others lose.
* `share`: how many bins the sum would need if it could be cut anywhere.
* `share_eq_iff`: as many as that are used exactly if less is lost than the last one holds.
-/

namespace NextFit

/-- The bins that are begun behind one that holds `used`. -/
def begun (cap : ℕ) : ℕ → List ℕ → ℕ
  | _, [] => 0
  | used, w :: ws => if cap < used + w then begun cap w ws + 1 else begun cap (used + w) ws

/-- What the last bin holds. -/
def last (cap : ℕ) : ℕ → List ℕ → ℕ
  | used, [] => used
  | used, w :: ws => if cap < used + w then last cap w ws else last cap (used + w) ws

/-- What is left empty in the bins that are closed. -/
def lost (cap size : ℕ) : ℕ → List ℕ → ℕ
  | _, [] => 0
  | used, w :: ws =>
    if cap < used + w then (size - used) + lost cap size w ws else lost cap size (used + w) ws

/-- The bins that a sum needs, one at least. -/
def share (size sum : ℕ) : ℕ := if sum = 0 then 1 else (sum + size - 1) / size

variable {cap size used : ℕ} {ws : List ℕ}

/-- What is put in and what is lost fill the closed bins. -/
theorem add_sum_add_lost (hsize : cap ≤ size) (hused : used ≤ cap) (hws : ∀ w ∈ ws, w ≤ cap) :
    used + ws.sum + lost cap size used ws = begun cap used ws * size + last cap used ws := by
  induction ws generalizing used with
  | nil => simp [lost, begun, last]
  | cons w ws ih =>
    obtain ⟨hw, hws⟩ := List.forall_mem_cons.mp hws
    rw [List.sum_cons, lost, begun, last]
    split_ifs with hfull
    · have hnext := ih hw hws
      rw [Nat.succ_mul]
      omega
    · rw [← Nat.add_assoc]
      exact ih (Nat.not_lt.mp hfull) hws

theorem lost_of_begun (h : begun cap used ws = 0) : lost cap size used ws = 0 := by
  induction ws generalizing used with
  | nil => rfl
  | cons w ws ih =>
    rw [begun] at h
    rw [lost]
    split_ifs at h ⊢ with hfull
    exact ih h

/-- A bin is begun with an item that takes room. -/
theorem last_pos_of_begun (hused : used ≤ cap) (hws : ∀ w ∈ ws, w ≤ cap)
    (h : 0 < used ∨ 0 < begun cap used ws) : 0 < last cap used ws := by
  induction ws generalizing used with
  | nil => exact h.resolve_right (Nat.lt_irrefl 0)
  | cons w ws ih =>
    obtain ⟨hw, hws⟩ := List.forall_mem_cons.mp hws
    rw [begun] at h
    rw [last]
    split_ifs at h ⊢ with hfull
    · exact ih hw hws (.inl (by omega))
    · exact ih (Nat.not_lt.mp hfull) hws (h.imp_left fun h => Nat.add_pos_left h w)

theorem last_le (hused : used ≤ cap) (hws : ∀ w ∈ ws, w ≤ cap) : last cap used ws ≤ cap := by
  induction ws generalizing used with
  | nil => exact hused
  | cons w ws ih =>
    obtain ⟨hw, hws⟩ := List.forall_mem_cons.mp hws
    rw [last]
    split_ifs with hfull
    · exact ih hw hws
    · exact ih (Nat.not_lt.mp hfull) hws

/-- A share is more than so many bins exactly if the sum is more than they hold. -/
theorem lt_share_iff {sum n : ℕ} (hsize : 0 < size) :
    n < share size sum ↔ n = 0 ∨ n * size < sum := by
  rw [share]
  split_ifs with hsum
  · rw [hsum, Nat.lt_one_iff]
    exact (or_iff_left (Nat.not_lt_zero _)).symm
  · rw [← Nat.succ_le_iff, Nat.le_div_iff_mul_le hsize, Nat.succ_mul]
    constructor
    · exact fun h => .inr (by omega)
    · rintro (rfl | h)
      · omega
      · omega

theorem share_pos {sum : ℕ} (hsize : 0 < size) : 0 < share size sum :=
  (lt_share_iff hsize).mpr (.inl rfl)

variable (hpos : 0 < cap) (hsize : cap ≤ size) (hws : ∀ w ∈ ws, w ≤ cap)
include hpos hsize hws

/-- No fewer bins are used than the sum needs. -/
theorem share_le : share size ws.sum ≤ begun cap 0 ws + 1 := by
  have hsum := add_sum_add_lost hsize (Nat.zero_le cap) hws
  have hlast := last_le (Nat.zero_le cap) hws
  rw [← Nat.not_lt, lt_share_iff (by omega), Nat.succ_mul]
  omega

/-- **No bin too many is used exactly if less is lost than the last one holds.** -/
theorem share_eq_iff :
    share size ws.sum = begun cap 0 ws + 1 ↔
      lost cap size 0 ws = 0 ∨ lost cap size 0 ws < last cap 0 ws := by
  have hsum := add_sum_add_lost hsize (Nat.zero_le cap) hws
  have hle := share_le hpos hsize hws
  have hlast := last_pos_of_begun (Nat.zero_le cap) hws
  rw [Nat.le_antisymm_iff, and_iff_right hle, Nat.succ_le_iff, lt_share_iff (by omega)]
  by_cases hbegun : begun cap 0 ws = 0
  · exact iff_of_true (.inl hbegun) (.inl (lost_of_begun hbegun))
  · have hheld := hlast (.inr (Nat.pos_of_ne_zero hbegun))
    omega

end NextFit
