import Mathlib.Data.List.Basic
import Mathlib.Order.Lattice

/-!
# Logs that are read from an offset

The entries of a log come with increasing keys.  A reader names the key up to which it is through,
and is given what lies above.

* `Increasing`: every entry has a greater key than those before it.
* `above`: what lies above an offset.  `above_of_through`: the reader is through with a first part
  of the log when it names the last key of that part.
-/

namespace OffsetLog

variable {α ι : Type*} [LinearOrder ι] (key : α → ι)

/-- The keys increase. -/
def Increasing (l : List α) : Prop := l.Pairwise fun a b => key a < key b

/-- The entries above the offset; without one, all of them. -/
def above (offset : Option ι) (l : List α) : List α :=
  l.filter fun a => offset.all fun o => o < key a

variable {key} {l read rest : List α} {offset : Option ι}

theorem mem_above {a : α} : a ∈ above key offset l ↔ a ∈ l ∧ ∀ o ∈ offset, o < key a := by
  simp [above, Option.all_eq_true]

theorem above_append (l l' : List α) :
    above key offset (l ++ l') = above key offset l ++ above key offset l' :=
  List.filter_append l l'

theorem above_of_forall (h : ∀ a ∈ l, ∀ o ∈ offset, o < key a) : above key offset l = l := by
  refine List.filter_eq_self.mpr fun a ha => ?_
  simpa [Option.all_eq_true] using h a ha

theorem above_of_forall_le {o : ι} (h : ∀ a ∈ l, key a ≤ o) : above key (some o) l = [] := by
  refine List.filter_eq_nil_iff.mpr fun a ha => ?_
  simpa using h a ha

/-- What lies above a later offset lies above the earlier one. -/
theorem above_above {o : ι} (h : ∀ o' ∈ offset, o' ≤ o) :
    above key (some o) (above key offset l) = above key (some o) l := by
  rw [above, above, above, List.filter_filter]
  refine List.filter_congr fun a _ => ?_
  cases offset with
  | none => simp
  | some o' => simpa using fun ha => (h o' rfl).trans_lt ha

theorem above_idem : above key offset (above key offset l) = above key offset l :=
  above_of_forall fun _ ha => (mem_above.mp ha).2

theorem increasing_above (h : Increasing key l) : Increasing key (above key offset l) :=
  h.sublist List.filter_sublist

theorem increasing_concat (h : Increasing key l) {a : α} (ha : ∀ b ∈ l, key b < key a) :
    Increasing key (l ++ [a]) :=
  List.pairwise_append.mpr
    ⟨h, List.pairwise_singleton _ _, fun b hb _ hc => List.mem_singleton.mp hc ▸ ha b hb⟩

/-- **A reader that names the last key it has read is given the rest.** -/
theorem above_of_through (h : Increasing key (read ++ rest)) {last : α}
    (hlast : read.getLast? = some last) : above key (some (key last)) (read ++ rest) = rest := by
  obtain ⟨before, rfl⟩ := List.getLast?_eq_some_iff.mp hlast
  obtain ⟨hread, -, hrest⟩ := List.pairwise_append.mp h
  obtain ⟨-, -, hbefore⟩ := List.pairwise_append.mp hread
  have hnone : above key (some (key last)) (before ++ [last]) = [] := by
    refine above_of_forall_le fun a ha => ?_
    rcases List.mem_append.mp ha with ha | ha
    · exact (hbefore a ha last (List.mem_singleton_self last)).le
    · exact (List.mem_singleton.mp ha ▸ le_refl (key last))
  have hall : above key (some (key last)) rest = rest := by
    refine above_of_forall fun a ha o ho => ?_
    obtain rfl := Option.some.inj ho
    exact hrest last (by simp) a ha
  rw [above_append, hnone, hall, List.nil_append]

end OffsetLog
