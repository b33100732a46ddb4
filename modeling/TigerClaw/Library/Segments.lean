import Mathlib.Data.List.Basic
import Mathlib.Data.List.Infix

/-!
# Texts in segments

A text is cut into segments at every separator.

* `headed`: segments with a separator in front of each.  `headed_splitOn`: a text with one more
  separator in front is its segments, each with its own.
* `splitOn_prefix_iff`: the segments of a text begin with those of another one where it is that
  text, or goes on behind it with a separator.
-/

namespace Segments

variable {α : Type*} [BEq α] [LawfulBEq α] {d : α}

/-- Segments with a separator in front of each. -/
def headed (d : α) (segs : List (List α)) : List α := segs.flatMap fun seg => d :: seg

omit [BEq α] [LawfulBEq α] in
theorem headed_append (a b : List (List α)) : headed d (a ++ b) = headed d a ++ headed d b :=
  List.flatMap_append

omit [BEq α] [LawfulBEq α] in
theorem headed_eq_cons {segs : List (List α)} (h : segs ≠ []) :
    headed d segs = d :: [d].intercalate segs := by
  induction segs with
  | nil => exact absurd rfl h
  | cons seg segs ih =>
    cases segs with
    | nil => rw [headed, List.flatMap_singleton, List.intercalate_singleton]
    | cons seg' segs =>
      rw [headed, List.flatMap_cons, ← headed, ih (List.cons_ne_nil _ _),
        List.intercalate_cons_cons, List.append_assoc, List.cons_append, List.singleton_append]

/-- A text with one more separator in front. -/
theorem headed_splitOn (text : List α) : headed d (text.splitOn d) = d :: text := by
  rw [headed_eq_cons (List.splitOn_ne_nil d text), List.intercalate_splitOn]

/-- **The segments of one text begin those of another** where that one goes on with a separator. -/
theorem splitOn_prefix_iff {a b : List α} :
    a.splitOn d <+: b.splitOn d ↔ a = b ∨ ∃ rest, b = a ++ d :: rest := by
  constructor
  · rintro ⟨more, hmore⟩
    have htext : d :: b = (d :: a) ++ headed d more := by
      rw [← headed_splitOn b, ← hmore, headed_append, headed_splitOn]
    rw [List.cons_append, List.cons_inj_right] at htext
    cases more with
    | nil => exact .inl (by rw [htext, headed, List.flatMap_nil, List.append_nil])
    | cons seg more =>
      rw [headed_eq_cons (List.cons_ne_nil _ _)] at htext
      exact .inr ⟨_, htext⟩
  · rintro (rfl | ⟨rest, rfl⟩)
    · exact List.prefix_refl _
    · rw [List.splitOn_append_cons_self]
      exact List.prefix_append _ _

end Segments
