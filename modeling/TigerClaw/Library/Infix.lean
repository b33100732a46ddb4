import Mathlib.Data.List.Basic
import Mathlib.Data.List.Infix

/-!
# Looking for a word in a text

A word that lacks a letter does not reach over an occurrence of it.

* `prefix_append_cons`, `infix_append_cons`: the word is found in front of the letter or behind it.
* `infix_intercalate`: it is found in one of the parts that the letter separates.
* `not_infix_of_mem`: a text that lacks a letter of the word.
-/

namespace Infix

variable {α : Type*} {word : List α} {x : α}

/-- A word without the letter that a text begins with ends before the letter comes. -/
theorem prefix_append_cons (hx : x ∉ word) {a b : List α} :
    word <+: a ++ x :: b ↔ word <+: a := by
  refine ⟨fun h => ?_, fun h => h.trans (List.prefix_append a _)⟩
  have ha : a ++ [x] <+: a ++ x :: b := by
    rw [List.append_cons a x b]
    exact List.prefix_append _ _
  rcases Nat.lt_or_ge a.length word.length with hlt | hle
  · have hlong : (a ++ [x]).length ≤ word.length := by
      rw [List.length_append, List.length_singleton]
      exact hlt
    have hmem := (List.prefix_of_prefix_length_le ha h hlong).subset
      (List.mem_append_right a (List.mem_singleton_self x))
    exact absurd hmem hx
  · exact List.prefix_of_prefix_length_le h (List.prefix_append a _) hle

/-- **The letter lies between what can hold the word.** -/
theorem infix_append_cons (hword : word ≠ []) (hx : x ∉ word) {a b : List α} :
    word <:+: a ++ x :: b ↔ word <:+: a ∨ word <:+: b := by
  induction a with
  | nil =>
    have hhere : ¬ word <+: x :: b := by
      rw [← List.nil_append (x :: b), prefix_append_cons hx, List.prefix_nil]
      exact hword
    rw [List.nil_append, List.infix_cons_iff, or_iff_right hhere, List.infix_nil,
      or_iff_right hword]
  | cons c a ih =>
    have hhere : word <+: c :: (a ++ x :: b) ↔ word <+: c :: a :=
      prefix_append_cons (a := c :: a) hx
    rw [List.cons_append, List.infix_cons_iff, hhere, ih, ← or_assoc, ← List.infix_cons_iff]

/-- **A word without the separator is found in one of the parts.** -/
theorem infix_intercalate (hword : word ≠ []) (hx : x ∉ word) (parts : List (List α)) :
    word <:+: [x].intercalate parts ↔ ∃ part ∈ parts, word <:+: part := by
  induction parts with
  | nil =>
    have hnil : ¬ word <:+: [x].intercalate [] := by
      rw [List.intercalate_nil, List.infix_nil]
      exact hword
    exact iff_of_false hnil fun ⟨part, hpart, _⟩ => List.not_mem_nil hpart
  | cons part parts ih =>
    rw [List.exists_mem_cons_iff, ← ih]
    cases parts with
    | nil =>
      rw [List.intercalate_singleton, List.intercalate_nil, List.infix_nil, or_iff_left hword]
    | cons part' parts =>
      rw [List.intercalate_cons_of_ne_nil (List.cons_ne_nil _ _), List.append_assoc,
        List.singleton_append, infix_append_cons hword hx]

theorem not_infix_of_mem {text : List α} (hx : x ∈ word) (htext : x ∉ text) : ¬ word <:+: text :=
  fun h => htext (h.subset hx)

end Infix
