import Mathlib.Data.List.Infix

/-!
# The newest entries that fit

Of a list with the oldest entry first, as many of the newest as fit.

* `latest`: the longest end of a list that fits.  `suffix_latest`: no longer one does.
* `latest_concat`: with one more entry, what was the newest is cut down to what fits in front of it.
-/

namespace Latest

variable {α : Type*} {fits fits' : List α → Bool} {l s : List α}

/-- The longest end that fits. -/
def latest (fits : List α → Bool) : List α → List α
  | [] => []
  | a :: l => if fits (a :: l) then a :: l else latest fits l

theorem latest_suffix (fits : List α → Bool) (l : List α) : latest fits l <:+ l := by
  induction l with
  | nil => exact List.suffix_refl []
  | cons a l ih =>
    rw [latest]
    split_ifs
    · exact List.suffix_refl _
    · exact ih.trans (List.suffix_cons a l)

theorem fits_latest (hnil : fits []) : fits (latest fits l) := by
  induction l with
  | nil => exact hnil
  | cons a l ih =>
    rw [latest]
    split_ifs with h
    · exact h
    · exact ih

/-- **No longer end fits.** -/
theorem suffix_latest (hs : s <:+ l) (hfits : fits s) : s <:+ latest fits l := by
  induction l with
  | nil => exact hs
  | cons a l ih =>
    rw [latest]
    split_ifs with h
    · exact hs
    · rcases List.suffix_cons_iff.mp hs with rfl | hs
      · exact absurd hfits h
      · exact ih hs

/-- What does not fit now does not fit where there is less room. -/
theorem latest_latest (h : ∀ s, s ≠ [] → fits' s → fits s) :
    latest fits' (latest fits l) = latest fits' l := by
  induction l with
  | nil => rfl
  | cons a l ih =>
    rw [latest]
    split_ifs with hfits
    · rfl
    · have hnot : ¬ fits' (a :: l) := fun h' => hfits (h _ (List.cons_ne_nil a l) h')
      rw [ih, latest, if_neg hnot]

/-- **One more entry** is kept, with as many in front of it as fit there. -/
theorem latest_concat {a : α} (hone : fits [a]) (h : ∀ s, s ≠ [] → fits' s = fits (s ++ [a])) :
    latest fits (l ++ [a]) = latest fits' l ++ [a] := by
  induction l with
  | nil => exact if_pos hone
  | cons b l ih =>
    rw [List.cons_append, latest, latest, h _ (List.cons_ne_nil b l), List.cons_append]
    split_ifs
    · rfl
    · exact ih

end Latest
