import Mathlib.Data.List.Basic
import Mathlib.Data.Nat.Basic

/-!
# Text with spans of style

A writer appends to a text and notes spans of it, each with a style.  A region that is written in
parts notes the spans of its parts first and its own span last, so that of the spans over one
position the inner ones come first.

* `stylesAt`: the styles over a position, in the order of the spans.
* `Drawn`: the spans give every position of a region the styles that are asked for, lie in the
  region, and meet only by nesting.
* `drawn_plain`, `Drawn.append`, `Drawn.close`: how a region is written.
-/

namespace StyledText

universe u

variable {κ : Type u}

structure Span (κ : Type u) where
  start : ℕ
  len : ℕ
  style : κ

/-- One past the last position. -/
def Span.stop (sp : Span κ) : ℕ := sp.start + sp.len

def Span.covers (sp : Span κ) (i : ℕ) : Bool := sp.start ≤ i && i < sp.stop

theorem Span.covers_iff {sp : Span κ} {i : ℕ} :
    sp.covers i = true ↔ sp.start ≤ i ∧ i < sp.start + sp.len := by
  rw [covers, Bool.and_eq_true, decide_eq_true_eq, decide_eq_true_eq]
  rfl

/-- The styles over a position. -/
def stylesAt (spans : List (Span κ)) (i : ℕ) : List κ :=
  (spans.filter fun sp => sp.covers i).map Span.style

@[simp] theorem stylesAt_nil (i : ℕ) : stylesAt ([] : List (Span κ)) i = [] := rfl

theorem stylesAt_append (spans spans' : List (Span κ)) (i : ℕ) :
    stylesAt (spans ++ spans') i = stylesAt spans i ++ stylesAt spans' i := by
  simp [stylesAt]

theorem stylesAt_singleton (sp : Span κ) (i : ℕ) :
    stylesAt [sp] i = if sp.covers i then [sp.style] else [] := by
  cases h : sp.covers i <;> simp [stylesAt, h]

/-- The spans over the region that begins at `start`, whose positions have these styles. -/
structure Drawn (start : ℕ) (styles : List (List κ)) (spans : List (Span κ)) : Prop where
  styled (i : ℕ) : stylesAt spans i = if start ≤ i then styles[i - start]?.getD [] else []
  within : ∀ sp ∈ spans, start ≤ sp.start ∧ 0 < sp.len ∧ sp.stop ≤ start + styles.length
  /-- A span ends before a later one begins, or lies inside it. -/
  laminar : spans.Pairwise fun sp sp' =>
    sp.stop ≤ sp'.start ∨ sp'.start ≤ sp.start ∧ sp.stop ≤ sp'.stop

/-- A region without spans has no styles. -/
theorem drawn_plain (start : ℕ) {styles : List (List κ)} (h : ∀ ks ∈ styles, ks = []) :
    Drawn start styles [] where
  styled i := by
    rw [stylesAt_nil]
    split
    · cases hks : styles[i - start]? with
      | none => rfl
      | some ks => exact (h ks (List.mem_of_getElem? hks)).symm
    · rfl
  within := by simp
  laminar := List.Pairwise.nil

variable {start : ℕ} {styles styles' : List (List κ)} {spans spans' : List (Span κ)}

/-- A region behind a region. -/
theorem Drawn.append (h : Drawn start styles spans)
    (h' : Drawn (start + styles.length) styles' spans') :
    Drawn start (styles ++ styles') (spans ++ spans') where
  styled i := by
    rw [stylesAt_append, h.styled, h'.styled]
    by_cases hstart : start ≤ i
    · rw [if_pos hstart, if_pos hstart]
      by_cases hmid : start + styles.length ≤ i
      · rw [if_pos hmid, List.getElem?_eq_none (by omega), Option.getD_none, List.nil_append,
          List.getElem?_append_right (by omega), Nat.sub_sub]
      · rw [if_neg hmid, List.append_nil, List.getElem?_append_left (by omega)]
    · rw [if_neg hstart, if_neg hstart, if_neg (by omega), List.append_nil]
  within := by
    intro sp hsp
    rw [List.length_append]
    rcases List.mem_append.mp hsp with hsp | hsp
    · have := h.within sp hsp
      omega
    · have := h'.within sp hsp
      omega
  laminar := by
    refine List.pairwise_append.mpr ⟨h.laminar, h'.laminar, ?_⟩
    intro sp hsp sp' hsp'
    left
    have := h.within sp hsp
    have := h'.within sp' hsp'
    omega

/-- The span of a region is noted behind those of its parts. -/
theorem Drawn.close (h : Drawn start styles spans) (hne : styles ≠ []) (k : κ) :
    Drawn start (styles.map (· ++ [k])) (spans ++ [⟨start, styles.length, k⟩]) where
  styled i := by
    rw [stylesAt_append, stylesAt_singleton, h.styled, List.getElem?_map]
    by_cases hstart : start ≤ i
    · rw [if_pos hstart, if_pos hstart]
      cases hks : styles[i - start]? with
      | none =>
        have hlen := List.getElem?_eq_none_iff.mp hks
        rw [if_neg fun h => by have := Span.covers_iff.mp h; dsimp only at this; omega]
        rfl
      | some ks =>
        obtain ⟨hlen, -⟩ := List.getElem?_eq_some_iff.mp hks
        rw [if_pos (Span.covers_iff.mpr ⟨hstart, by dsimp only; omega⟩)]
        rfl
    · rw [if_neg hstart, if_neg hstart,
        if_neg fun h => by have := Span.covers_iff.mp h; dsimp only at this; omega]
      rfl
  within := by
    intro sp hsp
    rw [List.length_map]
    rcases List.mem_append.mp hsp with hsp | hsp
    · exact h.within sp hsp
    · obtain rfl := List.mem_singleton.mp hsp
      exact ⟨Nat.le_refl _, List.length_pos_iff.mpr hne, Nat.le_refl _⟩
  laminar := by
    refine List.pairwise_append.mpr ⟨h.laminar, List.pairwise_singleton _ _, ?_⟩
    intro sp hsp sp' hsp'
    right
    obtain rfl := List.mem_singleton.mp hsp'
    have := h.within sp hsp
    exact ⟨this.1, this.2.2⟩

end StyledText
