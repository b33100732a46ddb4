import Mathlib.Data.List.Basic

/-!
# The lines of a text

A text is cut into lines at a separator; the last line may be ended by the text itself.

* `lines`: the lines.  `byLines`: induction line by line.
* `length_lines`: how many there are.
* `lines_append_of_ended`, `lines_append_line_iff`: the lines of a text that is appended to.
* `skip`, `take`: the two loops that find a window of lines, with what they do to the lines.
* `window`: the lines of the window.  `trim_take`: the text of the second loop is theirs.
-/

namespace Lines

variable {α : Type*} [DecidableEq α] {d : α}

variable (d) in
/-- The lines of a text; one that is ended by the text is not empty. -/
def lines : List α → List (List α)
  | [] => []
  | a :: as =>
    if a = d then [] :: lines as
    else
      match lines as with
      | [] => [[a]]
      | l :: ls => (a :: l) :: ls

variable (d) in
/-- What is before the first separator, and what is behind it. -/
def cut : List α → Option (List α × List α)
  | [] => none
  | a :: as => if a = d then some ([], as) else (cut as).map fun p => (a :: p.1, p.2)

variable (d) in
/-- Nothing follows the last separator. -/
def Ended (text : List α) : Prop := text = [] ∨ text.getLast? = some d

/-! ## Line by line -/

theorem cut_of_notMem {text : List α} (h : d ∉ text) : cut d text = none := by
  induction text with
  | nil => rfl
  | cons a as ih =>
    obtain ⟨ha, has⟩ := List.ne_and_not_mem_of_not_mem_cons h
    rw [cut, if_neg (Ne.symm ha), ih has, Option.map_none]

theorem cut_append {l : List α} (h : d ∉ l) (rest : List α) :
    cut d (l ++ d :: rest) = some (l, rest) := by
  induction l with
  | nil => exact if_pos rfl
  | cons a as ih =>
    obtain ⟨ha, has⟩ := List.ne_and_not_mem_of_not_mem_cons h
    rw [List.cons_append, cut, if_neg (Ne.symm ha), ih has, Option.map_some]

/-- Where a text is cut. -/
theorem cut_eq_some_iff {text l rest : List α} :
    cut d text = some (l, rest) ↔ text = l ++ d :: rest ∧ d ∉ l := by
  refine ⟨fun h => ?_, fun ⟨htext, hl⟩ => htext ▸ cut_append hl rest⟩
  induction text generalizing l with
  | nil => cases h
  | cons a as ih =>
    rw [cut] at h
    split at h
    · obtain ⟨rfl, rfl⟩ := Prod.mk.inj (Option.some.inj h)
      rename_i ha
      exact ⟨by rw [ha, List.nil_append], List.not_mem_nil⟩
    · rename_i ha
      obtain ⟨⟨l', rest'⟩, hcut, hpair⟩ := Option.map_eq_some_iff.mp h
      obtain ⟨rfl, rfl⟩ := Prod.mk.inj hpair
      obtain ⟨rfl, hl⟩ := ih hcut
      exact ⟨rfl, fun hmem => (List.mem_cons.mp hmem).elim (fun hd => ha hd.symm) hl⟩

theorem lines_of_notMem {text : List α} (h : d ∉ text) (hne : text ≠ []) :
    lines d text = [text] := by
  induction text with
  | nil => exact absurd rfl hne
  | cons a as ih =>
    obtain ⟨ha, has⟩ := List.ne_and_not_mem_of_not_mem_cons h
    rw [lines, if_neg (Ne.symm ha)]
    cases as with
    | nil => rfl
    | cons b bs => rw [ih has (List.cons_ne_nil b bs)]

theorem lines_append {l : List α} (h : d ∉ l) (rest : List α) :
    lines d (l ++ d :: rest) = l :: lines d rest := by
  induction l with
  | nil => exact if_pos rfl
  | cons a as ih =>
    obtain ⟨ha, has⟩ := List.ne_and_not_mem_of_not_mem_cons h
    rw [List.cons_append, lines, if_neg (Ne.symm ha), ih has]

omit [DecidableEq α] in
theorem ended_append {l rest : List α} : Ended d (l ++ d :: rest) ↔ Ended d rest := by
  cases rest with
  | nil => simp [Ended]
  | cons a as => simp [Ended, List.getLast?_append]

omit [DecidableEq α] in
theorem not_ended_of_notMem {text : List α} (h : d ∉ text) (hne : text ≠ []) :
    ¬ Ended d text := by
  rintro (hnil | hlast)
  · exact hne hnil
  · exact h (List.mem_of_getLast? hlast)

/-- Induction line by line. -/
@[elab_as_elim] theorem byLines {P : List α → Prop} (nil : P [])
    (last : ∀ l, l ≠ [] → d ∉ l → P l) (line : ∀ l rest, d ∉ l → P rest → P (l ++ d :: rest))
    (text : List α) : P text := by
  have hP : ∀ n (text : List α), text.length ≤ n → P text := by
    intro n
    induction n with
    | zero =>
      intro text hlength
      exact List.eq_nil_of_length_eq_zero (Nat.le_zero.mp hlength) ▸ nil
    | succ n ih =>
      intro text hlength
      by_cases hd : d ∈ text
      · obtain ⟨l, rest, rfl, hl⟩ := List.eq_append_cons_of_mem hd
        refine line l rest hl (ih rest ?_)
        rw [List.length_append, List.length_cons] at hlength
        omega
      · by_cases hne : text = []
        · exact hne ▸ nil
        · exact last text hne hd
  exact hP text.length text (Nat.le_refl _)

theorem notMem_of_mem_lines {text l : List α} (h : l ∈ lines d text) : d ∉ l := by
  induction text using byLines (d := d) with
  | nil => exact absurd h List.not_mem_nil
  | last text hne hd =>
    rw [lines_of_notMem hd hne, List.mem_singleton] at h
    exact h ▸ hd
  | line l' rest hd ih =>
    rw [lines_append hd, List.mem_cons] at h
    obtain rfl | h := h
    · exact hd
    · exact ih h

open Classical in
/-- **As many lines as separators**, and one more if the text does not end with one. -/
theorem length_lines (text : List α) :
    (lines d text).length = text.count d + if Ended d text then 0 else 1 := by
  induction text using byLines (d := d) with
  | nil => simp [lines, Ended]
  | last text hne hd =>
    rw [lines_of_notMem hd hne, if_neg (not_ended_of_notMem hd hne), List.count_eq_zero.mpr hd]
    rfl
  | line l rest hd ih =>
    simp only [ended_append]
    rw [lines_append hd, List.length_cons, ih, List.count_append, List.count_eq_zero.mpr hd,
      List.count_cons_self]
    omega

theorem lines_ne_nil {text : List α} (h : text ≠ []) : lines d text ≠ [] := by
  induction text using byLines (d := d) with
  | nil => exact absurd rfl h
  | last text hne hd =>
    rw [lines_of_notMem hd hne]
    exact List.cons_ne_nil _ _
  | line l rest hd _ =>
    rw [lines_append hd]
    exact List.cons_ne_nil _ _

/-- The lines of a text that ends with one, and of what follows. -/
theorem lines_append_of_ended {text : List α} (h : Ended d text) (rest : List α) :
    lines d (text ++ rest) = lines d text ++ lines d rest := by
  induction text using byLines (d := d) with
  | nil => rfl
  | last text hne hd => exact absurd h (not_ended_of_notMem hd hne)
  | line l text hd ih =>
    rw [List.append_assoc, List.cons_append, lines_append hd, lines_append hd,
      ih (ended_append.mp h), List.cons_append]

/-- A line that is appended stands by itself exactly if the text before it is ended. -/
theorem lines_append_line_iff {before l : List α} (h : d ∉ l) (after : List α) :
    lines d (before ++ (l ++ [d]) ++ after) = lines d before ++ l :: lines d after ↔
      Ended d before := by
  have hassoc : before ++ (l ++ [d]) ++ after = before ++ (l ++ d :: after) := by simp
  rw [hassoc]
  constructor
  · intro heq
    have hlength := congrArg List.length heq
    rw [← List.append_assoc, length_lines, ended_append, List.length_append, List.length_cons,
      length_lines before, length_lines after, List.count_append, List.count_append,
      List.count_eq_zero.mpr h, List.count_cons_self] at hlength
    by_contra hended
    rw [if_neg hended] at hlength
    omega
  · intro hended
    rw [lines_append_of_ended hended, lines_append h]

/-! ## Windows -/

variable (d) in
/-- What is left behind `n` separators. -/
def skip : ℕ → List α → Option (List α)
  | 0, text => some text
  | n + 1, text => (cut d text).bind fun p => skip n p.2

variable (d) in
/-- At most `n` lines with their separators, and how often one was looked for. -/
def take : ℕ → List α → List α × ℕ
  | 0, _ => ([], 0)
  | n + 1, text =>
    match cut d text with
    | none => (text, 1)
    | some (l, rest) => (l ++ d :: (take n rest).1, (take n rest).2 + 1)

variable (d) in
/-- Without a separator at the end. -/
def trim (text : List α) : List α := if text.getLast? = some d then text.dropLast else text

variable (d) in
/-- At most `n` lines behind the first `k`. -/
def window (text : List α) (k n : ℕ) : List (List α) := ((lines d text).drop k).take n

theorem skip_of_lt {n : ℕ} {text : List α} (h : n < (lines d text).length) :
    ∃ rest, skip d n text = some rest ∧ rest ≠ [] ∧ lines d rest = (lines d text).drop n ∧
      (Ended d rest ↔ Ended d text) := by
  induction n generalizing text with
  | zero =>
    refine ⟨text, rfl, ?_, rfl, Iff.rfl⟩
    rintro rfl
    exact absurd h (Nat.lt_irrefl 0)
  | succ n ih =>
    induction text using byLines (d := d) with
    | nil => exact absurd h (Nat.not_lt_zero _)
    | last text hne hd =>
      rw [lines_of_notMem hd hne] at h
      exact absurd h (by simp)
    | line l rest hd _ =>
      rw [lines_append hd, List.length_cons] at h
      obtain ⟨rest', hskip, hne, hlines, hended⟩ := ih (Nat.lt_of_succ_lt_succ h)
      refine ⟨rest', ?_, hne, ?_, hended.trans ended_append.symm⟩
      · rw [skip, cut_append hd, Option.bind_some, hskip]
      · rw [hlines, lines_append hd, List.drop_succ_cons]

theorem trim_append (l text : List α) (h : text ≠ []) :
    trim d (l ++ d :: text) = l ++ d :: trim d text := by
  have hlast : (l ++ d :: text).getLast? = text.getLast? := by
    cases text with
    | nil => exact absurd rfl h
    | cons a as =>
      rw [List.getLast?_append, List.getLast?_cons_cons, List.getLast?_cons]
      rfl
  rw [trim, trim, hlast]
  split
  · rw [List.dropLast_append_of_ne_nil (List.cons_ne_nil _ _), List.dropLast_cons_of_ne_nil h]
  · rfl

theorem trim_line (l : List α) : trim d (l ++ [d]) = l := by
  rw [trim, if_pos List.getLast?_concat, List.dropLast_concat]

theorem take_ne_nil {n : ℕ} {text : List α} (h : text ≠ []) : (take d (n + 1) text).1 ≠ [] := by
  rw [take]
  split
  · exact h
  · simp

/-- **The text of a window** is that of its lines, with the separators between them. -/
theorem trim_take {n : ℕ} {text : List α} (h : text ≠ []) :
    trim d (take d (n + 1) text).1 = [d].intercalate ((lines d text).take (n + 1)) := by
  induction text using byLines (d := d) generalizing n with
  | nil => exact absurd rfl h
  | last text hne hd =>
    rw [take, cut_of_notMem hd, lines_of_notMem hd hne]
    simp [trim, mt List.mem_of_getLast? hd]
  | line l rest hd ih =>
    rw [take, cut_append hd, lines_append hd, List.take_succ_cons]
    dsimp only
    cases n with
    | zero =>
      rw [take, trim_line]
      simp
    | succ n =>
      by_cases hrest : rest = []
      · subst hrest
        rw [take, cut, trim_line]
        simp [lines]
      · rw [trim_append _ _ (take_ne_nil hrest), ih hrest,
          List.intercalate_cons_of_ne_nil (by simp [lines_ne_nil hrest])]
        simp

open Classical in
/-- **How often a separator was looked for**: once for each line, and once more behind the last
line if that has one and there was no limit to it. -/
theorem take_snd (n : ℕ) (text : List α) :
    (take d n text).2 = min n (lines d text).length +
      if (lines d text).length < n ∧ Ended d text then 1 else 0 := by
  induction text using byLines (d := d) generalizing n with
  | nil =>
    cases n with
    | zero => rfl
    | succ n => simp [take, cut, lines, Ended]
  | last text hne hd =>
    have hnot := not_ended_of_notMem hd hne
    cases n with
    | zero => simp [take]
    | succ n =>
      rw [take, cut_of_notMem hd, lines_of_notMem hd hne, if_neg fun h => hnot h.2]
      simp
  | line l rest hd ih =>
    cases n with
    | zero => simp [take]
    | succ n =>
      rw [take, cut_append hd, lines_append hd]
      simp only [ended_append, List.length_cons, ih n, Nat.add_lt_add_iff_right]
      omega

end Lines
