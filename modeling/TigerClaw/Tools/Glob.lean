import Mathlib.Data.List.Infix
import Mathlib.Data.List.TakeDrop
import TigerClaw.Tools.Schema

/-!
# Listing files by a pattern

`src/tools/glob.zig`: names of the workspace against a pattern with stars.

* `skipStars`, `matchAt`, `matches`: the code, with its two indices.
* `Language`: what a pattern stands for.  `language_stars_iff`: stars in a row stand for what one
  does.
* `matchAt_language_iff`: from any two indices on, the search decides what is left of the pattern.
* `handler_ok`: the files whose names are in the language, one to a line, in the order of the
  directory.
-/

namespace TigerClaw
namespace Tools
namespace Glob

open Agent (ToolResult)

def star : UInt8 := 0x2A

/-- The loop that collapses stars. -/
def skipStars (pattern : Bytes) (pj : ℕ) : ℕ :=
  if pj < pattern.length ∧ pattern[pj]? = some star then skipStars pattern (pj + 1) else pj
termination_by pattern.length - pj

theorem le_skipStars (pattern : Bytes) (pj : ℕ) : pj ≤ skipStars pattern pj := by
  fun_induction skipStars pattern pj with
  | case1 pj _ ih => omega
  | case2 pj _ => exact le_rfl

theorem lt_skipStars {pattern : Bytes} {pi : ℕ} (hstar : pattern[pi]? = some star) :
    pi < skipStars pattern pi := by
  have hlt : pi < pattern.length := (List.getElem?_eq_some_iff.mp hstar).1
  rw [skipStars, if_pos ⟨hlt, hstar⟩]
  exact le_skipStars pattern (pi + 1)

/-- Behind the stars in a row there is no star. -/
theorem getElem?_skipStars_ne (pattern : Bytes) (pj : ℕ) :
    pattern[skipStars pattern pj]? ≠ some star := by
  fun_induction skipStars pattern pj with
  | case1 pj _ ih => exact ih
  | case2 pj hend =>
    intro hstar
    exact hend ⟨(List.getElem?_eq_some_iff.mp hstar).1, hstar⟩

/-- `matchAt`.  Behind stars, `k` runs over what is left of the name. -/
def matchAt (pattern : Bytes) (pi : ℕ) (name : Bytes) (ni : ℕ) : Bool :=
  if hpi : pi ≥ pattern.length then decide (ni ≥ name.length)
  else if hstar : pattern[pi]? = some star then
    if skipStars pattern pi ≥ pattern.length then true
    else
      (List.range' ni (name.length + 1 - ni)).any fun k =>
        matchAt pattern (skipStars pattern pi) name k
  else if ni ≥ name.length then false
  else if pattern[pi]? ≠ name[ni]? then false
  else matchAt pattern (pi + 1) name (ni + 1)
termination_by pattern.length - pi
decreasing_by
  · have hlt := lt_skipStars hstar
    omega
  · omega

def matches' (pattern name : Bytes) : Bool := matchAt pattern 0 name 0

/-! ## The language -/

/-- What a pattern stands for. -/
inductive Language : Bytes → Bytes → Prop
  | nil : Language [] []
  /-- A star is any run of bytes. -/
  | star {p t : Bytes} (run : Bytes) : Language p t → Language (star :: p) (run ++ t)
  | lit {c : UInt8} {p t : Bytes} : c ≠ star → Language p t → Language (c :: p) (c :: t)

theorem language_nil_iff {t : Bytes} : Language [] t ↔ t = [] := by
  constructor
  · intro h
    cases h
    rfl
  · rintro rfl
    exact .nil

theorem language_star_iff {p t : Bytes} :
    Language (star :: p) t ↔ ∃ rest, rest <:+ t ∧ Language p rest := by
  constructor
  · intro h
    cases h with
    | star run h => exact ⟨_, List.suffix_append run _, h⟩
    | lit hstar => exact absurd rfl hstar
  · rintro ⟨rest, ⟨run, rfl⟩, h⟩
    exact .star run h

theorem language_lit_iff {c : UInt8} {p t : Bytes} (hstar : c ≠ star) :
    Language (c :: p) t ↔ ∃ rest, t = c :: rest ∧ Language p rest := by
  constructor
  · intro h
    cases h with
    | star => exact absurd rfl hstar
    | lit _ h => exact ⟨_, rfl, h⟩
  · rintro ⟨rest, rfl, h⟩
    exact .lit hstar h

/-- In front of a star, one more says nothing. -/
theorem language_star_star_iff {p t : Bytes} :
    Language (star :: star :: p) t ↔ Language (star :: p) t := by
  rw [language_star_iff]
  constructor
  · rintro ⟨rest, hrest, h⟩
    obtain ⟨rest', hrest', h⟩ := language_star_iff.mp h
    exact language_star_iff.mpr ⟨rest', hrest'.trans hrest, h⟩
  · exact fun h => ⟨t, List.suffix_refl t, h⟩

/-- Stars in a row stand for what one does. -/
theorem language_stars_iff {pattern t : Bytes} {pi : ℕ} (hstar : pattern[pi]? = some star) :
    Language (pattern.drop pi) t ↔
      Language (star :: pattern.drop (skipStars pattern pi)) t := by
  have hlt : pi < pattern.length := (List.getElem?_eq_some_iff.mp hstar).1
  induction hn : pattern.length - pi using Nat.strong_induction_on generalizing pi with
  | _ n ih =>
    have hdrop : pattern.drop pi = star :: pattern.drop (pi + 1) := by
      rw [List.drop_eq_getElem_cons hlt, (List.getElem?_eq_some_iff.mp hstar).2]
    rw [hdrop, skipStars, if_pos ⟨hlt, hstar⟩]
    by_cases hnext : pattern[pi + 1]? = some star
    · have hlt' : pi + 1 < pattern.length := (List.getElem?_eq_some_iff.mp hnext).1
      have hdrop' : pattern.drop (pi + 1) = star :: pattern.drop (pi + 2) := by
        rw [List.drop_eq_getElem_cons hlt', (List.getElem?_eq_some_iff.mp hnext).2]
      rw [hdrop', language_star_star_iff, ← hdrop']
      exact ih (pattern.length - (pi + 1)) (by omega) hnext hlt' rfl
    · rw [skipStars, if_neg fun h => hnext h.2]

theorem language_drop_iff {pattern t : Bytes} {pi : ℕ} (hpi : pi < pattern.length)
    (hstar : pattern[pi]? ≠ some star) :
    Language (pattern.drop pi) t ↔
      ∃ rest, t = pattern[pi] :: rest ∧ Language (pattern.drop (pi + 1)) rest := by
  rw [List.drop_eq_getElem_cons hpi]
  refine language_lit_iff fun h => hstar ?_
  rw [List.getElem?_eq_getElem hpi, h]

theorem skipStars_ge_iff {pattern : Bytes} {pi : ℕ} :
    pattern.length ≤ skipStars pattern pi ↔ pattern.drop (skipStars pattern pi) = [] :=
  List.drop_eq_nil_iff.symm

/-! ## The search -/

/-- The loop over `k` looks at every suffix. -/
theorem exists_range'_iff {name : Bytes} {ni : ℕ} (hni : ni ≤ name.length) {P : Bytes → Prop} :
    (∃ k ∈ List.range' ni (name.length + 1 - ni), P (name.drop k)) ↔
      ∃ rest, rest <:+ name.drop ni ∧ P rest := by
  constructor
  · rintro ⟨k, hk, h⟩
    rw [List.mem_range'_1] at hk
    refine ⟨name.drop k, ?_, h⟩
    have hdrop : name.drop k = (name.drop ni).drop (k - ni) := by
      rw [List.drop_drop]
      congr 1
      omega
    rw [hdrop]
    exact List.drop_suffix _ _
  · rintro ⟨rest, hrest, h⟩
    obtain ⟨run, hrun⟩ := hrest
    have hlen := congrArg List.length hrun
    rw [List.length_append, List.length_drop] at hlen
    refine ⟨ni + run.length, ?_, ?_⟩
    · rw [List.mem_range'_1]
      omega
    · rw [← List.drop_drop, ← hrun, List.drop_left]
      exact h

/-- **The search decides the language of the pattern**, from any two indices on. -/
theorem matchAt_language_iff (pattern : Bytes) (pi : ℕ) (name : Bytes) (ni : ℕ) :
    matchAt pattern pi name ni = true ↔ Language (pattern.drop pi) (name.drop ni) := by
  fun_induction matchAt pattern pi name ni with
  | case1 pi ni hpi =>
    rw [List.drop_of_length_le hpi, language_nil_iff, List.drop_eq_nil_iff, decide_eq_true_iff]
  | case2 pi ni hpi hstar hend =>
    -- the run of the star is all that is left
    rw [language_stars_iff hstar, skipStars_ge_iff.mp hend, language_star_iff]
    exact iff_of_true rfl ⟨[], List.nil_suffix, .nil⟩
  | case3 pi ni hpi hstar hend ih =>
    rw [language_stars_iff hstar, language_star_iff, List.any_eq_true]
    by_cases hni : ni ≤ name.length
    · rw [← exists_range'_iff hni]
      exact exists_congr fun k => and_congr_right fun _ => ih k
    · -- past the end of the name the loop does not run, and a byte is still asked for
      rw [List.drop_of_length_le (not_le.mp hni).le, Nat.sub_eq_zero_of_le (not_le.mp hni)]
      refine iff_of_false (by simp) ?_
      rintro ⟨rest, hrest, h⟩
      rw [List.suffix_nil.mp hrest, language_drop_iff (not_le.mp hend)
        (getElem?_skipStars_ne pattern pi)] at h
      obtain ⟨_, hnil, -⟩ := h
      cases hnil
  | case4 pi ni hpi hstar hni =>
    rw [language_drop_iff (not_le.mp hpi) hstar, List.drop_of_length_le hni]
    refine iff_of_false (by decide) ?_
    rintro ⟨rest, hnil, -⟩
    cases hnil
  | case5 pi ni hpi hstar hni hne =>
    rw [language_drop_iff (not_le.mp hpi) hstar, List.drop_eq_getElem_cons (not_le.mp hni)]
    refine iff_of_false (by decide) ?_
    rintro ⟨rest, hname, -⟩
    rw [List.getElem?_eq_getElem (not_le.mp hpi), List.getElem?_eq_getElem (not_le.mp hni)] at hne
    exact hne (congrArg some (List.cons.inj hname).1.symm)
  | case6 pi ni hpi hstar hni heq ih =>
    rw [language_drop_iff (not_le.mp hpi) hstar, List.drop_eq_getElem_cons (not_le.mp hni), ih]
    rw [not_not, List.getElem?_eq_getElem (not_le.mp hpi),
      List.getElem?_eq_getElem (not_le.mp hni), Option.some.injEq] at heq
    rw [heq]
    constructor
    · exact fun h => ⟨_, rfl, h⟩
    · rintro ⟨rest, hname, h⟩
      rwa [(List.cons.inj hname).2]

theorem matches_iff (pattern name : Bytes) : matches' pattern name = true ↔ Language pattern name :=
  matchAt_language_iff pattern 0 name 0

instance decidableLanguage (pattern name : Bytes) : Decidable (Language pattern name) :=
  decidable_of_iff _ (matches_iff pattern name)

/-! ## The tool -/

structure Entry where
  kind : FileKind
  name : Bytes

/-- `handler`, from the pattern of the arguments, if these are valid, and from what the directory
gives before its end or its first error, if it can be opened. -/
def handler (callId : Bytes) (pattern : Option Bytes) (dir : Except Bytes (List Entry)) :
    ToolResult :=
  match pattern with
  | none => errResult callId (ascii "tool.args") (ascii "invalid json arguments")
  | some pattern =>
    match dir with
    | .error e => errResult callId (ascii "fs.error") e
    | .ok entries =>
      okResult callId (entries.flatMap fun entry =>
        if entry.kind ≠ .file then []
        else if matches' pattern entry.name then entry.name ++ [0x0A]
        else [])

/-- **What is listed**: the files whose names are in the language of the pattern. -/
theorem handler_ok (callId pattern : Bytes) (entries : List Entry) :
    handler callId (some pattern) (.ok entries) =
      okResult callId
        ((entries.filter fun entry =>
          entry.kind = .file ∧ Language pattern entry.name).flatMap fun entry =>
            entry.name ++ [0x0A]) := by
  refine congrArg (okResult callId) ?_
  induction entries with
  | nil => rfl
  | cons entry entries ih =>
    rw [List.flatMap_cons, ih, List.filter_cons]
    simp only [matches_iff]
    by_cases hkind : entry.kind = .file
    · by_cases hname : Language pattern entry.name
      · simp [hkind, hname]
      · simp [hkind, hname]
    · simp [hkind]

end Glob
end Tools
end TigerClaw
