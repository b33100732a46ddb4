import Mathlib.Data.List.Basic
import Mathlib.Data.List.Infix
import Mathlib.Data.List.TakeDrop
import TigerClaw.Basic
import TigerClaw.Cli.GlobBraces
import TigerClaw.Library.Lines

/-!
# Matching paths

`src/cli/commands/tool_glob.zig`: a pattern and a path are split into at most 64 segments each, and
these are matched against each other.

* `matchAt`, `matchSegs`, `matchFullPath`: the code.
* `SegMatches`, `SegsMatch`: the language of the patterns, as a relation.
* `matchSeg_iff`, `matchSegs_iff`: the two searches decide it.
* `Unharmed`, `matchFullPath_right_iff`: the answer is right exactly where cutting off the segments
  changes nothing.
* `glob_language_iff`: the same beside the braces, which are always expanded as they should be.
-/

namespace TigerClaw
namespace Cli

namespace GlobMatch

open GlobBraces (expandBraces Denotes Balanced)

def slash : UInt8 := 0x2F

def star : UInt8 := 0x2A

def question : UInt8 := 0x3F

def openClass : UInt8 := 0x5B

def closeClass : UInt8 := 0x5D

/-! ## Segments -/

/-- The matcher of one segment: what is left of the pattern against what is left of the name. -/
def matchAt : Bytes → Bytes → Bool
  | [], name => name.isEmpty
  | pc :: pattern, name =>
    if pc = star then
      let rest := pattern.dropWhile (· = star)
      if rest.isEmpty then true else name.tails.any fun k => matchAt rest k
    else if pc = question then
      match name with
      | [] => false
      | _ :: name => matchAt pattern name
    else if pc = openClass then
      match _h : Lines.cut closeClass pattern with
      | none => false
      | some (cls, rest) =>
        match name with
        | [] => false
        | n :: name => if cls.any (· = n) then matchAt rest name else false
    else
      match name with
      | [] => false
      | n :: name => if pc ≠ n then false else matchAt pattern name
termination_by pattern _ => pattern.length
decreasing_by
  · exact Nat.lt_succ_of_le (List.dropWhile_suffix _).length_le
  · exact Nat.lt_succ_self _
  · have hlength := congrArg List.length (Lines.cut_eq_some_iff.mp _h).1
    rw [List.length_append, List.length_cons] at hlength
    rw [List.length_cons]
    omega
  · exact Nat.lt_succ_self _

def matchSeg (pattern name : Bytes) : Bool := matchAt pattern name

/-- What a pattern says of a name. -/
inductive SegMatches : Bytes → Bytes → Prop
  | nil : SegMatches [] []
  /-- `*` is any run of bytes. -/
  | star {p t : Bytes} (s : Bytes) : SegMatches p t → SegMatches (star :: p) (s ++ t)
  /-- `?` is one byte. -/
  | question {p t : Bytes} (c : UInt8) : SegMatches p t → SegMatches (question :: p) (c :: t)
  /-- `[...]` is one of the bytes in it. -/
  | cls {cs p t : Bytes} {c : UInt8} : closeClass ∉ cs → c ∈ cs → SegMatches p t →
      SegMatches (openClass :: (cs ++ closeClass :: p)) (c :: t)
  | lit {c : UInt8} {p t : Bytes} : c ≠ star → c ≠ question → c ≠ openClass → SegMatches p t →
      SegMatches (c :: p) (c :: t)

/-! ## The search for one segment -/

theorem segMatches_nil_iff {t : Bytes} : SegMatches [] t ↔ t = [] := by
  constructor
  · intro h
    cases h
    rfl
  · rintro rfl
    exact .nil

theorem segMatches_star_iff {p t : Bytes} :
    SegMatches (star :: p) t ↔ ∃ k, k <:+ t ∧ SegMatches p k := by
  constructor
  · intro h
    cases h with
    | star s h => exact ⟨_, List.suffix_append s _, h⟩
    | lit hstar => exact absurd rfl hstar
  · rintro ⟨k, ⟨s, rfl⟩, h⟩
    exact .star s h

theorem segMatches_question_iff {p t : Bytes} :
    SegMatches (question :: p) t ↔ ∃ c rest, t = c :: rest ∧ SegMatches p rest := by
  constructor
  · intro h
    cases h with
    | question c h => exact ⟨c, _, rfl, h⟩
    | lit _ hquestion => exact absurd rfl hquestion
  · rintro ⟨c, rest, rfl, h⟩
    exact .question c h

theorem segMatches_class_iff {p t : Bytes} :
    SegMatches (openClass :: p) t ↔ ∃ cs rest c k, p = cs ++ closeClass :: rest ∧ closeClass ∉ cs ∧
      c ∈ cs ∧ t = c :: k ∧ SegMatches rest k := by
  constructor
  · intro h
    cases h with
    | cls hcs hc h => exact ⟨_, _, _, _, rfl, hcs, hc, rfl, h⟩
    | lit _ _ hclass => exact absurd rfl hclass
  · rintro ⟨cs, rest, c, k, rfl, hcs, hc, rfl, h⟩
    exact .cls hcs hc h

theorem segMatches_lit_iff {c : UInt8} {p t : Bytes} (hstar : c ≠ star) (hquestion : c ≠ question)
    (hclass : c ≠ openClass) :
    SegMatches (c :: p) t ↔ ∃ rest, t = c :: rest ∧ SegMatches p rest := by
  constructor
  · intro h
    cases h with
    | star => exact absurd rfl hstar
    | question => exact absurd rfl hquestion
    | cls => exact absurd rfl hclass
    | lit _ _ _ h => exact ⟨_, rfl, h⟩
  · rintro ⟨rest, rfl, h⟩
    exact .lit hstar hquestion hclass h

/-- Several stars say what one says. -/
theorem segMatches_stars_iff {p t : Bytes} :
    SegMatches (star :: p) t ↔ ∃ k, k <:+ t ∧ SegMatches (p.dropWhile (· = star)) k := by
  induction p with
  | nil => exact segMatches_star_iff
  | cons c p ih =>
    by_cases hc : c = star
    · subst hc
      rw [List.dropWhile_cons_of_pos (by simp), ← ih, segMatches_star_iff]
      constructor
      · rintro ⟨k, hk, h⟩
        obtain ⟨k', hk', h⟩ := segMatches_star_iff.mp h
        exact segMatches_star_iff.mpr ⟨k', hk'.trans hk, h⟩
      · exact fun h => ⟨t, List.suffix_refl t, h⟩
    · rw [List.dropWhile_cons_of_neg (by simpa using hc), segMatches_star_iff]

theorem matchAt_star (p name : Bytes) :
    matchAt (star :: p) name =
      if (p.dropWhile (· = star)).isEmpty then true
      else name.tails.any fun k => matchAt (p.dropWhile (· = star)) k := by
  rw [matchAt.eq_def]
  exact if_pos rfl

theorem matchAt_class_of_none {p : Bytes} (hcut : Lines.cut closeClass p = none) (name : Bytes) :
    matchAt (openClass :: p) name = false := by
  rw [matchAt.eq_def]
  dsimp only
  rw [if_neg (by decide), if_neg (by decide), if_pos rfl]
  split
  · rfl
  · rename_i hsome
    rw [hcut] at hsome
    cases hsome

theorem matchAt_class_of_some {p cls rest : Bytes}
    (hcut : Lines.cut closeClass p = some (cls, rest)) (name : Bytes) :
    matchAt (openClass :: p) name =
      match name with
      | [] => false
      | n :: name => if cls.any (· = n) then matchAt rest name else false := by
  rw [matchAt.eq_def]
  dsimp only
  rw [if_neg (by decide), if_neg (by decide), if_pos rfl]
  split
  · rename_i hnone
    rw [hcut] at hnone
    cases hnone
  · rename_i hsome
    rw [hcut] at hsome
    obtain ⟨rfl, rfl⟩ := Prod.mk.inj (Option.some.inj hsome)
    rfl

/-- **The search decides what a pattern says.** -/
theorem matchAt_iff (pattern name : Bytes) :
    matchAt pattern name = true ↔ SegMatches pattern name := by
  induction pattern, name using matchAt.induct with
  | case1 name => rw [matchAt, List.isEmpty_iff, segMatches_nil_iff]
  | case2 pattern name rest hrest =>
    rw [matchAt_star, if_pos hrest, segMatches_stars_iff]
    exact iff_of_true rfl ⟨[], List.nil_suffix, List.isEmpty_iff.mp hrest ▸ .nil⟩
  | case3 pattern name rest hrest ih =>
    rw [matchAt_star, if_neg hrest, List.any_eq_true, segMatches_stars_iff]
    exact exists_congr fun k => and_congr (List.mem_tails k name) (ih k)
  | case4 pattern hstar =>
    rw [matchAt, if_neg hstar, if_pos rfl, segMatches_question_iff]
    simp
  | case5 pattern c name hstar ih =>
    rw [matchAt, if_neg hstar, if_pos rfl, segMatches_question_iff]
    simp [ih]
  | case6 pattern name hcut hstar hquestion =>
    rw [matchAt_class_of_none hcut, segMatches_class_iff]
    refine iff_of_false Bool.false_ne_true ?_
    rintro ⟨cs, rest, c, k, hp, hcs, -⟩
    rw [Lines.cut_eq_some_iff.mpr ⟨hp, hcs⟩] at hcut
    cases hcut
  | case7 pattern cls rest hcut hstar hquestion =>
    rw [matchAt_class_of_some hcut, segMatches_class_iff]
    simp
  | case8 pattern cls rest hcut c name hmem hstar hquestion ih =>
    obtain ⟨hp, hcls⟩ := Lines.cut_eq_some_iff.mp hcut
    rw [matchAt_class_of_some hcut, segMatches_class_iff]
    dsimp only
    rw [if_pos hmem, ih]
    constructor
    · exact fun h => ⟨cls, rest, c, name, hp, hcls, by simpa using hmem, rfl, h⟩
    · rintro ⟨cs, rest', c', k, hp', hcs, -, hname, h⟩
      obtain ⟨rfl, rfl⟩ := List.cons.inj hname
      rw [Lines.cut_eq_some_iff.mpr ⟨hp', hcs⟩] at hcut
      obtain ⟨rfl, rfl⟩ := Prod.mk.inj (Option.some.inj hcut)
      exact h
  | case9 pattern cls rest hcut c name hmem hstar hquestion =>
    rw [matchAt_class_of_some hcut, segMatches_class_iff]
    dsimp only
    rw [if_neg hmem]
    refine iff_of_false Bool.false_ne_true ?_
    rintro ⟨cs, rest', c', k, hp', hcs, hc, hname, -⟩
    obtain ⟨rfl, rfl⟩ := List.cons.inj hname
    rw [Lines.cut_eq_some_iff.mpr ⟨hp', hcs⟩] at hcut
    obtain ⟨rfl, rfl⟩ := Prod.mk.inj (Option.some.inj hcut)
    exact hmem (by simpa using hc)
  | case10 c pattern hstar hquestion hclass =>
    rw [matchAt, if_neg hstar, if_neg hquestion, if_neg hclass,
      segMatches_lit_iff hstar hquestion hclass]
    simp
  | case11 c pattern hstar hquestion hclass n name hne =>
    rw [matchAt, if_neg hstar, if_neg hquestion, if_neg hclass, if_pos hne,
      segMatches_lit_iff hstar hquestion hclass]
    simp [Ne.symm hne]
  | case12 c pattern hstar hquestion hclass n name hne ih =>
    rw [matchAt, if_neg hstar, if_neg hquestion, if_neg hclass, if_neg hne,
      segMatches_lit_iff hstar hquestion hclass]
    simp [ih, not_not.mp hne]

/-! ## Paths -/

/-- The segment that stands for any segments. -/
def anySegs : Bytes := [star, star]

/-- What a pattern says of a path, segment by segment. -/
inductive SegsMatch : List Bytes → List Bytes → Prop
  | nil : SegsMatch [] []
  | any {ps xs : List Bytes} (ys : List Bytes) : SegsMatch ps xs →
      SegsMatch (anySegs :: ps) (ys ++ xs)
  | seg {p x : Bytes} {ps xs : List Bytes} : p ≠ anySegs → SegMatches p x → SegsMatch ps xs →
      SegsMatch (p :: ps) (x :: xs)

/-- The matcher of what is left of the two. -/
def matchSegs : List Bytes → List Bytes → Bool
  | [], xs => xs.isEmpty
  | p :: ps, xs =>
    if p = anySegs then xs.tails.any fun k => matchSegs ps k
    else
      match xs with
      | [] => false
      | x :: xs => if ¬ matchSeg p x then false else matchSegs ps xs

def maxPathSegs : ℕ := 64

/-- All segments between the slashes. -/
def segments (s : Bytes) : List Bytes := (s.splitOn slash).filter fun seg => seg ≠ []

/-- As many as the array holds. -/
def splitSegments (s : Bytes) : List Bytes := (segments s).take maxPathSegs

def matchFullPath (pattern path : Bytes) : Bool :=
  matchSegs (splitSegments pattern) (splitSegments path)

/-- What should be matched: no deep path, and the others as the pattern says. -/
def Matches (pattern path : Bytes) : Prop :=
  (segments path).length ≤ maxPathSegs ∧ SegsMatch (segments pattern) (segments path)

/-- **The search decides what a pattern says of a path.** -/
theorem matchSegs_iff (ps xs : List Bytes) : matchSegs ps xs = true ↔ SegsMatch ps xs := by
  induction ps generalizing xs with
  | nil =>
    rw [matchSegs, List.isEmpty_iff]
    constructor
    · rintro rfl
      exact .nil
    · intro h
      cases h
      rfl
  | cons p ps ih =>
    by_cases hp : p = anySegs
    · subst hp
      rw [matchSegs.eq_def]
      dsimp only
      rw [if_pos rfl, List.any_eq_true]
      constructor
      · rintro ⟨k, hk, h⟩
        obtain ⟨ys, rfl⟩ := (List.mem_tails k xs).mp hk
        exact .any ys ((ih k).mp h)
      · intro h
        cases h with
        | any ys h => exact ⟨_, (List.mem_tails _ _).mpr (List.suffix_append ys _), (ih _).mpr h⟩
        | seg hne => exact absurd rfl hne
    · cases xs with
      | nil =>
        rw [matchSegs, if_neg hp]
        refine iff_of_false Bool.false_ne_true fun h => ?_
        generalize hxs : ([] : List Bytes) = xs at h
        cases h with
        | any => exact hp rfl
        | seg => cases hxs
      | cons x xs =>
        have hseg : matchSeg p x = true ↔ SegMatches p x := matchAt_iff p x
        rw [matchSegs, if_neg hp]
        constructor
        · intro h
          by_cases hx : matchSeg p x = true
          · rw [if_neg (not_not_intro hx)] at h
            exact .seg hp (hseg.mp hx) ((ih xs).mp h)
          · rw [if_pos hx] at h
            cases h
        · intro h
          generalize hxs : x :: xs = l at h
          cases h with
          | any => exact absurd rfl hp
          | seg _ hx h =>
            obtain ⟨rfl, rfl⟩ := List.cons.inj hxs
            rw [if_neg (not_not_intro (hseg.mpr hx))]
            exact (ih xs).mpr h

/-- Cutting off the segments does no harm: it makes no deep path match, and loses nothing of the
pattern that another path depends on. -/
def Unharmed (pattern path : Bytes) : Prop :=
  ((segments path).length ≤ maxPathSegs ∧
    ((segments pattern).length ≤ maxPathSegs ∨
      (SegsMatch ((segments pattern).take maxPathSegs) (segments path) ↔
        SegsMatch (segments pattern) (segments path)))) ∨
  (maxPathSegs < (segments path).length ∧
    ¬ SegsMatch ((segments pattern).take maxPathSegs) ((segments path).take maxPathSegs))

/-- **When the matcher is right**: where the cut does no harm. -/
theorem matchFullPath_right_iff (pattern path : Bytes) :
    (matchFullPath pattern path = true ↔ Matches pattern path) ↔ Unharmed pattern path := by
  rw [matchFullPath, matchSegs_iff, splitSegments, splitSegments, Matches, Unharmed]
  rcases Nat.lt_or_ge maxPathSegs (segments path).length with hdeep | hle
  · rw [or_iff_right fun h => absurd h.1 (Nat.not_le_of_lt hdeep), and_iff_right hdeep]
    exact ⟨fun h hm => absurd (h.mp hm).1 (Nat.not_le_of_lt hdeep),
      fun h => ⟨fun hm => absurd hm h, fun hm => absurd hm.1 (Nat.not_le_of_lt hdeep)⟩⟩
  · rw [or_iff_left fun h => absurd h.1 (Nat.not_lt_of_ge hle), and_iff_right hle,
      and_iff_right hle, List.take_of_length_le hle]
    refine ⟨.inr, ?_⟩
    rintro (hshort | h)
    · rw [List.take_of_length_le hshort]
    · exact h

/-- **When the language of the patterns is that of the doc.**  The braces are always expanded to
their alternatives in order, and fail exactly if they do not pair up; a path is matched as it should
be where the cut does no harm. -/
theorem glob_language_iff (pattern path : Bytes) :
    ((matchFullPath pattern path = true ↔ Matches pattern path) ∧
      (∀ l, expandBraces pattern = .ok l ↔ Denotes .whole pattern l) ∧
      (expandBraces pattern = .error .invalidPattern ↔ ¬ Balanced pattern)) ↔
      Unharmed pattern path := by
  rw [and_iff_left ⟨GlobBraces.expandBraces_eq_ok_iff pattern,
    GlobBraces.expandBraces_eq_error_iff pattern⟩]
  exact matchFullPath_right_iff pattern path

/-- A path of 65 segments is matched. -/
theorem matchFullPath_deep :
    ∃ path, (segments path).length = 65 ∧ matchFullPath anySegs path = true ∧
      ¬ Matches anySegs path := by
  refine ⟨(List.replicate 65 [0x61, slash]).flatten, by decide, by decide, ?_⟩
  exact fun h => absurd h.1 (by decide)

end GlobMatch

end Cli
end TigerClaw
