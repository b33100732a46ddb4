import TigerClaw.Tui.Mention
import Mathlib.Data.List.Induction
import Mathlib.Data.List.TakeWhile
import Mathlib.Data.Nat.Basic
import Mathlib.Data.Prod.Lex

/-!
# Where a reply mentions an agent

A mention has a place in the text: its line, and where its `@` stands in the line.

* `FenceLine`, `HeaderLine`: the lines that are no part of what an agent says.
* `NameAt`, `ScannedAt`, `MentionedAt`: a name in a line, a line in the text, and an agent.
* `visits`: the places that `findAll` comes to, with their names.
* `findAll_exact`: it returns the agents that have a place, each once, in the order of the first.
-/

namespace TigerClaw
namespace Tui
namespace Mention

/-! ## Lines that are not scanned -/

/-- A line that opens or closes a code block. -/
def FenceLine (line : Bytes) : Prop :=
  ∃ indent rest, (∀ c ∈ indent, isSpace c) ∧ line = indent ++ 0x60 :: 0x60 :: 0x60 :: rest

/-- A line that quotes a reply: `@name`, a word behind it or none, and a colon. -/
def HeaderLine (known : List Bytes) (line : Bytes) : Prop :=
  ∃ indent name gap word gap' rest,
    (∀ c ∈ indent, isSpace c) ∧ (∀ c ∈ name, isNameChar c) ∧ (∀ c ∈ gap, isSpace c) ∧
      (∀ c ∈ word, isAlpha c) ∧ (∀ c ∈ gap', isSpace c) ∧ name ≠ [] ∧ (word ≠ [] → gap ≠ []) ∧
      (∃ k ∈ known, eqlIgnoreCase k name) ∧
      line = indent ++ 0x40 :: (name ++ (gap ++ (word ++ (gap' ++ 0x3A :: rest))))

/-- What is behind a run ends it. -/
theorem dropWhile_append_cons {p : UInt8 → Bool} {run : Bytes} {c : UInt8} {l : Bytes}
    (hrun : ∀ b ∈ run, p b) (hc : p c = false) :
    (run ++ c :: l).dropWhile p = c :: l ∧ (run ++ c :: l).takeWhile p = run := by
  rw [List.dropWhile_append_of_pos hrun, List.takeWhile_append_of_pos hrun]
  simp [hc]

theorem isFenceLine_iff (line : Bytes) : isFenceLine line = true ↔ FenceLine line := by
  rw [isFenceLine]
  constructor
  · intro h
    split at h
    · rename_i rest hrest
      refine ⟨line.takeWhile isSpace, rest, fun c hc => List.mem_takeWhile_imp hc, ?_⟩
      rw [← hrest, List.takeWhile_append_dropWhile]
    · cases h
  · rintro ⟨indent, rest, hindent, rfl⟩
    rw [(dropWhile_append_cons hindent (by decide)).1]
    rfl

theorem not_isNameChar_of_isSpace {c : UInt8} (h : isSpace c = true) : isNameChar c = false := by
  rw [isSpace, Bool.or_eq_true, beq_iff_eq, beq_iff_eq] at h
  rcases h with rfl | rfl <;> rfl

theorem isNameChar_of_isAlpha {c : UInt8} (h : isAlpha c = true) : isNameChar c = true := by
  rw [isNameChar, h]
  rfl

theorem not_isAlpha_of_not_isNameChar {c : UInt8} (h : isNameChar c = false) :
    isAlpha c = false :=
  Bool.eq_false_iff.mpr fun halpha =>
    Bool.eq_false_iff.mp h (isNameChar_of_isAlpha halpha)

theorem not_isSpace_of_isAlpha {c : UInt8} (h : isAlpha c = true) : isSpace c = false :=
  Bool.eq_false_iff.mpr fun hspace =>
    Bool.eq_false_iff.mp (not_isNameChar_of_isSpace hspace) (isNameChar_of_isAlpha h)

/-- Blanks and a colon end a name. -/
theorem exists_cons_of_gap {gap : Bytes} (hgap : ∀ c ∈ gap, isSpace c) (rest : Bytes) :
    ∃ c tail, gap ++ 0x3A :: rest = c :: tail ∧ isNameChar c = false := by
  cases gap with
  | nil => exact ⟨0x3A, rest, rfl, rfl⟩
  | cons c gap =>
    exact ⟨c, gap ++ 0x3A :: rest, rfl, not_isNameChar_of_isSpace (hgap c List.mem_cons_self)⟩

/-- What is behind a name does not go on with it. -/
theorem not_isNameChar_of_dropWhile {s tail : Bytes} {c : UInt8}
    (h : s.dropWhile isNameChar = c :: tail) : isNameChar c = false := by
  have hhead := List.head?_dropWhile_not isNameChar s
  rw [h, List.head?_cons] at hhead
  simpa using hhead

theorem isSyntheticHeaderLine_of_at {known : List Bytes} {line rest : Bytes}
    (h : line.dropWhile isSpace = 0x40 :: rest) :
    isSyntheticHeaderLine line known =
      if rest.takeWhile isNameChar = [] then false
      else if ¬ known.any (eqlIgnoreCase · (rest.takeWhile isNameChar)) then false
      else
        let after := (rest.dropWhile isNameChar).dropWhile isSpace
        if after.head? = some 0x3A then true
        else if after.takeWhile isAlpha = [] then false
        else ((after.dropWhile isAlpha).dropWhile isSpace).head? = some 0x3A := by
  rw [isSyntheticHeaderLine, h]
  rfl

theorem isSyntheticHeaderLine_of_headerLine {known : List Bytes} {line : Bytes}
    (h : HeaderLine known line) : isSyntheticHeaderLine line known = true := by
  obtain ⟨indent, name, gap, word, gap', rest, hindent, hname, hgap, hword, hgap', hne, hapart,
    ⟨k, hk, hkname⟩, rfl⟩ := h
  have hknown : known.any (eqlIgnoreCase · name) = true := List.any_eq_true.mpr ⟨k, hk, hkname⟩
  have hblank : isSpace 0x3A = false := rfl
  rw [isSyntheticHeaderLine_of_at (dropWhile_append_cons hindent (by decide)).1]
  cases word with
  | nil =>
    have hgaps : ∀ c ∈ gap ++ gap', isSpace c := fun c hc =>
      (List.mem_append.mp hc).elim (hgap c) (hgap' c)
    obtain ⟨d, tail, htail, hd⟩ := exists_cons_of_gap hgaps rest
    have hcolon := (dropWhile_append_cons (l := rest) hgaps hblank).1
    rw [List.append_assoc] at htail hcolon
    have hrun := dropWhile_append_cons (l := tail) hname hd
    rw [← htail] at hrun
    rw [List.nil_append, hrun.1, hrun.2, hcolon, if_neg hne, if_neg (by simp [hknown])]
    rfl
  | cons w word =>
    have hw : isAlpha w = true := hword w List.mem_cons_self
    cases gap with
    | nil => exact absurd rfl (hapart (List.cons_ne_nil w word))
    | cons g gap =>
      obtain ⟨c, tail, htail, hc⟩ := exists_cons_of_gap hgap' rest
      have hg : isNameChar g = false := not_isNameChar_of_isSpace (hgap g List.mem_cons_self)
      have hrun := dropWhile_append_cons (l := gap ++ (w :: (word ++ (gap' ++ 0x3A :: rest))))
        hname hg
      have hspace := (dropWhile_append_cons (l := word ++ (gap' ++ 0x3A :: rest)) hgap
        (not_isSpace_of_isAlpha hw)).1
      have halpha := dropWhile_append_cons (l := tail) hword (not_isAlpha_of_not_isNameChar hc)
      have hcolon := (dropWhile_append_cons (l := rest) hgap' hblank).1
      rw [← htail] at halpha
      simp only [List.cons_append] at hrun hspace halpha ⊢
      simp only [hrun.1, hrun.2, hspace, if_neg hne, hknown, not_true_eq_false, if_false,
        halpha.2, if_neg (List.cons_ne_nil w word), halpha.1, hcolon, List.head?_cons,
        decide_true, ite_self]

theorem headerLine_of_isSyntheticHeaderLine {known : List Bytes} {line : Bytes}
    (h : isSyntheticHeaderLine line known = true) : HeaderLine known line := by
  obtain ⟨rest, hrest⟩ : ∃ rest, line.dropWhile isSpace = 0x40 :: rest := by
    rw [isSyntheticHeaderLine] at h
    split at h
    · exact ⟨_, ‹_›⟩
    · cases h
  rw [isSyntheticHeaderLine_of_at hrest] at h
  have hline : line = line.takeWhile isSpace ++ 0x40 :: rest := by
    rw [← hrest, List.takeWhile_append_dropWhile]
  have hsplit : rest = rest.takeWhile isNameChar ++
      ((rest.dropWhile isNameChar).takeWhile isSpace ++
        (rest.dropWhile isNameChar).dropWhile isSpace) := by
    rw [List.takeWhile_append_dropWhile, List.takeWhile_append_dropWhile]
  dsimp only at h
  generalize hafter : (rest.dropWhile isNameChar).dropWhile isSpace = after at h hsplit
  split at h
  · cases h
  rename_i hne
  split at h
  · cases h
  rename_i hknown
  rw [not_not, List.any_eq_true] at hknown
  split at h
  · -- the colon is behind the name
    rename_i hcolon
    obtain ⟨rest', rfl⟩ := List.head?_eq_some_iff.mp hcolon
    refine ⟨line.takeWhile isSpace, rest.takeWhile isNameChar,
      (rest.dropWhile isNameChar).takeWhile isSpace, [], [], rest',
      fun c hc => List.mem_takeWhile_imp hc, fun c hc => List.mem_takeWhile_imp hc,
      fun c hc => List.mem_takeWhile_imp hc, by simp, by simp, hne, by simp, hknown, ?_⟩
    rw [List.nil_append, List.nil_append, ← hsplit]
    exact hline
  split at h
  · cases h
  -- a word is in front of the colon
  rename_i hword
  obtain ⟨rest', hrest'⟩ := List.head?_eq_some_iff.mp (of_decide_eq_true h)
  refine ⟨line.takeWhile isSpace, rest.takeWhile isNameChar,
    (rest.dropWhile isNameChar).takeWhile isSpace, after.takeWhile isAlpha,
    (after.dropWhile isAlpha).takeWhile isSpace, rest',
    fun c hc => List.mem_takeWhile_imp hc, fun c hc => List.mem_takeWhile_imp hc,
    fun c hc => List.mem_takeWhile_imp hc, fun c hc => List.mem_takeWhile_imp hc,
    fun c hc => List.mem_takeWhile_imp hc, hne, fun _ hgap => ?_, hknown, ?_⟩
  · -- without a blank the word would go on with the name
    have hbehind : rest.dropWhile isNameChar = after := by
      rw [← hafter]
      conv_lhs => rw [← List.takeWhile_append_dropWhile (p := isSpace)
        (l := rest.dropWhile isNameChar), hgap, List.nil_append]
    cases after with
    | nil => exact hword rfl
    | cons c after =>
      have hc := not_isAlpha_of_not_isNameChar (not_isNameChar_of_dropWhile hbehind)
      rw [List.takeWhile_cons, hc] at hword
      exact hword rfl
  · rw [← hrest', List.takeWhile_append_dropWhile, List.takeWhile_append_dropWhile, ← hsplit]
    exact hline

theorem isSyntheticHeaderLine_iff (known : List Bytes) (line : Bytes) :
    isSyntheticHeaderLine line known = true ↔ HeaderLine known line :=
  ⟨headerLine_of_isSyntheticHeaderLine, isSyntheticHeaderLine_of_headerLine⟩

/-! ## Names in a line -/

/-- A whole name behind an `@`, the character before which belongs to no name. -/
def NameAt (line : Bytes) (pos : ℕ) (name : Bytes) : Prop :=
  ∃ before after, line = before ++ 0x40 :: after ∧ before.length = pos ∧
    before.getLast?.all (fun c => !isNameChar c) = true ∧ after.takeWhile isNameChar = name ∧
    name ≠ []

/-- `names`, with the places. -/
def placed (prev : Option UInt8) (pos : ℕ) : Bytes → List (ℕ × Bytes)
  | [] => []
  | c :: cs =>
    let rest := placed (some c) (pos + 1) cs
    if c = 0x40 ∧ prev.all (fun p => !isNameChar p) then
      let name := cs.takeWhile isNameChar
      if name = [] then rest else (pos, name) :: rest
    else rest

theorem map_snd_placed (prev : Option UInt8) (pos : ℕ) (line : Bytes) :
    (placed prev pos line).map Prod.snd = names prev line := by
  induction line generalizing prev pos with
  | nil => rfl
  | cons c cs ih =>
    simp only [placed, names]
    split_ifs <;> simp [ih]

theorem nameAt_length {before cs : Bytes} {c : UInt8} {name : Bytes} :
    NameAt (before ++ c :: cs) before.length name ↔
      c = 0x40 ∧ before.getLast?.all (fun c => !isNameChar c) = true ∧
        cs.takeWhile isNameChar = name ∧ name ≠ [] := by
  constructor
  · rintro ⟨before', after, heq, hlength, hprev, hname, hne⟩
    obtain ⟨rfl, hrest⟩ := List.append_inj heq hlength.symm
    obtain ⟨rfl, rfl⟩ := List.cons.inj hrest
    exact ⟨rfl, hprev, hname, hne⟩
  · rintro ⟨rfl, hprev, hname, hne⟩
    exact ⟨before, cs, rfl, rfl, hprev, hname, hne⟩

/-- **What is placed is what stands there.** -/
theorem mem_placed (before : Bytes) {line : Bytes} {pos : ℕ} {name : Bytes} :
    (pos, name) ∈ placed before.getLast? before.length line ↔
      before.length ≤ pos ∧ NameAt (before ++ line) pos name := by
  induction line generalizing before with
  | nil =>
    refine iff_of_false List.not_mem_nil ?_
    rintro ⟨hle, before', after, heq, rfl, -⟩
    rw [List.append_nil] at heq
    rw [heq, List.length_append, List.length_cons] at hle
    omega
  | cons c cs ih =>
    have hrest := ih (before ++ [c])
    rw [List.getLast?_append, List.length_append, List.append_assoc] at hrest
    have hsplit : (pos, name) ∈ placed before.getLast? before.length (c :: cs) ↔
        (pos = before.length ∧ NameAt (before ++ c :: cs) before.length name) ∨
          (pos, name) ∈ placed (some c) (before.length + 1) cs := by
      rw [nameAt_length, placed]
      dsimp only
      split_ifs with hat hname
      · refine (or_iff_right ?_).symm
        rintro ⟨-, -, -, hrun, hne⟩
        exact hne (hrun.symm.trans hname)
      · rw [List.mem_cons, Prod.mk.injEq]
        refine or_congr_left (and_congr_right fun _ => ?_)
        constructor
        · rintro rfl
          exact ⟨hat.1, hat.2, rfl, hname⟩
        · exact fun h => h.2.2.1.symm
      · refine (or_iff_right ?_).symm
        rintro ⟨-, hc, hprev, -⟩
        exact hat ⟨hc, hprev⟩
    rw [hsplit]
    have hrest' : (pos, name) ∈ placed (some c) (before.length + 1) cs ↔
        before.length + 1 ≤ pos ∧ NameAt (before ++ c :: cs) pos name := by
      simpa using hrest
    rw [hrest']
    constructor
    · rintro (⟨rfl, hname⟩ | ⟨hle, hname⟩)
      · exact ⟨le_refl _, hname⟩
      · exact ⟨by omega, hname⟩
    · rintro ⟨hle, hname⟩
      rcases Nat.eq_or_lt_of_le hle with rfl | hlt
      · exact .inl ⟨rfl, hname⟩
      · exact .inr ⟨hlt, hname⟩

theorem placed_sorted (prev : Option UInt8) (pos : ℕ) (line : Bytes) :
    (placed prev pos line).Pairwise (fun a b => a.1 < b.1) ∧
      ∀ a ∈ placed prev pos line, pos ≤ a.1 := by
  induction line generalizing prev pos with
  | nil => exact ⟨List.Pairwise.nil, fun a ha => absurd ha List.not_mem_nil⟩
  | cons c cs ih =>
    obtain ⟨hsorted, hle⟩ := ih (some c) (pos + 1)
    have hle' : ∀ a ∈ placed (some c) (pos + 1) cs, pos ≤ a.1 := fun a ha =>
      (Nat.le_succ pos).trans (hle a ha)
    rw [placed]
    dsimp only
    split_ifs
    · exact ⟨hsorted, hle'⟩
    · refine ⟨List.pairwise_cons.mpr ⟨fun a ha => hle a ha, hsorted⟩, fun a ha => ?_⟩
      rcases List.mem_cons.mp ha with rfl | ha
      · exact le_refl pos
      · exact hle' a ha
    · exact ⟨hsorted, hle'⟩

/-! ## Lines in the text -/

variable (known : List Bytes)

/-- Line `i`, if it is outside of every code block, and neither opens one nor quotes a reply. -/
def ScannedAt (lines : List Bytes) (i : ℕ) (line : Bytes) : Prop :=
  ∃ before after, lines = before ++ line :: after ∧ before.length = i ∧
    before.countP isFenceLine % 2 = 0 ∧ ¬ FenceLine line ∧ ¬ HeaderLine known line

/-- The agent is mentioned at a place: in whatever case, it is the whole name there. -/
def MentionedAt (text : Bytes) (r : Bytes) (p : ℕ ×ₗ ℕ) : Prop :=
  ∃ line name, ScannedAt known (text.splitOn 0x0A) (ofLex p).1 line ∧
    NameAt line (ofLex p).2 name ∧ eqlIgnoreCase r name = true

/-- The names of the lines that are left to scan, with their places. -/
def visits : Bool → ℕ → List Bytes → List ((ℕ ×ₗ ℕ) × Bytes)
  | _, _, [] => []
  | inFence, i, line :: lines =>
    if isFenceLine line then visits (!inFence) (i + 1) lines
    else if inFence then visits inFence (i + 1) lines
    else if isSyntheticHeaderLine line known then visits inFence (i + 1) lines
    else
      (placed none 0 line).map (fun q => (toLex (i, q.1), q.2)) ++ visits inFence (i + 1) lines

/-- **The names are added as they are visited.** -/
theorem findIn_eq_foldl (invoker : Bytes) (inFence : Bool) (i : ℕ) (out lines : List Bytes) :
    findIn known invoker inFence out lines =
      ((visits known inFence i lines).map Prod.snd).foldl (add known invoker) out := by
  induction lines generalizing inFence i out with
  | nil => rfl
  | cons line lines ih =>
    rw [findIn, visits]
    split_ifs
    · exact ih _ (i + 1) out
    · exact ih _ (i + 1) out
    · exact ih _ (i + 1) out
    · rw [ih _ (i + 1), List.map_append, List.foldl_append, List.map_map, scanLine,
        ← map_snd_placed none 0 line]
      rfl

theorem scannedAt_length {before lines : List Bytes} {line line' : Bytes} :
    ScannedAt known (before ++ line :: lines) before.length line' ↔
      line' = line ∧ before.countP isFenceLine % 2 = 0 ∧ ¬ FenceLine line ∧
        ¬ HeaderLine known line := by
  constructor
  · rintro ⟨before', after, heq, hlength, hrest⟩
    obtain ⟨rfl, htail⟩ := List.append_inj heq hlength.symm
    obtain ⟨rfl, rfl⟩ := List.cons.inj htail
    exact ⟨rfl, hrest⟩
  · rintro ⟨rfl, hrest⟩
    exact ⟨before, lines, rfl, rfl, hrest⟩

/-- **What is visited is what is scanned.** -/
theorem mem_visits (before : List Bytes) {lines : List Bytes} {i pos : ℕ} {name : Bytes} :
    (toLex (i, pos), name) ∈
        visits known (decide (before.countP isFenceLine % 2 = 1)) before.length lines ↔
      before.length ≤ i ∧
        ∃ line, ScannedAt known (before ++ lines) i line ∧ NameAt line pos name := by
  induction lines generalizing before with
  | nil =>
    refine iff_of_false List.not_mem_nil ?_
    rintro ⟨hle, line, ⟨before', after, heq, rfl, -⟩, -⟩
    rw [List.append_nil] at heq
    rw [heq, List.length_append, List.length_cons] at hle
    omega
  | cons line lines ih =>
    have hrest := ih (before ++ [line])
    rw [List.countP_append, List.length_append, List.length_singleton, List.append_assoc,
      List.singleton_append, List.countP_singleton] at hrest
    have hhere : (∃ line', ScannedAt known (before ++ line :: lines) before.length line' ∧
        NameAt line' pos name) ↔ before.countP isFenceLine % 2 = 0 ∧ isFenceLine line = false ∧
          isSyntheticHeaderLine line known = false ∧ NameAt line pos name := by
      simp only [scannedAt_length, ← isFenceLine_iff, ← isSyntheticHeaderLine_iff, Bool.not_eq_true]
      constructor
      · rintro ⟨line', ⟨rfl, hcount, hfence, hheader⟩, hname⟩
        exact ⟨hcount, hfence, hheader, hname⟩
      · rintro ⟨hcount, hfence, hheader, hname⟩
        exact ⟨line, ⟨rfl, hcount, hfence, hheader⟩, hname⟩
    have hsplit : (before.length ≤ i ∧
        ∃ line', ScannedAt known (before ++ line :: lines) i line' ∧ NameAt line' pos name) ↔
        (i = before.length ∧ before.countP isFenceLine % 2 = 0 ∧ isFenceLine line = false ∧
          isSyntheticHeaderLine line known = false ∧ NameAt line pos name) ∨
        (before.length + 1 ≤ i ∧
          ∃ line', ScannedAt known (before ++ line :: lines) i line' ∧ NameAt line' pos name) := by
      rw [← hhere]
      constructor
      · rintro ⟨hle, h⟩
        rcases Nat.eq_or_lt_of_le hle with rfl | hlt
        · exact .inl ⟨rfl, h⟩
        · exact .inr ⟨hlt, h⟩
      · rintro (⟨rfl, h⟩ | ⟨hle, h⟩)
        · exact ⟨le_refl _, h⟩
        · exact ⟨by omega, h⟩
    rw [hsplit, ← hrest, visits]
    cases hfence : isFenceLine line with
    | true =>
      have hflip : (!decide (before.countP isFenceLine % 2 = 1)) =
          decide ((before.countP isFenceLine + 1) % 2 = 1) := by
        rw [← decide_not, decide_eq_decide]
        omega
      simp [hflip]
    | false =>
      by_cases hin : before.countP isFenceLine % 2 = 1
      · simp [hin]
      · cases hheader : isSyntheticHeaderLine line known with
        | true => simp [hin]
        | false =>
          have hplaced : (pos, name) ∈ placed none 0 line ↔ NameAt line pos name := by
            simpa using @mem_placed [] line pos name
          have heven : before.countP isFenceLine % 2 = 0 := by omega
          simp [heven, ← hplaced, eq_comm, and_comm]

theorem visits_sorted (inFence : Bool) (i : ℕ) (lines : List Bytes) :
    (visits known inFence i lines).Pairwise (fun a b => a.1 < b.1) ∧
      ∀ a ∈ visits known inFence i lines, i ≤ (ofLex a.1).1 := by
  induction lines generalizing inFence i with
  | nil => exact ⟨List.Pairwise.nil, fun a ha => absurd ha List.not_mem_nil⟩
  | cons line lines ih =>
    have hskip : ∀ inFence, (visits known inFence (i + 1) lines).Pairwise (fun a b => a.1 < b.1) ∧
        ∀ a ∈ visits known inFence (i + 1) lines, i ≤ (ofLex a.1).1 := fun inFence =>
      ⟨(ih inFence (i + 1)).1, fun a ha => (Nat.le_succ i).trans ((ih inFence (i + 1)).2 a ha)⟩
    rw [visits]
    split_ifs
    · exact hskip _
    · exact hskip _
    · exact hskip _
    · have hline := (placed_sorted none 0 line).1
      refine ⟨List.pairwise_append.mpr ⟨?_, (hskip _).1, ?_⟩, fun a ha => ?_⟩
      · refine List.pairwise_map.mpr (hline.imp fun {a b} hab => ?_)
        exact Prod.Lex.toLex_lt_toLex.mpr (.inr ⟨rfl, hab⟩)
      · intro a ha b hb
        obtain ⟨q, -, rfl⟩ := List.mem_map.mp ha
        have hb' := (ih _ (i + 1)).2 b hb
        exact Prod.Lex.lt_iff.mpr (.inl (Nat.lt_of_succ_le hb'))
      · rcases List.mem_append.mp ha with ha | ha
        · obtain ⟨q, -, rfl⟩ := List.mem_map.mp ha
          exact le_refl i
        · exact (hskip _).2 a ha

/-! ## The names that are found -/

/-- The agents that are mentioned at some places: each once, in the order of the first. -/
structure Found {P : Type} [LE P] (known : List Bytes) (invoker : Bytes)
    (mentioned : Bytes → P → Prop) (out : List Bytes) : Prop where
  mem_known : ∀ r ∈ out, r ∈ known
  ne_invoker : ∀ r ∈ out, eqlIgnoreCase r invoker = false
  has_place : ∀ r ∈ out, ∃ p, mentioned r p
  complete : ∀ k ∈ known, eqlIgnoreCase k invoker = false → (∃ p, mentioned k p) →
    ∃ r ∈ out, eqlIgnoreCase r k = true
  distinct : out.Pairwise fun a b => eqlIgnoreCase a b = false
  ordered : out.Pairwise fun a b => ∃ p, mentioned a p ∧ ∀ q ≤ p, ¬ mentioned b q

/-- The agent is one of the names that have been visited. -/
def Visited {P : Type} (visited : List (P × Bytes)) (r : Bytes) (p : P) : Prop :=
  ∃ name, (p, name) ∈ visited ∧ eqlIgnoreCase r name = true

theorem visited_concat {P : Type} {visited : List (P × Bytes)} {p q : P} {name r : Bytes} :
    Visited (visited ++ [(p, name)]) r q ↔
      Visited visited r q ∨ q = p ∧ eqlIgnoreCase r name = true := by
  simp only [Visited, List.mem_append, List.mem_singleton, Prod.mk.injEq]
  constructor
  · rintro ⟨name', hmem | ⟨rfl, rfl⟩, hr⟩
    · exact .inl ⟨name', hmem, hr⟩
    · exact .inr ⟨rfl, hr⟩
  · rintro (⟨name', hmem, hr⟩ | ⟨rfl, hr⟩)
    · exact ⟨name', .inl hmem, hr⟩
    · exact ⟨name, .inr ⟨rfl, rfl⟩, hr⟩

/-- **What the names that are visited in the order of their places add up to.** -/
theorem found_foldl_add {P : Type} [LinearOrder P] (invoker : Bytes) {visited : List (P × Bytes)}
    (hsorted : visited.Pairwise fun a b => a.1 < b.1) :
    Found known invoker (Visited visited)
      ((visited.map Prod.snd).foldl (add known invoker) []) := by
  induction visited using List.reverseRecOn with
  | nil =>
    have hnone : ∀ (k : Bytes) (p : P), ¬ Visited [] k p := fun k p ⟨name, hmem, _⟩ =>
      List.not_mem_nil hmem
    exact ⟨fun r hr => absurd hr List.not_mem_nil, fun r hr => absurd hr List.not_mem_nil,
      fun r hr => absurd hr List.not_mem_nil, fun k _ _ ⟨p, hp⟩ => absurd hp (hnone k p),
      .nil, .nil⟩
  | append_singleton visited last ih =>
    obtain ⟨p, name⟩ := last
    obtain ⟨hbefore, -, hlast⟩ := List.pairwise_append.mp hsorted
    have ih := ih hbefore
    rw [List.map_append, List.foldl_append]
    show Found known invoker _ (add known invoker _ name)
    generalize (visited.map Prod.snd).foldl (add known invoker) [] = out at ih ⊢
    have hearlier : ∀ {r q}, Visited visited r q → q < p := fun ⟨name', hmem, _⟩ =>
      hlast _ hmem _ List.mem_cons_self
    have hordered : out.Pairwise fun a b => ∃ q, Visited (visited ++ [(p, name)]) a q ∧
        ∀ q' ≤ q, ¬ Visited (visited ++ [(p, name)]) b q' := by
      refine ih.ordered.imp fun {a b} ⟨q, hq, hb⟩ => ⟨q, visited_concat.mpr (.inl hq), ?_⟩
      intro q' hq' hvisited
      rcases visited_concat.mp hvisited with hvisited | ⟨rfl, -⟩
      · exact hb q' hq' hvisited
      · exact absurd (hearlier hq) (not_lt_of_ge hq')
    -- where nothing is added, the agent is the invoker, unknown, or there already
    have hsame : (∀ k ∈ known, eqlIgnoreCase k invoker = false → eqlIgnoreCase k name = true →
        ∃ r ∈ out, eqlIgnoreCase r k = true) →
        Found known invoker (Visited (visited ++ [(p, name)])) out := by
      intro hthere
      refine ⟨ih.mem_known, ih.ne_invoker, fun r hr => ?_, fun k hk hother ⟨q, hq⟩ => ?_,
        ih.distinct, hordered⟩
      · obtain ⟨q, hq⟩ := ih.has_place r hr
        exact ⟨q, visited_concat.mpr (.inl hq)⟩
      · rcases visited_concat.mp hq with hq | ⟨-, hname⟩
        · exact ih.complete k hk hother ⟨q, hq⟩
        · exact hthere k hk hother hname
    rw [add]
    split
    · rename_i hinvoker
      refine hsame fun k _ hother hname => ?_
      rw [eqlIgnoreCase_congr hname, hinvoker] at hother
      cases hother
    rename_i hinvoker
    split
    · rename_i hnone
      refine hsame fun k hk _ hname => ?_
      exact absurd hname (List.find?_eq_none.mp hnone k hk)
    rename_i r hr
    have hname : eqlIgnoreCase r name = true := List.find?_some (p := (eqlIgnoreCase · name)) hr
    split
    · rename_i hseen
      refine hsame fun k _ _ hk => ?_
      obtain ⟨m, hm, hmr⟩ := List.any_eq_true.mp hseen
      refine ⟨m, hm, ?_⟩
      rw [eqlIgnoreCase_congr hmr, eqlIgnoreCase_congr hname, eqlIgnoreCase_comm]
      exact hk
    · rename_i hnew
      have hother : eqlIgnoreCase r invoker = false := by
        rw [eqlIgnoreCase_congr hname]
        exact Bool.eq_false_iff.mpr hinvoker
      have hdistinct : ∀ m ∈ out, eqlIgnoreCase m r = false := fun m hm =>
        Bool.eq_false_iff.mpr fun hmr => hnew (List.any_eq_true.mpr ⟨m, hm, hmr⟩)
      have hfresh : ∀ q, ¬ Visited visited r q := by
        intro q hq
        obtain ⟨m, hm, hmr⟩ := ih.complete r (List.mem_of_find?_eq_some hr) hother ⟨q, hq⟩
        rw [hdistinct m hm] at hmr
        cases hmr
      refine ⟨fun m hm => ?_, fun m hm => ?_, fun m hm => ?_, fun k hk hko ⟨q, hq⟩ => ?_, ?_, ?_⟩
      · rcases List.mem_append.mp hm with hm | hm
        · exact ih.mem_known m hm
        · rw [List.mem_singleton.mp hm]
          exact List.mem_of_find?_eq_some hr
      · rcases List.mem_append.mp hm with hm | hm
        · exact ih.ne_invoker m hm
        · rw [List.mem_singleton.mp hm]
          exact hother
      · rcases List.mem_append.mp hm with hm | hm
        · obtain ⟨q, hq⟩ := ih.has_place m hm
          exact ⟨q, visited_concat.mpr (.inl hq)⟩
        · rw [List.mem_singleton.mp hm]
          exact ⟨p, visited_concat.mpr (.inr ⟨rfl, hname⟩)⟩
      · rcases visited_concat.mp hq with hq | ⟨-, hkname⟩
        · obtain ⟨m, hm, hmk⟩ := ih.complete k hk hko ⟨q, hq⟩
          exact ⟨m, List.mem_append_left _ hm, hmk⟩
        · refine ⟨r, List.mem_append_right _ List.mem_cons_self, ?_⟩
          rw [eqlIgnoreCase_congr hname, eqlIgnoreCase_comm]
          exact hkname
      · refine List.pairwise_append.mpr ⟨ih.distinct, List.pairwise_singleton _ _, ?_⟩
        intro m hm b hb
        rw [List.mem_singleton.mp hb]
        exact hdistinct m hm
      · refine List.pairwise_append.mpr ⟨hordered, List.pairwise_singleton _ _, ?_⟩
        intro m hm b hb
        obtain ⟨q, hq⟩ := ih.has_place m hm
        rw [List.mem_singleton.mp hb]
        refine ⟨q, visited_concat.mpr (.inl hq), fun q' hq' hvisited => ?_⟩
        rcases visited_concat.mp hvisited with hvisited | ⟨rfl, -⟩
        · exact hfresh q' hvisited
        · exact absurd (hearlier hq) (not_lt_of_ge hq')

/-- **What a reply mentions is found, and nothing else**: the known agents other than the speaker
that have a place in it, each once, in the order of the first place. -/
theorem findAll_exact (text : Bytes) (known : List Bytes) (invoker : Bytes) :
    Found known invoker (MentionedAt known text) (findAll text known invoker) := by
  have hvisited : MentionedAt known text = Visited (visits known false 0 (text.splitOn 0x0A)) := by
    funext r p
    have hmem := fun name => @mem_visits known [] (text.splitOn 0x0A) (ofLex p).1 (ofLex p).2 name
    simp only [List.countP_nil, Nat.zero_mod, Nat.zero_ne_one, decide_false, List.length_nil,
      Nat.zero_le, true_and, List.nil_append] at hmem
    refine propext ⟨?_, ?_⟩
    · rintro ⟨line, name, hscanned, hname, hr⟩
      exact ⟨name, (hmem name).mpr ⟨line, hscanned, hname⟩, hr⟩
    · rintro ⟨name, hname, hr⟩
      obtain ⟨line, hscanned, hline⟩ := (hmem name).mp hname
      exact ⟨line, name, hscanned, hline, hr⟩
  rw [findAll, findIn_eq_foldl known invoker false 0, hvisited]
  exact found_foldl_add known invoker (visits_sorted known false 0 _).1

end Mention
end Tui
end TigerClaw
