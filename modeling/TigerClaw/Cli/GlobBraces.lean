import Mathlib.Data.List.Basic
import Mathlib.Data.List.Count
import TigerClaw.Basic

/-!
# Brace alternatives

`src/cli/commands/tool_glob.zig`: a pattern with groups like `{a,b}` stands for several patterns
without groups.  The first group is replaced by each of its parts, and what comes out is expanded
again.

* `scan`, `parts`, `expandBraces`: the code.
* `Balanced`: the braces of a pattern pair up.  `Denotes`: what it stands for, from left to right.
* `scan_cases`: what the search for the first group finds.
* `expandBraces_eq_ok_iff`: the expansion is what the pattern stands for.
* `expandBraces_eq_error_iff`: there is none exactly if the braces do not pair up.
-/

namespace TigerClaw
namespace Cli

namespace GlobBraces

def openBrace : UInt8 := 0x7B

def closeBrace : UInt8 := 0x7D

def comma : UInt8 := 0x2C

inductive ExpandError where
  | invalidPattern

/-- What the search for the first group ends with. -/
inductive Scan where
  | plain
  | unbalanced
  | group (before inside suffix : Bytes)
  deriving DecidableEq

/-- The loop, with what is before the group, what is inside so far, and the depth. -/
def scan (before inside : Bytes) (depth : ℕ) : Bytes → Scan
  | [] => if depth ≠ 0 then .unbalanced else .plain
  | c :: rest =>
    if c = openBrace then
      if depth = 0 then scan before inside 1 rest
      else scan before (inside ++ [c]) (depth + 1) rest
    else if c = closeBrace then
      if depth = 0 then .unbalanced
      else if depth - 1 = 0 then .group before inside rest
      else scan before (inside ++ [c]) (depth - 1) rest
    else if depth = 0 then scan (before ++ [c]) inside depth rest
    else scan before (inside ++ [c]) depth rest

/-- The loop over the inside of a group: its parts between the commas of depth zero. -/
def parts (part : Bytes) (subDepth : ℕ) : Bytes → List Bytes
  | [] => [part]
  | c :: rest =>
    if c = openBrace then parts (part ++ [c]) (subDepth + 1) rest
    else if c = closeBrace then parts (part ++ [c]) (subDepth - 1) rest
    else if c = comma ∧ subDepth = 0 then part :: parts [] subDepth rest
    else parts (part ++ [c]) subDepth rest

/-! ## Braces that pair up -/

/-- The braces close what is open, so many groups and no more; between the commas of a group there
is no other of its own. -/
def closes (inPart : Bool) (depth : ℕ) : Bytes → Bool
  | [] => depth = 0
  | c :: rest =>
    if c = openBrace then closes inPart (depth + 1) rest
    else if c = closeBrace then depth ≠ 0 && closes inPart (depth - 1) rest
    else if inPart = true ∧ c = comma ∧ depth = 0 then false
    else closes inPart depth rest

def Balanced (s : Bytes) : Prop := closes false 0 s = true

instance decidableBalanced (s : Bytes) : Decidable (Balanced s) :=
  inferInstanceAs (Decidable (_ = _))

def Braceless (s : Bytes) : Prop := ∀ c ∈ s, c ≠ openBrace ∧ c ≠ closeBrace

theorem braceless_cons {c : UInt8} {s : Bytes} :
    Braceless (c :: s) ↔ (c ≠ openBrace ∧ c ≠ closeBrace) ∧ Braceless s := List.forall_mem_cons

/-- The braces of a character, or none. -/
theorem brace_cases (c : UInt8) :
    c = openBrace ∨ c = closeBrace ∨ c ≠ openBrace ∧ c ≠ closeBrace := by
  by_cases hopen : c = openBrace
  · exact .inl hopen
  · by_cases hclose : c = closeBrace
    · exact .inr (.inl hclose)
    · exact .inr (.inr ⟨hopen, hclose⟩)

theorem closes_open (inPart : Bool) (depth : ℕ) (s : Bytes) :
    closes inPart depth (openBrace :: s) = closes inPart (depth + 1) s := if_pos rfl

theorem closes_close (inPart : Bool) (depth : ℕ) (s : Bytes) :
    closes inPart (depth + 1) (closeBrace :: s) = closes inPart depth s := rfl

theorem closes_lit {inPart : Bool} {depth : ℕ} {c : UInt8} {s : Bytes} (hopen : c ≠ openBrace)
    (hclose : c ≠ closeBrace) (hcomma : ¬ (inPart = true ∧ c = comma ∧ depth = 0)) :
    closes inPart depth (c :: s) = closes inPart depth s := by
  rw [closes, if_neg hopen, if_neg hclose, if_neg hcomma]

/-- **What closes all groups that are open above some depth** leads down to it.  Above depth zero
the commas do not matter. -/
theorem closes_append {inPart : Bool} {k d : ℕ} {a : Bytes}
    (ha : closes (inPart && decide (d = 0)) k a = true) (b : Bytes) :
    closes inPart (k + d) (a ++ b) = closes inPart d b := by
  induction a generalizing k with
  | nil =>
    obtain rfl : k = 0 := of_decide_eq_true ha
    rw [Nat.zero_add, List.nil_append]
  | cons c a ih =>
    obtain rfl | rfl | ⟨hopen, hclose⟩ := brace_cases c
    · rw [closes_open] at ha
      rw [List.cons_append, closes_open, ← ih ha, Nat.add_right_comm]
    · cases k with
      | zero => cases ha
      | succ k =>
        rw [closes_close] at ha
        rw [List.cons_append, Nat.add_right_comm, closes_close, ih ha]
    · rw [closes, if_neg hopen, if_neg hclose] at ha
      split at ha
      · cases ha
      · rename_i hcomma
        rw [List.cons_append, closes_lit hopen hclose, ih ha]
        rintro ⟨hpart, hc, hzero⟩
        obtain ⟨rfl, rfl⟩ := Nat.add_eq_zero_iff.mp hzero
        exact hcomma ⟨by rw [hpart]; rfl, hc, rfl⟩

/-- A part has no more to fulfil outside of its group. -/
theorem closes_of_part {depth : ℕ} {s : Bytes} (h : closes true depth s = true) :
    closes false depth s = true := by
  induction s generalizing depth with
  | nil => exact h
  | cons c s ih =>
    obtain rfl | rfl | ⟨hopen, hclose⟩ := brace_cases c
    · exact ih h
    · cases depth with
      | zero => cases h
      | succ depth => exact ih h
    · rw [closes, if_neg hopen, if_neg hclose] at h
      split at h
      · cases h
      · rw [closes_lit hopen hclose (by simp), ih h]

/-- **The brace that closes a group**, here with `j` groups open inside it. -/
theorem exists_close {inPart : Bool} {j k : ℕ} {s : Bytes}
    (h : closes inPart (j + k + 1) s = true) :
    ∃ body suffix, s = body ++ closeBrace :: suffix ∧ closes false j body = true ∧
      closes inPart k suffix = true := by
  induction s generalizing j with
  | nil => exact absurd (of_decide_eq_true h) (Nat.succ_ne_zero _)
  | cons c s ih =>
    obtain rfl | rfl | ⟨hopen, hclose⟩ := brace_cases c
    · rw [closes_open, Nat.add_right_comm, Nat.add_right_comm j k 1] at h
      obtain ⟨body, suffix, rfl, hbody, hsuffix⟩ := ih h
      exact ⟨openBrace :: body, suffix, rfl, hbody, hsuffix⟩
    · rw [closes_close] at h
      cases j with
      | zero =>
        rw [Nat.zero_add] at h
        exact ⟨[], s, rfl, rfl, h⟩
      | succ j =>
        rw [Nat.add_right_comm] at h
        obtain ⟨body, suffix, rfl, hbody, hsuffix⟩ := ih h
        exact ⟨closeBrace :: body, suffix, rfl, hbody, hsuffix⟩
    · rw [closes_lit hopen hclose fun hcomma => Nat.succ_ne_zero _ hcomma.2.2] at h
      obtain ⟨body, suffix, rfl, hbody, hsuffix⟩ := ih h
      exact ⟨c :: body, suffix, rfl, (closes_lit hopen hclose (by simp)).trans hbody, hsuffix⟩

/-- The first part of the inside of a group. -/
theorem exists_part {k : ℕ} {s : Bytes} (h : closes false k s = true) :
    ∃ m, closes true k m = true ∧
      (s = m ∨ ∃ rest, s = m ++ comma :: rest ∧ closes false 0 rest = true) := by
  induction s generalizing k with
  | nil => exact ⟨[], h, .inl rfl⟩
  | cons c s ih =>
    obtain rfl | rfl | ⟨hopen, hclose⟩ := brace_cases c
    · obtain ⟨m, hm, hs | ⟨rest, rfl, hrest⟩⟩ := ih h
      · exact ⟨openBrace :: m, hm, .inl (congrArg _ hs)⟩
      · exact ⟨openBrace :: m, hm, .inr ⟨rest, rfl, hrest⟩⟩
    · cases k with
      | zero => cases h
      | succ k =>
        obtain ⟨m, hm, hs | ⟨rest, rfl, hrest⟩⟩ := ih h
        · exact ⟨closeBrace :: m, hm, .inl (congrArg _ hs)⟩
        · exact ⟨closeBrace :: m, hm, .inr ⟨rest, rfl, hrest⟩⟩
    · rw [closes_lit hopen hclose (by simp)] at h
      by_cases hcomma : c = comma ∧ k = 0
      · obtain ⟨rfl, rfl⟩ := hcomma
        exact ⟨[], rfl, .inr ⟨s, rfl, h⟩⟩
      · have hlit (m : Bytes) : closes true k (c :: m) = closes true k m :=
          closes_lit hopen hclose fun hc => hcomma hc.2
        obtain ⟨m, hm, hs | ⟨rest, rfl, hrest⟩⟩ := ih h
        · exact ⟨c :: m, (hlit m).trans hm, .inl (congrArg _ hs)⟩
        · exact ⟨c :: m, (hlit m).trans hm, .inr ⟨rest, rfl, hrest⟩⟩

/-! ## What the loops find -/

theorem scan_braceless {pre : Bytes} (hpre : Braceless pre) (before inside rest : Bytes) :
    scan before inside 0 (pre ++ rest) = scan (before ++ pre) inside 0 rest := by
  induction pre generalizing before with
  | nil => rw [List.append_nil, List.nil_append]
  | cons c pre ih =>
    obtain ⟨⟨hopen, hclose⟩, hpre⟩ := braceless_cons.mp hpre
    rw [List.cons_append, scan, if_neg hopen, if_neg hclose, if_pos rfl, ih hpre,
      List.append_assoc, List.singleton_append]

/-- What is inside a group is passed over. -/
theorem scan_inside {k : ℕ} {body : Bytes} (hbody : closes false k body = true) (d : ℕ)
    (before inside rest : Bytes) :
    scan before inside (k + (d + 1)) (body ++ rest) =
      scan before (inside ++ body) (d + 1) rest := by
  induction body generalizing k inside with
  | nil =>
    obtain rfl : k = 0 := of_decide_eq_true hbody
    rw [Nat.zero_add, List.append_nil, List.nil_append]
  | cons c body ih =>
    obtain rfl | rfl | ⟨hopen, hclose⟩ := brace_cases c
    · rw [closes_open] at hbody
      rw [List.cons_append, scan, if_pos rfl, if_neg (by omega), Nat.add_right_comm, ih hbody,
        List.append_assoc, List.singleton_append]
    · cases k with
      | zero => cases hbody
      | succ k =>
        rw [closes_close] at hbody
        have hdepth : k + 1 + (d + 1) - 1 = k + (d + 1) := by omega
        rw [List.cons_append, scan, if_neg (by decide), if_pos rfl, if_neg (by omega), hdepth,
          if_neg (by omega), ih hbody, List.append_assoc, List.singleton_append]
    · rw [closes_lit hopen hclose (by simp)] at hbody
      rw [List.cons_append, scan, if_neg hopen, if_neg hclose, if_neg (by omega), ih hbody,
        List.append_assoc, List.singleton_append]

/-- **The first group is found.** -/
theorem scan_group {pre body : Bytes} (hpre : Braceless pre) (hbody : closes false 0 body = true)
    (suffix : Bytes) :
    scan [] [] 0 (pre ++ openBrace :: (body ++ closeBrace :: suffix)) = .group pre body suffix := by
  have hinside := scan_inside hbody 0 pre [] (closeBrace :: suffix)
  rw [Nat.zero_add] at hinside
  rw [scan_braceless hpre, List.nil_append, scan, if_pos rfl, if_pos rfl, hinside]
  rfl

/-- A group that is not closed. -/
theorem scan_open (k : ℕ) (s : Bytes) :
    (∃ body suffix, s = body ++ closeBrace :: suffix ∧ closes false k body = true) ∨
      ∀ before inside, scan before inside (k + 1) s = .unbalanced := by
  induction s generalizing k with
  | nil => exact .inr fun _ _ => if_pos (Nat.succ_ne_zero k)
  | cons c s ih =>
    obtain rfl | rfl | ⟨hopen, hclose⟩ := brace_cases c
    · obtain ⟨body, suffix, rfl, hbody⟩ | hnone := ih (k + 1)
      · exact .inl ⟨openBrace :: body, suffix, rfl, hbody⟩
      · refine .inr fun before inside => ?_
        rw [scan, if_pos rfl, if_neg (Nat.succ_ne_zero k), hnone]
    · cases k with
      | zero => exact .inl ⟨[], s, rfl, rfl⟩
      | succ k =>
        obtain ⟨body, suffix, rfl, hbody⟩ | hnone := ih k
        · exact .inl ⟨closeBrace :: body, suffix, rfl, hbody⟩
        · refine .inr fun before inside => ?_
          rw [scan, if_neg (by decide), if_pos rfl, if_neg (by omega), if_neg (by omega)]
          exact hnone _ _
    · obtain ⟨body, suffix, rfl, hbody⟩ | hnone := ih k
      · exact .inl ⟨c :: body, suffix, rfl, (closes_lit hopen hclose (by simp)).trans hbody⟩
      · refine .inr fun before inside => ?_
        rw [scan, if_neg hopen, if_neg hclose, if_neg (Nat.succ_ne_zero k), hnone]

/-- What is in front of the first brace. -/
theorem exists_braceless (s : Bytes) :
    Braceless s ∨ ∃ pre c rest, s = pre ++ c :: rest ∧ Braceless pre ∧
      (c = openBrace ∨ c = closeBrace) := by
  induction s with
  | nil => exact .inl fun _ hc => absurd hc List.not_mem_nil
  | cons c s ih =>
    obtain hopen | hclose | hlit := brace_cases c
    · exact .inr ⟨[], c, s, rfl, fun _ hc => absurd hc List.not_mem_nil, .inl hopen⟩
    · exact .inr ⟨[], c, s, rfl, fun _ hc => absurd hc List.not_mem_nil, .inr hclose⟩
    · obtain hs | ⟨pre, d, rest, rfl, hpre, hd⟩ := ih
      · exact .inl (braceless_cons.mpr ⟨hlit, hs⟩)
      · exact .inr ⟨c :: pre, d, rest, rfl, braceless_cons.mpr ⟨hlit, hpre⟩, hd⟩

theorem closes_braceless {pre : Bytes} (hpre : Braceless pre) : closes false 0 pre = true := by
  induction pre with
  | nil => rfl
  | cons c pre ih =>
    obtain ⟨⟨hopen, hclose⟩, hpre⟩ := braceless_cons.mp hpre
    rw [closes_lit hopen hclose (by simp), ih hpre]

theorem balanced_append {a : Bytes} (ha : closes false 0 a = true) (b : Bytes) :
    Balanced (a ++ b) ↔ Balanced b := by
  have happend := @closes_append false 0 0 a ha b
  rw [Balanced, Balanced, ← happend]

/-- **What the search for the first group finds.** -/
theorem scan_cases (s : Bytes) :
    (Braceless s ∧ scan [] [] 0 s = .plain) ∨
    (∃ pre body suffix, s = pre ++ openBrace :: (body ++ closeBrace :: suffix) ∧ Braceless pre ∧
      closes false 0 body = true ∧ scan [] [] 0 s = .group pre body suffix) ∨
    (¬ Balanced s ∧ scan [] [] 0 s = .unbalanced) := by
  obtain hs | ⟨pre, c, rest, rfl, hpre, rfl | rfl⟩ := exists_braceless s
  · refine .inl ⟨hs, ?_⟩
    have hscan := scan_braceless hs [] [] []
    rwa [List.append_nil] at hscan
  · obtain ⟨body, suffix, rfl, hbody⟩ | hnone := scan_open 0 rest
    · exact .inr (.inl ⟨pre, body, suffix, rfl, hpre, hbody, scan_group hpre hbody suffix⟩)
    · have hscan : scan [] [] 0 (pre ++ openBrace :: rest) = .unbalanced := by
        rw [scan_braceless hpre, scan, if_pos rfl, if_pos rfl]
        exact hnone _ _
      refine .inr (.inr ⟨fun hbalanced => ?_, hscan⟩)
      rw [balanced_append (closes_braceless hpre), Balanced, closes_open] at hbalanced
      obtain ⟨body, suffix, rfl, hbody, -⟩ := exists_close (j := 0) (k := 0) hbalanced
      rw [scan_group hpre hbody suffix] at hscan
      cases hscan
  · refine .inr (.inr ⟨fun hbalanced => ?_, ?_⟩)
    · rw [balanced_append (closes_braceless hpre)] at hbalanced
      cases hbalanced
    · rw [scan_braceless hpre]
      rfl

theorem eq_of_scan {s before inside suffix : Bytes}
    (h : scan [] [] 0 s = .group before inside suffix) :
    s = before ++ openBrace :: (inside ++ closeBrace :: suffix) := by
  obtain ⟨-, hscan⟩ | ⟨pre, body, rest, hs, -, -, hscan⟩ | ⟨-, hscan⟩ := scan_cases s
  · rw [hscan] at h
    cases h
  · rw [hscan] at h
    cases h
    exact hs
  · rw [hscan] at h
    cases h

/-- A part is taken as it is. -/
theorem parts_append {k : ℕ} {m : Bytes} (hm : closes true k m = true) (part rest : Bytes) :
    parts part k (m ++ rest) = parts (part ++ m) 0 rest := by
  induction m generalizing k part with
  | nil =>
    obtain rfl : k = 0 := of_decide_eq_true hm
    rw [List.append_nil, List.nil_append]
  | cons c m ih =>
    obtain rfl | rfl | ⟨hopen, hclose⟩ := brace_cases c
    · rw [closes_open] at hm
      rw [List.cons_append, parts, if_pos rfl, ih hm, List.append_assoc, List.singleton_append]
    · cases k with
      | zero => cases hm
      | succ k =>
        rw [closes_close] at hm
        rw [List.cons_append, parts, if_neg (by decide), if_pos rfl, Nat.add_sub_cancel, ih hm,
          List.append_assoc, List.singleton_append]
    · rw [closes, if_neg hopen, if_neg hclose] at hm
      split at hm
      · cases hm
      · rename_i hcomma
        rw [List.cons_append, parts, if_neg hopen, if_neg hclose,
          if_neg fun hc => hcomma ⟨rfl, hc.1, hc.2⟩, ih hm, List.append_assoc,
          List.singleton_append]

theorem parts_one {m : Bytes} (hm : closes true 0 m = true) : parts [] 0 m = [m] := by
  have happend := parts_append hm [] []
  rwa [List.append_nil, List.nil_append, parts] at happend

theorem parts_more {m : Bytes} (hm : closes true 0 m = true) (rest : Bytes) :
    parts [] 0 (m ++ comma :: rest) = m :: parts [] 0 rest := by
  rw [parts_append hm, List.nil_append, parts, if_neg (by decide), if_neg (by decide),
    if_pos ⟨rfl, rfl⟩]

/-- What a group takes away, its parts do not bring back. -/
theorem count_le_of_mem_parts {part inside m : Bytes} {subDepth : ℕ}
    (hm : m ∈ parts part subDepth inside) :
    m.count openBrace ≤ part.count openBrace + inside.count openBrace := by
  induction inside generalizing part subDepth with
  | nil =>
    rw [parts, List.mem_singleton] at hm
    rw [hm]
    exact Nat.le_add_right _ _
  | cons c inside ih =>
    have hcount : (part ++ [c]).count openBrace + inside.count openBrace =
        part.count openBrace + (c :: inside).count openBrace := by
      rw [← List.count_append, ← List.count_append, List.append_assoc, List.singleton_append]
    rw [← hcount]
    rw [parts] at hm
    split at hm
    · exact ih hm
    · split at hm
      · exact ih hm
      · split at hm
        · rw [hcount]
          rcases List.mem_cons.mp hm with rfl | hm
          · exact Nat.le_add_right _ _
          · have hrest : inside.count openBrace ≤ (c :: inside).count openBrace :=
              (List.sublist_cons_self c inside).count_le _
            have hle := ih hm
            rw [List.count_nil, Nat.zero_add] at hle
            omega
        · exact ih hm

/-- A part in the place of its group. -/
theorem count_lt_of_scan {s before inside suffix m : Bytes}
    (hscan : scan [] [] 0 s = .group before inside suffix) (hm : m ∈ parts [] 0 inside) :
    (before ++ m ++ suffix).count openBrace < s.count openBrace := by
  have hle := count_le_of_mem_parts hm
  rw [eq_of_scan hscan]
  simp only [List.count_append, List.count_cons_self, List.count_nil,
    List.count_cons_of_ne (show closeBrace ≠ openBrace by decide)] at hle ⊢
  omega

/-! ## Expansion -/

/-- All patterns without groups, or none. -/
def expandBraces (pattern : Bytes) : Except ExpandError (List Bytes) :=
  match _hscan : scan [] [] 0 pattern with
  | .plain => .ok [pattern]
  | .unbalanced => .error .invalidPattern
  | .group before inside suffix =>
    ((parts [] 0 inside).attach.mapM fun m => expandBraces (before ++ m.1 ++ suffix)).map
      List.flatten
termination_by pattern.count openBrace
decreasing_by exact count_lt_of_scan _hscan m.2

theorem expandBraces_plain {s : Bytes} (hscan : scan [] [] 0 s = .plain) :
    expandBraces s = .ok [s] := by
  rw [expandBraces]
  split
  · rfl
  · rename_i h
    rw [hscan] at h
    cases h
  · rename_i h
    rw [hscan] at h
    cases h

theorem expandBraces_unbalanced {s : Bytes} (hscan : scan [] [] 0 s = .unbalanced) :
    expandBraces s = .error .invalidPattern := by
  rw [expandBraces]
  split
  · rename_i h
    rw [hscan] at h
    cases h
  · rfl
  · rename_i h
    rw [hscan] at h
    cases h

theorem expandBraces_group {s before inside suffix : Bytes}
    (hscan : scan [] [] 0 s = .group before inside suffix) :
    expandBraces s =
      ((parts [] 0 inside).mapM fun m => expandBraces (before ++ m ++ suffix)).map
        List.flatten := by
  rw [expandBraces]
  split
  · rename_i h
    rw [hscan] at h
    cases h
  · rename_i h
    rw [hscan] at h
    cases h
  · rename_i h
    rw [hscan] at h
    cases h
    have hmap : (parts [] 0 inside).mapM (fun m => expandBraces (before ++ m ++ suffix)) =
        ((parts [] 0 inside).attach.map Subtype.val).mapM
          fun m => expandBraces (before ++ m ++ suffix) := by
      rw [List.attach_map_subtype_val]
    rw [hmap, List.mapM_map]
    rfl

/-! ## What a pattern stands for -/

/-- Where a text stands: as a whole pattern, as one part of a group, or as the inside of a group. -/
inductive Place where
  | whole
  | part
  | inside
  deriving DecidableEq

/-- One after the other. -/
def product (g r : List Bytes) : List Bytes := g.flatMap fun x => r.map fun y => x ++ y

/-- The patterns without groups that a text stands for, from left to right. -/
inductive Denotes : Place → Bytes → List Bytes → Prop
  | nil {p : Place} : p ≠ .inside → Denotes p [] [[]]
  | lit {p : Place} {c : UInt8} {s : Bytes} {l : List Bytes} : p ≠ .inside →
      c ≠ openBrace → c ≠ closeBrace → ¬ (p = .part ∧ c = comma) → Denotes p s l →
      Denotes p (c :: s) (l.map (c :: ·))
  /-- A group stands for what its inside does. -/
  | group {p : Place} {body s : Bytes} {g r : List Bytes} : p ≠ .inside → Denotes .inside body g →
      Denotes p s r → Denotes p (openBrace :: (body ++ closeBrace :: s)) (product g r)
  | one {m : Bytes} {g : List Bytes} : Denotes .part m g → Denotes .inside m g
  /-- The parts between the commas are alternatives. -/
  | more {m rest : Bytes} {g gs : List Bytes} : Denotes .part m g → Denotes .inside rest gs →
      Denotes .inside (m ++ comma :: rest) (g ++ gs)

theorem product_nil (r : List Bytes) : product [[]] r = r := by
  simp [product]

theorem product_cons (c : UInt8) (l r : List Bytes) :
    product (l.map (c :: ·)) r = (product l r).map (c :: ·) := by
  simp [product, List.flatMap_map, List.map_flatMap, Function.comp_def]

theorem product_assoc (g l r : List Bytes) :
    product (product g l) r = product g (product l r) := by
  simp [product, List.flatMap_map, List.map_flatMap, List.flatMap_assoc, Function.comp_def]

theorem product_append (g g' r : List Bytes) :
    product (g ++ g') r = product g r ++ product g' r := List.flatMap_append

/-- The braces of what stands for something pair up. -/
theorem closes_of_denotes {p : Place} {s : Bytes} {l : List Bytes} (h : Denotes p s l) :
    closes (decide (p = .part)) 0 s = true := by
  induction h with
  | nil => rfl
  | lit _ hopen hclose hcomma _ ih =>
    rw [closes_lit hopen hclose, ih]
    rintro ⟨hpart, hc, -⟩
    exact hcomma ⟨of_decide_eq_true hpart, hc⟩
  | @group p body s g r _ _ _ ihbody ih =>
    have hbody : closes (decide (p = .part) && decide (1 = 0)) 0 body = true := by
      rw [decide_eq_false Nat.one_ne_zero, Bool.and_false]
      exact ihbody
    have happend := closes_append hbody (closeBrace :: s)
    rw [Nat.zero_add] at happend
    rw [closes_open, happend, closes_close, ih]
  | one _ ih => exact closes_of_part ih
  | @more m rest g gs _ _ ihm ih =>
    have hm : closes false 0 m = true := closes_of_part ihm
    have hrest : closes false 0 rest = true := ih
    have happend := @closes_append false 0 0 m hm (comma :: rest)
    exact happend.trans hrest

/-- A part with what follows its group. -/
theorem Denotes.append {m suffix : Bytes} {g r : List Bytes} (hm : Denotes .part m g)
    (hsuffix : Denotes .whole suffix r) : Denotes .whole (m ++ suffix) (product g r) := by
  generalize hp : Place.part = p at hm
  induction hm with
  | nil =>
    rw [product_nil, List.nil_append]
    exact hsuffix
  | lit _ hopen hclose _ _ ih =>
    rw [product_cons, List.cons_append]
    exact .lit (by decide) hopen hclose (by simp) (ih hp)
  | group _ hbody _ _ ih =>
    rw [product_assoc, List.cons_append, List.append_assoc, List.cons_append]
    exact .group (by decide) hbody (ih hp)
  | one => cases hp
  | more => cases hp

theorem Denotes.prepend {pre s : Bytes} {l : List Bytes} (hpre : Braceless pre)
    (h : Denotes .whole s l) : Denotes .whole (pre ++ s) (l.map (pre ++ ·)) := by
  induction pre with
  | nil => simpa using h
  | cons c pre ih =>
    obtain ⟨⟨hopen, hclose⟩, hpre⟩ := braceless_cons.mp hpre
    have hcons := Denotes.lit (by decide) hopen hclose (by simp) (ih hpre)
    rw [List.map_map] at hcons
    exact hcons

/-- **The parts of the inside of a group.** -/
theorem Denotes.parts {body : Bytes} {g : List Bytes} (h : Denotes .inside body g) :
    ∃ gs, List.Forall₂ (Denotes .part) (parts [] 0 body) gs ∧ g = gs.flatten := by
  generalize hp : Place.inside = p at h
  induction h with
  | nil hne => exact absurd hp.symm hne
  | lit hne => exact absurd hp.symm hne
  | group hne => exact absurd hp.symm hne
  | @one m g hm =>
    rw [parts_one (closes_of_denotes hm)]
    exact ⟨[g], .cons hm .nil, by simp⟩
  | @more m rest g gs hm _ _ ih =>
    obtain ⟨gs', hgs', rfl⟩ := ih hp
    rw [parts_more (closes_of_denotes hm)]
    exact ⟨g :: gs', .cons hm hgs', rfl⟩

/-- **The first group of a pattern**, and what stands before and behind it. -/
theorem Denotes.whole {s : Bytes} {l : List Bytes} (h : Denotes .whole s l) :
    (Braceless s ∧ l = [s]) ∨
      ∃ pre body suffix g r, s = pre ++ openBrace :: (body ++ closeBrace :: suffix) ∧
        Braceless pre ∧ Denotes .inside body g ∧ Denotes .whole suffix r ∧
        l = (product g r).map (pre ++ ·) := by
  generalize hp : Place.whole = p at h
  induction h with
  | nil => exact .inl ⟨fun _ hc => absurd hc List.not_mem_nil, rfl⟩
  | lit _ hopen hclose _ _ ih =>
    subst hp
    obtain ⟨hs, rfl⟩ | ⟨pre, body, suffix, g, r, rfl, hpre, hbody, hsuffix, rfl⟩ := ih rfl
    · exact .inl ⟨braceless_cons.mpr ⟨⟨hopen, hclose⟩, hs⟩, rfl⟩
    · refine .inr ⟨_ :: pre, body, suffix, g, r, rfl, braceless_cons.mpr ⟨⟨hopen, hclose⟩, hpre⟩,
        hbody, hsuffix, ?_⟩
      rw [List.map_map]
      rfl
  | @group p body s g r _ hbody hs _ _ =>
    subst hp
    exact .inr ⟨[], body, s, g, r, rfl, fun _ hc => absurd hc List.not_mem_nil, hbody, hs,
      by simp⟩
  | one => cases hp
  | more => cases hp

/-! ## The expansion is right -/

theorem product_flatten (gs : List (List Bytes)) (r : List Bytes) :
    product gs.flatten r = (gs.map fun g => product g r).flatten := by
  induction gs with
  | nil => rfl
  | cons g gs ih => rw [List.flatten_cons, product_append, ih, List.map_cons, List.flatten_cons]

/-- Each part is expanded in its place. -/
theorem mapM_eq_ok {ms : List Bytes} {gs : List (List Bytes)}
    {f : Bytes → Except ExpandError (List Bytes)} {F : List Bytes → List Bytes}
    (hgs : List.Forall₂ (Denotes .part) ms gs)
    (hf : ∀ m ∈ ms, ∀ g, Denotes .part m g → f m = .ok (F g)) : ms.mapM f = .ok (gs.map F) := by
  induction hgs with
  | nil => rfl
  | cons hm _ ih =>
    rw [List.mapM_cons, hf _ List.mem_cons_self _ hm,
      ih fun m hmem => hf m (List.mem_cons_of_mem _ hmem)]
    rfl

/-- **What a pattern stands for is what it is expanded to.** -/
theorem expandBraces_of_denotes {s : Bytes} {l : List Bytes} (h : Denotes .whole s l) :
    expandBraces s = .ok l := by
  induction hn : s.count openBrace using Nat.strongRecOn generalizing s l with
  | ind n ih =>
    obtain ⟨hs, rfl⟩ | ⟨pre, body, suffix, g, r, rfl, hpre, hbody, hsuffix, rfl⟩ := h.whole
    · have hscan := scan_braceless hs [] [] []
      rw [List.append_nil] at hscan
      exact expandBraces_plain hscan
    · have hscan := scan_group hpre (closes_of_denotes hbody) suffix
      obtain ⟨gs, hgs, rfl⟩ := hbody.parts
      have hparts := mapM_eq_ok hgs fun m hm g hg => by
        have hdenotes : Denotes .whole (pre ++ m ++ suffix) ((product g r).map (pre ++ ·)) := by
          rw [List.append_assoc]
          exact (hg.append hsuffix).prepend hpre
        exact ih _ (hn ▸ count_lt_of_scan hscan hm) hdenotes rfl
      rw [expandBraces_group hscan, hparts, product_flatten, List.map_flatten, List.map_map]
      rfl

/-- **Every pattern whose braces pair up stands for something.** -/
theorem exists_denotes (n : ℕ) (s : Bytes) (hn : s.length ≤ n) :
    (∀ p : Place, p ≠ .inside → closes (decide (p = .part)) 0 s = true → ∃ l, Denotes p s l) ∧
      (closes false 0 s = true → ∃ g, Denotes .inside s g) := by
  induction n using Nat.strongRecOn generalizing s with
  | ind n ih =>
    have houtside : ∀ p : Place, p ≠ .inside → closes (decide (p = .part)) 0 s = true →
        ∃ l, Denotes p s l := by
      intro p hp h
      cases s with
      | nil => exact ⟨_, .nil hp⟩
      | cons c s =>
        have hlt : s.length < n := hn
        obtain rfl | rfl | ⟨hopen, hclose⟩ := brace_cases c
        · rw [closes_open] at h
          obtain ⟨body, suffix, rfl, hbody, hsuffix⟩ := exists_close (j := 0) (k := 0) h
          rw [List.length_append, List.length_cons] at hlt
          obtain ⟨g, hg⟩ := (ih body.length (by omega) body (Nat.le_refl _)).2 hbody
          obtain ⟨r, hr⟩ := (ih suffix.length (by omega) suffix (Nat.le_refl _)).1 p hp hsuffix
          exact ⟨_, .group hp hg hr⟩
        · cases h
        · rw [closes, if_neg hopen, if_neg hclose] at h
          split at h
          · cases h
          · rename_i hcomma
            obtain ⟨l, hl⟩ := (ih s.length hlt s (Nat.le_refl _)).1 p hp h
            exact ⟨_, .lit hp hopen hclose (fun hc => hcomma ⟨decide_eq_true hc.1, hc.2, rfl⟩) hl⟩
    refine ⟨houtside, fun h => ?_⟩
    obtain ⟨m, hm, rfl | ⟨rest, rfl, hrest⟩⟩ := exists_part h
    · obtain ⟨g, hg⟩ := houtside .part (by decide) hm
      exact ⟨g, .one hg⟩
    · rw [List.length_append, List.length_cons] at hn
      obtain ⟨g, hg⟩ := (ih m.length (by omega) m (Nat.le_refl _)).1 .part (by decide) hm
      obtain ⟨gs, hgs⟩ := (ih rest.length (by omega) rest (Nat.le_refl _)).2 hrest
      exact ⟨g ++ gs, .more hg hgs⟩

theorem Balanced.denotes {s : Bytes} (h : Balanced s) : ∃ l, Denotes .whole s l :=
  (exists_denotes s.length s (Nat.le_refl _)).1 .whole (by decide) h

theorem Denotes.balanced {s : Bytes} {l : List Bytes} (h : Denotes .whole s l) : Balanced s :=
  closes_of_denotes h

/-- Braces that do not pair up are found, in the first part of each group. -/
theorem expandBraces_of_not_balanced {s : Bytes} (h : ¬ Balanced s) :
    expandBraces s = .error .invalidPattern := by
  induction hn : s.count openBrace using Nat.strongRecOn generalizing s with
  | ind n ih =>
    obtain ⟨hs, -⟩ | ⟨pre, body, suffix, rfl, hpre, hbody, hscan⟩ | ⟨-, hscan⟩ := scan_cases s
    · exact absurd (closes_braceless hs) h
    · obtain ⟨m, ms, hparts, hm⟩ : ∃ m ms, parts [] 0 body = m :: ms ∧ closes true 0 m = true := by
        obtain ⟨m, hm, rfl | ⟨rest, rfl, -⟩⟩ := exists_part hbody
        · exact ⟨_, [], parts_one hm, hm⟩
        · exact ⟨m, _, parts_more hm rest, hm⟩
      have hsuffix : ¬ Balanced suffix := by
        intro hsuffix
        refine h ((balanced_append (closes_braceless hpre) _).mpr ?_)
        have happend := @closes_append false 0 1 body hbody (closeBrace :: suffix)
        rw [Nat.zero_add] at happend
        exact happend.trans hsuffix
      have hfirst : ¬ Balanced (pre ++ m ++ suffix) := by
        rw [List.append_assoc, balanced_append (closes_braceless hpre),
          balanced_append (closes_of_part hm)]
        exact hsuffix
      have hmem : m ∈ parts [] 0 body := hparts ▸ List.mem_cons_self
      rw [expandBraces_group hscan, hparts, List.mapM_cons,
        ih _ (hn ▸ count_lt_of_scan hscan hmem) hfirst rfl]
      rfl
    · exact expandBraces_unbalanced hscan

/-- **The expansion fails exactly if the braces do not pair up.** -/
theorem expandBraces_eq_error_iff (s : Bytes) :
    expandBraces s = .error .invalidPattern ↔ ¬ Balanced s := by
  refine ⟨fun herror hbalanced => ?_, expandBraces_of_not_balanced⟩
  obtain ⟨l, hl⟩ := hbalanced.denotes
  rw [expandBraces_of_denotes hl] at herror
  cases herror

/-- **The expansion is what the pattern stands for.** -/
theorem expandBraces_eq_ok_iff (s : Bytes) (l : List Bytes) :
    expandBraces s = .ok l ↔ Denotes .whole s l := by
  refine ⟨fun hok => ?_, expandBraces_of_denotes⟩
  by_cases hbalanced : Balanced s
  · obtain ⟨l', hl'⟩ := hbalanced.denotes
    rw [expandBraces_of_denotes hl'] at hok
    exact Except.ok.inj hok ▸ hl'
  · rw [expandBraces_of_not_balanced hbalanced] at hok
    cases hok

end GlobBraces

end Cli
end TigerClaw
