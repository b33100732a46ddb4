import TigerClaw.Basic
import TigerClaw.Library.Digits
import TigerClaw.Library.Lines
import Mathlib.Algebra.BigOperators.Group.List.Basic
import Mathlib.Algebra.Ring.Nat

/-!
# The two grep paths

`src/cli/commands/tool_grep.zig` asks `rg` where there is one, and reads its output again for the
counts; where there is none it goes over the files itself.

* `parseRgOutput`, `runInProcess`: the code.
* `FileHits`, `rgLines`: the matching lines of the files, and what `rg` prints of them.
* `parseRgOutput_of_le`, `parseRgOutput_of_lt`: what the first path makes of a text of lines.
* `runInProcess_content`, `runInProcess_files`, `runInProcess_count`: what the second one makes of
  the same lines.
* `grep_paths_agree_iff`: they agree exactly below the cap and, in the mode that counts, where no
  file has two matching lines.
-/

namespace TigerClaw
namespace Cli
namespace Grep

inductive OutputMode where
  | content
  | filesWithMatches
  | count
  deriving DecidableEq

structure GrepResult where
  formatted : Bytes
  fileCount : ℕ
  matchCount : ℕ
  truncated : Bool

/-- `MAX_MATCHES`. -/
def maxMatches : ℕ := 100

/-- The locals that both paths keep. -/
structure Tally where
  out : Bytes := []
  seenFiles : List Bytes := []
  matchCount : ℕ := 0
  truncated : Bool := false

def Tally.result (self : Tally) : GrepResult where
  formatted := self.out
  fileCount := self.seenFiles.length
  matchCount := self.matchCount
  truncated := self.truncated

/-- `seen_files.put`. -/
def see (seenFiles : List Bytes) (path : Bytes) : List Bytes :=
  if seenFiles.contains path then seenFiles else seenFiles ++ [path]

/-! ## Reading the output of `rg` -/

/-- The file of a line: what is before the colon, or the line. -/
def fileOf (mode : OutputMode) (line : Bytes) : Option Bytes :=
  match mode with
  | .filesWithMatches => some line
  | .content | .count => (Lines.cut 0x3A line).map Prod.fst

/-- `while (line_iter.next())`. -/
def parseLines (mode : OutputMode) : List Bytes → Tally → Tally
  | [], tally => tally
  | line :: lines, tally =>
    if line = [] then parseLines mode lines tally
    else
      let tally := { tally with
        seenFiles := (fileOf mode line).elim tally.seenFiles (see tally.seenFiles)
        matchCount := tally.matchCount + 1 }
      if maxMatches < tally.matchCount then { tally with truncated := true }
      else parseLines mode lines { tally with out := tally.out ++ line ++ [0x0A] }

def parseRgOutput (raw : Bytes) (mode : OutputMode) : GrepResult :=
  (parseLines mode (raw.splitOn 0x0A) {}).result

/-! ## Going over the files -/

/-- `std.ascii.toLower`. -/
def toLower (c : UInt8) : UInt8 := if 0x41 ≤ c ∧ c ≤ 0x5A then c + 32 else c

def containsCi (haystack needle : Bytes) (caseInsensitive : Bool) : Bool :=
  if caseInsensitive then
    haystack.tails.any fun rest => (needle.map toLower).isPrefixOf (rest.map toLower)
  else (indexOf needle haystack).isSome

/-- A path of the walk, one that the output of `rg` can be cut at. -/
structure Path where
  bytes : Bytes
  ne_nil : bytes ≠ []
  colon_notMem : (0x3A : UInt8) ∉ bytes
  newline_notMem : (0x0A : UInt8) ∉ bytes

/-- A file that the walk opens. -/
structure Entry where
  path : Path
  content : Bytes

/-- `"{s}:{d}:{s}"`. -/
def renderHit (path : Bytes) (lineno : ℕ) (line : Bytes) : Bytes :=
  path ++ 0x3A :: (Digits.decimal lineno ++ 0x3A :: line)

/-- `"{s}:{d}"`. -/
def renderCount (path : Bytes) (n : ℕ) : Bytes := path ++ 0x3A :: Digits.decimal n

variable (isMatch : Bytes → Bool) (mode : OutputMode)

/-- `while (i <= content.len)`, line by line, with `per_file_count`. -/
def scanLines (relPath : Bytes) : List Bytes → ℕ → ℕ → Tally → ℕ × Tally
  | [], _, perFileCount, tally => (perFileCount, tally)
  | line :: lines, lineno, perFileCount, tally =>
    let lineno := lineno + 1
    if isMatch line then
      if mode = .content then
        let tally := { tally with
          out := tally.out ++ renderHit relPath lineno line ++ [0x0A]
          matchCount := tally.matchCount + 1 }
        if maxMatches ≤ tally.matchCount then (perFileCount + 1, { tally with truncated := true })
        else scanLines relPath lines lineno (perFileCount + 1) tally
      else scanLines relPath lines lineno (perFileCount + 1) tally
    else scanLines relPath lines lineno perFileCount tally

/-- `match_count += n`; nothing is returned where 32 bits overflow. -/
def addMatches (tally : Tally) (n : ℕ) : Option Tally :=
  if tally.matchCount + n < 2 ^ 32 then some { tally with matchCount := tally.matchCount + n }
  else none

/-- `if (per_file_count > 0)`: the file is counted, and printed where its lines are not. -/
def finishFile (path : Bytes) (perFileCount : ℕ) (tally : Tally) : Option Tally :=
  if 0 < perFileCount then
    let found := tally.seenFiles.contains path
    let tally := { tally with seenFiles := see tally.seenFiles path }
    match mode with
    | .content => some tally
    | .filesWithMatches =>
      if found then some tally else addMatches { tally with out := tally.out ++ path ++ [0x0A] } 1
    | .count =>
      addMatches { tally with out := tally.out ++ renderCount path perFileCount ++ [0x0A] }
        perFileCount
  else some tally

/-- A file; empty and huge ones are skipped. -/
def visit (tally : Tally) (entry : Entry) : Option Tally :=
  if entry.content = [] ∨ 1024 * 1024 < entry.content.length then some tally
  else
    let scanned := scanLines isMatch mode entry.path.bytes (entry.content.splitOn 0x0A) 0 0 tally
    finishFile mode entry.path.bytes scanned.1 scanned.2

/-- `while (true)` over the walk. -/
def visitAll : List Entry → Tally → Option Tally
  | [], tally => some tally
  | entry :: entries, tally =>
    match visit isMatch mode tally entry with
    | none => none
    | some tally => if tally.truncated then some tally else visitAll entries tally

/-- `runInProcess`, from the files that the walk opens; a line is tested with `containsCi` and the
pattern. -/
def runInProcess (entries : List Entry) : Option GrepResult :=
  (visitAll isMatch mode entries {}).map Tally.result

/-! ## The matching lines -/

/-- The matching lines of a file, with their numbers. -/
structure FileHits where
  path : Path
  hits : List (ℕ × Bytes)

/-- The matching lines behind `lineno` lines. -/
def hitsFrom : List Bytes → ℕ → List (ℕ × Bytes)
  | [], _ => []
  | line :: lines, lineno =>
    if isMatch line then (lineno + 1, line) :: hitsFrom lines (lineno + 1)
    else hitsFrom lines (lineno + 1)

/-- What matches in a file that is not skipped. -/
def hitsOf (entry : Entry) : FileHits where
  path := entry.path
  hits :=
    if entry.content = [] ∨ 1024 * 1024 < entry.content.length then []
    else hitsFrom isMatch (entry.content.splitOn 0x0A) 0

/-- The files that have matching lines. -/
def withHits (files : List FileHits) : List FileHits := files.filter fun file => file.hits ≠ []

/-- The lines that `rg` prints. -/
def rgLines (mode : OutputMode) (files : List FileHits) : List Bytes :=
  match mode with
  | .content => files.flatMap fun file => file.hits.map fun hit =>
      renderHit file.path.bytes hit.1 hit.2
  | .filesWithMatches => (withHits files).map fun file => file.path.bytes
  | .count => (withHits files).map fun file => renderCount file.path.bytes file.hits.length

/-- The canonical output of `rg`. -/
def rgOutput (mode : OutputMode) (files : List FileHits) : Bytes :=
  (rgLines mode files).flatMap fun line => line ++ [0x0A]

/-- How many lines match in all. -/
def totalHits (files : List FileHits) : ℕ := (files.map fun file => file.hits.length).sum

/-! ## A text of lines -/

theorem foldl_see_same {α : Type*} (l : List α) (path : Bytes) (seenFiles : List Bytes) :
    (l.map fun _ => path).foldl see seenFiles =
      if l = [] then seenFiles else see seenFiles path := by
  induction l generalizing seenFiles with
  | nil => rfl
  | cons a l ih =>
    have hagain : see (see seenFiles path) path = see seenFiles path := by
      have hmem : (see seenFiles path).contains path = true := by
        unfold see
        split
        · assumption
        · exact List.contains_iff_mem.mpr (List.mem_append_right _ (List.mem_singleton_self path))
      rw [see, if_pos hmem]
    rw [List.map_cons, List.foldl_cons, ih, if_neg (List.cons_ne_nil a l)]
    split
    · rfl
    · exact hagain

theorem see_of_notMem {seenFiles : List Bytes} {path : Bytes} (h : path ∉ seenFiles) :
    see seenFiles path = seenFiles ++ [path] :=
  if_neg fun hmem => h (List.contains_iff_mem.mp hmem)

/-- Paths that are not there yet. -/
theorem foldl_see_nodup (paths seenFiles : List Bytes) (h : (seenFiles ++ paths).Nodup) :
    paths.foldl see seenFiles = seenFiles ++ paths := by
  induction paths generalizing seenFiles with
  | nil => rw [List.append_nil, List.foldl_nil]
  | cons path paths ih =>
    have hnot : path ∉ seenFiles := fun hmem =>
      (List.nodup_append.mp h).2.2 path hmem path List.mem_cons_self rfl
    rw [List.foldl_cons, see_of_notMem hnot, ih, List.append_assoc, List.singleton_append]
    rwa [List.append_assoc, List.singleton_append]

/-- Up to the cap every line is counted and printed again. -/
theorem parseLines_of_le {lines : List Bytes} (hlines : [] ∉ lines) {tally : Tally}
    (hcap : tally.matchCount + lines.length ≤ maxMatches) :
    parseLines mode (lines ++ [[]]) tally =
      { tally with
        out := tally.out ++ lines.flatMap fun line => line ++ [0x0A]
        seenFiles := (lines.filterMap (fileOf mode)).foldl see tally.seenFiles
        matchCount := tally.matchCount + lines.length } := by
  induction lines generalizing tally with
  | nil =>
    rw [List.nil_append, parseLines, if_pos rfl, parseLines, List.flatMap_nil, List.append_nil]
    rfl
  | cons line lines ih =>
    obtain ⟨hline, hlines⟩ := List.ne_and_not_mem_of_not_mem_cons hlines
    rw [List.length_cons] at hcap
    have hnext : ¬ maxMatches < tally.matchCount + 1 := by omega
    rw [List.cons_append, parseLines, if_neg hline.symm, if_neg hnext,
      ih hlines (by dsimp only; omega), List.flatMap_cons, List.length_cons, List.filterMap_cons]
    cases fileOf mode line with
    | none => simp only [Option.elim_none, List.append_assoc, Nat.add_assoc, Nat.add_comm 1]
    | some path =>
      simp only [Option.elim_some, List.foldl_cons, List.append_assoc, Nat.add_assoc,
        Nat.add_comm 1]

/-- Behind the cap a line is counted and left out. -/
theorem parseLines_of_lt {lines : List Bytes} (hlines : [] ∉ lines) {tally : Tally}
    (hcount : tally.matchCount ≤ maxMatches)
    (hcap : maxMatches < tally.matchCount + lines.length) :
    (parseLines mode (lines ++ [[]]) tally).truncated = true ∧
      (parseLines mode (lines ++ [[]]) tally).matchCount = maxMatches + 1 := by
  induction lines generalizing tally with
  | nil => exact absurd hcap (Nat.not_lt.mpr hcount)
  | cons line lines ih =>
    obtain ⟨hline, hlines⟩ := List.ne_and_not_mem_of_not_mem_cons hlines
    rw [List.length_cons] at hcap
    rw [List.cons_append, parseLines, if_neg hline.symm]
    dsimp only
    split
    · exact ⟨rfl, by dsimp only; omega⟩
    · exact ih hlines (by dsimp only; omega) (by dsimp only; omega)

/-- A text of lines without a newline is cut into them, and what is behind the last newline. -/
theorem splitOn_lines {lines : List Bytes} (h : ∀ line ∈ lines, (0x0A : UInt8) ∉ line) :
    (lines.flatMap fun line => line ++ [0x0A]).splitOn 0x0A = lines ++ [[]] := by
  induction lines with
  | nil => rfl
  | cons line lines ih =>
    rw [List.flatMap_cons, List.append_assoc, List.singleton_append,
      List.splitOn_append_cons_self_of_not_mem (h line List.mem_cons_self),
      ih fun l hl => h l (List.mem_cons_of_mem line hl), List.cons_append]

/-- What is printed of at most as many lines as the cap. -/
theorem parseRgOutput_of_le {lines : List Bytes} (hnil : [] ∉ lines)
    (hnewline : ∀ line ∈ lines, (0x0A : UInt8) ∉ line) (hcap : lines.length ≤ maxMatches) :
    parseRgOutput (lines.flatMap fun line => line ++ [0x0A]) mode =
      { formatted := lines.flatMap fun line => line ++ [0x0A]
        fileCount := ((lines.filterMap (fileOf mode)).foldl see []).length
        matchCount := lines.length
        truncated := false } := by
  have hzero : (0 : ℕ) + lines.length ≤ maxMatches := by omega
  rw [parseRgOutput, splitOn_lines hnewline, parseLines_of_le mode hnil hzero]
  simp only [Tally.result, List.nil_append, Nat.zero_add]

theorem parseRgOutput_of_lt {lines : List Bytes} (hnil : [] ∉ lines)
    (hnewline : ∀ line ∈ lines, (0x0A : UInt8) ∉ line) (hcap : maxMatches < lines.length) :
    (parseRgOutput (lines.flatMap fun line => line ++ [0x0A]) mode).truncated = true ∧
      (parseRgOutput (lines.flatMap fun line => line ++ [0x0A]) mode).matchCount =
        maxMatches + 1 := by
  rw [parseRgOutput, splitOn_lines hnewline]
  exact parseLines_of_lt mode hnil (Nat.zero_le _) (by dsimp only; omega)

/-! ## The lines of the matches -/

/-- What is cut out between the newlines holds none. -/
theorem newline_notMem_of_mem_splitOn (content : Bytes) :
    ∀ line ∈ content.splitOn 0x0A, (0x0A : UInt8) ∉ line := by
  induction content using Lines.byLines (d := (0x0A : UInt8)) with
  | nil =>
    intro line hline
    rw [List.splitOn_nil, List.mem_singleton] at hline
    exact hline ▸ List.not_mem_nil
  | last l _ hl =>
    intro line hline
    rw [List.splitOn_eq_singleton hl, List.mem_singleton] at hline
    exact hline ▸ hl
  | line l rest hl ih =>
    intro line hline
    rw [List.splitOn_append_cons_self_of_not_mem hl, List.mem_cons] at hline
    rcases hline with rfl | hline
    · exact hl
    · exact ih line hline

theorem mem_of_mem_hitsFrom {lines : List Bytes} {lineno : ℕ} {hit : ℕ × Bytes}
    (h : hit ∈ hitsFrom isMatch lines lineno) : hit.2 ∈ lines := by
  induction lines generalizing lineno with
  | nil => cases h
  | cons line lines ih =>
    rw [hitsFrom] at h
    split at h
    · rcases List.mem_cons.mp h with rfl | h
      · exact List.mem_cons_self
      · exact List.mem_cons_of_mem line (ih h)
    · exact List.mem_cons_of_mem line (ih h)

theorem newline_notMem_of_mem_hitsOf {entry : Entry} {hit : ℕ × Bytes}
    (h : hit ∈ (hitsOf isMatch entry).hits) : (0x0A : UInt8) ∉ hit.2 := by
  rw [hitsOf] at h
  dsimp only at h
  split at h
  · cases h
  · exact newline_notMem_of_mem_splitOn entry.content hit.2 (mem_of_mem_hitsFrom isMatch h)

theorem newline_notMem_decimal (n : ℕ) : (0x0A : UInt8) ∉ Digits.decimal n := fun h =>
  absurd (Digits.isDigit_of_mem_decimal h) (by decide)

theorem mem_withHits {files : List FileHits} {file : FileHits} :
    file ∈ withHits files ↔ file ∈ files ∧ file.hits ≠ [] := by
  rw [withHits, List.mem_filter, decide_eq_true_iff]

/-- A line of the output begins with the path of its file. -/
theorem exists_of_mem_rgLines {files : List FileHits} {line : Bytes}
    (h : line ∈ rgLines mode files) : ∃ file ∈ files, file.path.bytes <+: line := by
  cases mode with
  | content =>
    obtain ⟨file, hfile, hline⟩ := List.mem_flatMap.mp h
    obtain ⟨hit, _, rfl⟩ := List.mem_map.mp hline
    exact ⟨file, hfile, List.prefix_append _ _⟩
  | filesWithMatches =>
    obtain ⟨file, hfile, rfl⟩ := List.mem_map.mp h
    exact ⟨file, (mem_withHits.mp hfile).1, List.prefix_refl _⟩
  | count =>
    obtain ⟨file, hfile, rfl⟩ := List.mem_map.mp h
    exact ⟨file, (mem_withHits.mp hfile).1, List.prefix_append _ _⟩

theorem nil_notMem_rgLines (files : List FileHits) : [] ∉ rgLines mode files := fun h => by
  obtain ⟨file, _, hprefix⟩ := exists_of_mem_rgLines mode h
  exact file.path.ne_nil (List.prefix_nil.mp hprefix)

theorem newline_notMem_rgLines {files : List FileHits}
    (h : ∀ file ∈ files, ∀ hit ∈ file.hits, (0x0A : UInt8) ∉ hit.2) :
    ∀ line ∈ rgLines mode files, (0x0A : UInt8) ∉ line := by
  intro line hline
  cases mode with
  | content =>
    obtain ⟨file, hfile, hline⟩ := List.mem_flatMap.mp hline
    obtain ⟨hit, hhit, rfl⟩ := List.mem_map.mp hline
    simp [renderHit, file.path.newline_notMem, newline_notMem_decimal, h file hfile hit hhit]
  | filesWithMatches =>
    obtain ⟨file, _, rfl⟩ := List.mem_map.mp hline
    exact file.path.newline_notMem
  | count =>
    obtain ⟨file, _, rfl⟩ := List.mem_map.mp hline
    simp [renderCount, file.path.newline_notMem, newline_notMem_decimal]

/-- A line names its file. -/
theorem fileOf_append (path : Path) (rest : Bytes) (hmode : mode ≠ .filesWithMatches) :
    fileOf mode (path.bytes ++ 0x3A :: rest) = some path.bytes := by
  have hcut := Lines.cut_append path.colon_notMem rest
  cases mode with
  | filesWithMatches => exact absurd rfl hmode
  | content | count => rw [fileOf, hcut, Option.map_some]

/-- The files that the output of `rg` names, in their order. -/
theorem foldl_see_rgLines (files : List FileHits) (seenFiles : List Bytes) :
    ((rgLines mode files).filterMap (fileOf mode)).foldl see seenFiles =
      ((withHits files).map fun file => file.path.bytes).foldl see seenFiles := by
  cases mode with
  | content =>
    induction files generalizing seenFiles with
    | nil => rfl
    | cons file files ih =>
      have hfile : ((file.hits.map fun hit => renderHit file.path.bytes hit.1 hit.2).filterMap
          (fileOf .content)) = file.hits.map fun _ => file.path.bytes := by
        rw [List.filterMap_map, ← List.filterMap_eq_map]
        exact List.filterMap_congr fun hit _ => fileOf_append .content file.path _ (by decide)
      have hlines : rgLines .content (file :: files) =
          (file.hits.map fun hit => renderHit file.path.bytes hit.1 hit.2) ++
            rgLines .content files := List.flatMap_cons
      rw [hlines, List.filterMap_append, List.foldl_append, hfile, foldl_see_same, ih, withHits,
        withHits, List.filter_cons]
      by_cases hnil : file.hits = []
      · rw [if_pos hnil, if_neg (by simp [hnil])]
      · rw [if_neg hnil, if_pos (by simp [hnil]), List.map_cons, List.foldl_cons]
  | filesWithMatches =>
    have hsome : (rgLines .filesWithMatches files).filterMap (fileOf .filesWithMatches) =
        rgLines .filesWithMatches files := List.filterMap_some
    rw [hsome]
    rfl
  | count =>
    have hsome : (rgLines .count files).filterMap (fileOf .count) =
        (withHits files).map fun file => file.path.bytes := by
      rw [rgLines, List.filterMap_map, ← List.filterMap_eq_map]
      exact List.filterMap_congr fun file _ => fileOf_append .count file.path _ (by decide)
    rw [hsome]

/-! ## What is counted of a file -/

theorem scanLines_of_hits_nil {path : Bytes} {lines : List Bytes} {lineno n : ℕ} {tally : Tally}
    (h : hitsFrom isMatch lines lineno = []) :
    scanLines isMatch mode path lines lineno n tally = (n, tally) := by
  induction lines generalizing lineno with
  | nil => rfl
  | cons line lines ih =>
    rw [hitsFrom] at h
    split at h
    · cases h
    · rename_i hmatch
      rw [scanLines, if_neg hmatch, ih h]

/-- Where the lines are not printed, they are counted only. -/
theorem scanLines_of_ne (hmode : mode ≠ .content) (path : Bytes) (lines : List Bytes)
    (lineno n : ℕ) (tally : Tally) :
    scanLines isMatch mode path lines lineno n tally =
      (n + (hitsFrom isMatch lines lineno).length, tally) := by
  induction lines generalizing lineno n with
  | nil => rfl
  | cons line lines ih =>
    rw [scanLines, hitsFrom, if_neg hmode]
    split
    · rw [ih, List.length_cons, Nat.add_assoc, Nat.add_comm 1]
    · exact ih (lineno + 1) n

/-- Below the cap the matching lines of a file are printed. -/
theorem scanLines_of_lt {path : Bytes} {lines : List Bytes} {lineno n : ℕ} {tally : Tally}
    (h : tally.matchCount + (hitsFrom isMatch lines lineno).length < maxMatches) :
    scanLines isMatch .content path lines lineno n tally =
      (n + (hitsFrom isMatch lines lineno).length,
        { tally with
          out := tally.out ++ (hitsFrom isMatch lines lineno).flatMap fun hit =>
            renderHit path hit.1 hit.2 ++ [0x0A]
          matchCount := tally.matchCount + (hitsFrom isMatch lines lineno).length }) := by
  induction lines generalizing lineno n tally with
  | nil => simp only [scanLines, hitsFrom, List.length_nil, List.flatMap_nil, List.append_nil,
      Nat.add_zero]
  | cons line lines ih =>
    rw [hitsFrom] at h ⊢
    rw [scanLines]
    split at h
    · rename_i hmatch
      rw [List.length_cons] at h
      have hnext : ¬ maxMatches ≤ tally.matchCount + 1 := by omega
      rw [if_pos hmatch, if_pos rfl, if_pos hmatch, if_neg hnext, ih (by dsimp only; omega),
        List.length_cons, List.flatMap_cons]
      simp only [List.append_assoc, Nat.add_assoc, Nat.add_comm 1]
    · rename_i hmatch
      rw [if_neg hmatch, if_neg hmatch, ih h]

/-- The line that the cap comes with is printed, and the file is left. -/
theorem scanLines_of_le (path : Bytes) {lines : List Bytes} {lineno : ℕ} (n : ℕ) {tally : Tally}
    (hcount : tally.matchCount < maxMatches)
    (h : maxMatches ≤ tally.matchCount + (hitsFrom isMatch lines lineno).length) :
    0 < (scanLines isMatch .content path lines lineno n tally).1 ∧
      (scanLines isMatch .content path lines lineno n tally).2.truncated = true ∧
      (scanLines isMatch .content path lines lineno n tally).2.matchCount = maxMatches := by
  induction lines generalizing lineno n tally with
  | nil => exact absurd h (Nat.not_le.mpr hcount)
  | cons line lines ih =>
    rw [hitsFrom] at h
    rw [scanLines]
    split at h
    · rename_i hmatch
      rw [List.length_cons] at h
      rw [if_pos hmatch, if_pos rfl]
      dsimp only
      split
      · exact ⟨Nat.succ_pos n, rfl, by dsimp only; omega⟩
      · exact ih (n + 1) (by dsimp only; omega) (by dsimp only; omega)
    · rename_i hmatch
      rw [if_neg hmatch]
      exact ih n hcount h

/-- Nothing is done for a file without a match. -/
theorem visit_of_hits_nil {tally : Tally} {entry : Entry} (h : (hitsOf isMatch entry).hits = []) :
    visit isMatch mode tally entry = some tally := by
  rw [hitsOf] at h
  dsimp only at h
  rw [visit]
  split at h
  · rename_i hskip
    rw [if_pos hskip]
  · rename_i hskip
    dsimp only
    rw [if_neg hskip, scanLines_of_hits_nil isMatch mode h]
    exact if_neg (Nat.lt_irrefl 0)

/-- A file with a match is not skipped. -/
theorem hitsFrom_of_hits_ne_nil {entry : Entry} (h : (hitsOf isMatch entry).hits ≠ []) :
    ¬ (entry.content = [] ∨ 1024 * 1024 < entry.content.length) ∧
      (hitsOf isMatch entry).hits = hitsFrom isMatch (entry.content.splitOn 0x0A) 0 := by
  rw [hitsOf] at h ⊢
  dsimp only at h ⊢
  split at h
  · exact absurd rfl h
  · rename_i hskip
    exact ⟨hskip, if_neg hskip⟩

/-- What a file adds to the number of matches. -/
def added (mode : OutputMode) (file : FileHits) : ℕ :=
  match mode with
  | .filesWithMatches => 1
  | .content | .count => file.hits.length

/-- What is printed for one file with matches. -/
def printed (mode : OutputMode) (file : FileHits) : Bytes :=
  (rgLines mode [file]).flatMap fun line => line ++ [0x0A]

theorem withHits_singleton {file : FileHits} (h : file.hits ≠ []) : withHits [file] = [file] := by
  rw [withHits, List.filter_cons, if_pos (decide_eq_true h), List.filter_nil]

theorem printed_content (file : FileHits) : printed .content file =
    file.hits.flatMap fun hit => renderHit file.path.bytes hit.1 hit.2 ++ [0x0A] := by
  rw [printed, rgLines, List.flatMap_singleton, List.flatMap_map]

theorem printed_files {file : FileHits} (h : file.hits ≠ []) :
    printed .filesWithMatches file = file.path.bytes ++ [0x0A] := by
  rw [printed, rgLines, withHits_singleton h, List.map_singleton, List.flatMap_singleton]

theorem printed_count {file : FileHits} (h : file.hits ≠ []) :
    printed .count file = renderCount file.path.bytes file.hits.length ++ [0x0A] := by
  rw [printed, rgLines, withHits_singleton h, List.map_singleton, List.flatMap_singleton]

/-- A file with matches, where the lines are not printed. -/
theorem visit_of_ne (hmode : mode ≠ .content) {tally : Tally} {entry : Entry}
    (hhits : (hitsOf isMatch entry).hits ≠ []) (hnew : entry.path.bytes ∉ tally.seenFiles) :
    visit isMatch mode tally entry =
      addMatches { tally with
          out := tally.out ++ printed mode (hitsOf isMatch entry)
          seenFiles := tally.seenFiles ++ [entry.path.bytes] }
        (added mode (hitsOf isMatch entry)) := by
  obtain ⟨hskip, hfrom⟩ := hitsFrom_of_hits_ne_nil isMatch hhits
  have hpos : 0 < (hitsOf isMatch entry).hits.length := List.length_pos_iff.mpr hhits
  rw [visit, if_neg hskip]
  dsimp only
  rw [scanLines_of_ne isMatch mode hmode, ← hfrom, Nat.zero_add, finishFile, if_pos hpos,
    see_of_notMem hnew]
  cases mode with
  | content => exact absurd rfl hmode
  | filesWithMatches =>
    have hfound : tally.seenFiles.contains entry.path.bytes = false := by
      rw [Bool.eq_false_iff]
      exact fun hmem => hnew (List.contains_iff_mem.mp hmem)
    rw [printed_files hhits]
    simp only [hfound, Bool.false_eq_true, if_false, List.append_assoc]
    rfl
  | count =>
    rw [printed_count hhits, ← List.append_assoc]
    rfl

/-- A file with matches whose lines are printed, below the cap. -/
theorem visit_content_of_lt {tally : Tally} {entry : Entry}
    (hhits : (hitsOf isMatch entry).hits ≠ [])
    (hcap : tally.matchCount + (hitsOf isMatch entry).hits.length < maxMatches) :
    visit isMatch .content tally entry =
      some { tally with
        out := tally.out ++ printed .content (hitsOf isMatch entry)
        seenFiles := see tally.seenFiles entry.path.bytes
        matchCount := tally.matchCount + (hitsOf isMatch entry).hits.length } := by
  obtain ⟨hskip, hfrom⟩ := hitsFrom_of_hits_ne_nil isMatch hhits
  have hpos : 0 < (hitsOf isMatch entry).hits.length := List.length_pos_iff.mpr hhits
  rw [hfrom] at hcap hpos
  rw [visit, if_neg hskip]
  dsimp only
  rw [scanLines_of_lt isMatch hcap, printed_content, hfrom, Nat.zero_add]
  exact if_pos hpos

/-- The file that the cap comes in. -/
theorem visit_content_of_le {tally : Tally} {entry : Entry} (hcount : tally.matchCount < maxMatches)
    (hcap : maxMatches ≤ tally.matchCount + (hitsOf isMatch entry).hits.length) :
    ∃ tally', visit isMatch .content tally entry = some tally' ∧ tally'.truncated = true ∧
      tally'.matchCount = maxMatches := by
  have hhits : (hitsOf isMatch entry).hits ≠ [] := fun hnil => by
    rw [hnil] at hcap
    exact absurd hcap (Nat.not_le.mpr hcount)
  obtain ⟨hskip, hfrom⟩ := hitsFrom_of_hits_ne_nil isMatch hhits
  rw [hfrom] at hcap
  obtain ⟨hpos, htruncated, hmatches⟩ :=
    scanLines_of_le isMatch entry.path.bytes 0 hcount hcap
  rw [visit, if_neg hskip]
  exact ⟨_, if_pos hpos, htruncated, hmatches⟩

/-! ## What a walk counts -/

theorem withHits_cons_of_nil {file : FileHits} (h : file.hits = []) (files : List FileHits) :
    withHits (file :: files) = withHits files := by
  rw [withHits, List.filter_cons, if_neg (by simp [h]), withHits]

theorem withHits_cons_of_ne {file : FileHits} (h : file.hits ≠ []) (files : List FileHits) :
    withHits (file :: files) = file :: withHits files := by
  rw [withHits, List.filter_cons, if_pos (decide_eq_true h), withHits]

theorem rgLines_cons (file : FileHits) (files : List FileHits) :
    rgLines mode (file :: files) = rgLines mode [file] ++ rgLines mode files := by
  cases mode with
  | content => rw [rgLines, rgLines, rgLines, List.flatMap_cons, List.flatMap_singleton]
  | filesWithMatches | count =>
    simp only [rgLines]
    by_cases h : file.hits = []
    · rw [withHits_cons_of_nil h, withHits_cons_of_nil h]
      rfl
    · rw [withHits_cons_of_ne h, withHits_singleton h]
      rfl

theorem rgOutput_cons (file : FileHits) (files : List FileHits) :
    rgOutput mode (file :: files) = printed mode file ++ rgOutput mode files := by
  rw [rgOutput, rgLines_cons, List.flatMap_append]
  rfl

theorem printed_of_nil {file : FileHits} (h : file.hits = []) : printed mode file = [] := by
  have hnil : withHits [file] = [] := withHits_cons_of_nil h []
  cases mode with
  | content => rw [printed_content, h, List.flatMap_nil]
  | filesWithMatches | count => rw [printed, rgLines, hnil, List.map_nil, List.flatMap_nil]

theorem totalHits_cons (file : FileHits) (files : List FileHits) :
    totalHits (file :: files) = file.hits.length + totalHits files := by
  rw [totalHits, List.map_cons, List.sum_cons, totalHits]

/-- Below the cap the walk prints what `rg` prints. -/
theorem visitAll_content_of_lt {entries : List Entry} (tally : Tally)
    (hgoing : tally.truncated = false)
    (hcap : tally.matchCount + totalHits (entries.map (hitsOf isMatch)) < maxMatches) :
    visitAll isMatch .content entries tally =
      some { tally with
        out := tally.out ++ rgOutput .content (entries.map (hitsOf isMatch))
        seenFiles := ((withHits (entries.map (hitsOf isMatch))).map fun file =>
          file.path.bytes).foldl see tally.seenFiles
        matchCount := tally.matchCount + totalHits (entries.map (hitsOf isMatch)) } := by
  induction entries generalizing tally with
  | nil =>
    have hnil : rgOutput .content [] = [] := rfl
    rw [visitAll, List.map_nil, hnil, List.append_nil]
    rfl
  | cons entry entries ih =>
    rw [List.map_cons, totalHits_cons] at hcap ⊢
    rw [rgOutput_cons, visitAll]
    by_cases hhits : (hitsOf isMatch entry).hits = []
    · rw [visit_of_hits_nil isMatch .content hhits, withHits_cons_of_nil hhits,
        printed_of_nil .content hhits, hhits, List.nil_append, List.length_nil, Nat.zero_add]
      dsimp only
      rw [if_neg (by simp [hgoing])]
      exact ih _ hgoing (by omega)
    · rw [visit_content_of_lt isMatch hhits (by omega), withHits_cons_of_ne hhits]
      dsimp only
      rw [if_neg (by simp [hgoing]), ih]
      · simp only [List.map_cons, List.foldl_cons, List.append_assoc, Nat.add_assoc]
        rfl
      · exact hgoing
      · dsimp only
        omega

/-- The walk stops at the cap. -/
theorem visitAll_content_of_le {entries : List Entry} (tally : Tally)
    (hgoing : tally.truncated = false) (hcount : tally.matchCount < maxMatches)
    (hcap : maxMatches ≤ tally.matchCount + totalHits (entries.map (hitsOf isMatch))) :
    ∃ tally', visitAll isMatch .content entries tally = some tally' ∧ tally'.truncated = true ∧
      tally'.matchCount = maxMatches := by
  induction entries generalizing tally with
  | nil => exact absurd hcap (Nat.not_le.mpr hcount)
  | cons entry entries ih =>
    rw [List.map_cons, totalHits_cons] at hcap
    rw [visitAll]
    rcases Nat.lt_or_ge (tally.matchCount + (hitsOf isMatch entry).hits.length) maxMatches with
      hlt | hle
    · by_cases hhits : (hitsOf isMatch entry).hits = []
      · rw [visit_of_hits_nil isMatch .content hhits]
        dsimp only
        rw [hhits, List.length_nil] at hcap
        rw [if_neg (by simp [hgoing])]
        exact ih _ hgoing hcount (by omega)
      · rw [visit_content_of_lt isMatch hhits hlt]
        dsimp only
        rw [if_neg (by simp [hgoing])]
        exact ih _ hgoing (by dsimp only; omega) (by dsimp only; omega)
    · obtain ⟨tally', hvisit, htruncated, hmatches⟩ := visit_content_of_le isMatch hcount hle
      rw [hvisit]
      dsimp only
      rw [if_pos htruncated]
      exact ⟨tally', rfl, htruncated, hmatches⟩

/-- How many matches the walk counts where the lines are not printed. -/
def totalAdded (files : List FileHits) : ℕ := ((withHits files).map (added mode)).sum

/-- Without the lines the walk prints what `rg` prints, however much it is, while the count fits
into 32 bits. -/
theorem visitAll_of_ne (hmode : mode ≠ .content) {entries : List Entry} (tally : Tally)
    (hgoing : tally.truncated = false) (hbits : tally.matchCount < 2 ^ 32)
    (hnodup : (tally.seenFiles ++ entries.map fun entry => entry.path.bytes).Nodup) :
    visitAll isMatch mode entries tally =
      if tally.matchCount + totalAdded mode (entries.map (hitsOf isMatch)) < 2 ^ 32 then
        some { tally with
          out := tally.out ++ rgOutput mode (entries.map (hitsOf isMatch))
          seenFiles := tally.seenFiles ++
            (withHits (entries.map (hitsOf isMatch))).map fun file => file.path.bytes
          matchCount := tally.matchCount + totalAdded mode (entries.map (hitsOf isMatch)) }
      else none := by
  induction entries generalizing tally with
  | nil =>
    have hnil : rgOutput mode [] = [] := by cases mode <;> rfl
    have hzero : totalAdded mode [] = 0 := rfl
    rw [visitAll, List.map_nil, hnil, hzero, Nat.add_zero, if_pos hbits, List.append_nil]
    have hnone : (withHits []).map (fun file => file.path.bytes) = [] := rfl
    rw [hnone, List.append_nil]
  | cons entry entries ih =>
    rw [List.map_cons] at hnodup
    have hnew : entry.path.bytes ∉ tally.seenFiles := fun hmem =>
      (List.nodup_append.mp hnodup).2.2 _ hmem _ List.mem_cons_self rfl
    rw [List.map_cons, rgOutput_cons, visitAll]
    by_cases hhits : (hitsOf isMatch entry).hits = []
    · have hrest : (tally.seenFiles ++ entries.map fun entry => entry.path.bytes).Nodup :=
        hnodup.sublist ((List.Sublist.refl _).append (List.sublist_cons_self _ _))
      rw [visit_of_hits_nil isMatch mode hhits, printed_of_nil mode hhits, totalAdded,
        withHits_cons_of_nil hhits, List.nil_append]
      dsimp only
      rw [if_neg (by simp [hgoing])]
      exact ih _ hgoing hbits hrest
    · have hrest : (tally.seenFiles ++ [entry.path.bytes] ++
          entries.map fun entry => entry.path.bytes).Nodup := by
        rwa [List.append_assoc, List.singleton_append]
      have htotal : totalAdded mode (hitsOf isMatch entry :: entries.map (hitsOf isMatch)) =
          added mode (hitsOf isMatch entry) +
            totalAdded mode (entries.map (hitsOf isMatch)) := by
        rw [totalAdded, withHits_cons_of_ne hhits, List.map_cons, List.sum_cons, totalAdded]
      rw [visit_of_ne isMatch mode hmode hhits hnew, htotal, addMatches,
        withHits_cons_of_ne hhits]
      dsimp only
      by_cases hfits : tally.matchCount + added mode (hitsOf isMatch entry) < 2 ^ 32
      · rw [if_pos hfits]
        dsimp only
        rw [if_neg (by simp [hgoing]), ih]
        · simp only [List.map_cons, List.append_assoc, List.singleton_append, Nat.add_assoc]
          rfl
        · exact hgoing
        · exact hfits
        · exact hrest
      · rw [if_neg hfits, if_neg (by omega)]

/-! ## The two paths -/

/-- The files that a walk opens: each of them once. -/
structure Walk where
  entries : List Entry
  nodup : (entries.map fun entry => entry.path.bytes).Nodup

/-- What matches in the files of a walk. -/
def Walk.files (walk : Walk) : List FileHits := walk.entries.map (hitsOf isMatch)

/-- Both paths come to one result, and it is said to be cut off only if something is left out. -/
def Agree (walk : Walk) : Prop :=
  ∃ result, runInProcess isMatch mode walk.entries = some result ∧
    parseRgOutput (rgOutput mode (walk.files isMatch)) mode = result ∧
    (result.truncated = true → result.formatted ≠ rgOutput mode (walk.files isMatch))

/-- Below the cap, and with no file of two matching lines where matches are counted by the file. -/
def Fits (files : List FileHits) : Prop :=
  match mode with
  | .content => totalHits files < maxMatches
  | .filesWithMatches => (withHits files).length ≤ maxMatches
  | .count => (withHits files).length ≤ maxMatches ∧ ∀ file ∈ files, file.hits.length ≤ 1

variable {isMatch mode}

theorem Walk.newline_notMem (walk : Walk) :
    ∀ file ∈ walk.files isMatch, ∀ hit ∈ file.hits, (0x0A : UInt8) ∉ hit.2 := by
  intro file hfile hit hhit
  obtain ⟨entry, _, rfl⟩ := List.mem_map.mp hfile
  exact newline_notMem_of_mem_hitsOf isMatch hhit

theorem Walk.nodup_withHits (walk : Walk) :
    ((withHits (walk.files isMatch)).map fun file => file.path.bytes).Nodup := by
  have hall : ((walk.files isMatch).map fun file => file.path.bytes).Nodup := by
    rw [Walk.files, List.map_map]
    exact walk.nodup
  exact hall.sublist (List.filter_sublist.map _)

/-- What the first path makes of the output, up to the cap. -/
theorem parse_of_le {walk : Walk} (hcap : (rgLines mode (walk.files isMatch)).length ≤ maxMatches) :
    parseRgOutput (rgOutput mode (walk.files isMatch)) mode =
      { formatted := rgOutput mode (walk.files isMatch)
        fileCount := (withHits (walk.files isMatch)).length
        matchCount := (rgLines mode (walk.files isMatch)).length
        truncated := false } := by
  have hseen := foldl_see_nodup _ [] (@Walk.nodup_withHits isMatch walk)
  rw [rgOutput, parseRgOutput_of_le mode (nil_notMem_rgLines mode _)
    (newline_notMem_rgLines mode walk.newline_notMem) hcap, foldl_see_rgLines, hseen,
    List.nil_append, List.length_map]

/-- What it makes of it behind the cap. -/
theorem parse_of_lt {walk : Walk} (hcap : maxMatches < (rgLines mode (walk.files isMatch)).length) :
    (parseRgOutput (rgOutput mode (walk.files isMatch)) mode).truncated = true ∧
      (parseRgOutput (rgOutput mode (walk.files isMatch)) mode).matchCount = maxMatches + 1 :=
  parseRgOutput_of_lt mode (nil_notMem_rgLines mode _)
    (newline_notMem_rgLines mode walk.newline_notMem) hcap

theorem length_rgLines_content (files : List FileHits) :
    (rgLines .content files).length = totalHits files := by
  simp only [rgLines, List.length_flatMap, List.length_map, totalHits]

theorem length_rgLines_of_ne (hmode : mode ≠ .content) (files : List FileHits) :
    (rgLines mode files).length = (withHits files).length := by
  cases mode with
  | content => exact absurd rfl hmode
  | filesWithMatches | count => rw [rgLines, List.length_map]

/-- The lines of the matches: agreement is being below the cap. -/
theorem agree_content_iff (walk : Walk) :
    Agree isMatch .content walk ↔ totalHits (walk.files isMatch) < maxMatches := by
  constructor
  · rintro ⟨result, hrun, hparse, -⟩
    by_contra hcap
    have hzero : maxMatches ≤ ({} : Tally).matchCount +
        totalHits (walk.entries.map (hitsOf isMatch)) := by
      rw [show ({} : Tally).matchCount = 0 from rfl, Nat.zero_add]
      exact Nat.not_lt.mp hcap
    obtain ⟨tally, hvisit, htruncated, hmatches⟩ :=
      visitAll_content_of_le isMatch {} rfl (by decide) hzero
    rw [runInProcess, hvisit, Option.map_some] at hrun
    obtain rfl := Option.some.inj hrun
    -- At the cap the first path has not cut anything off, behind it its count is one more.
    rcases Nat.lt_or_ge maxMatches (rgLines .content (walk.files isMatch)).length with hlt | hle
    · have hcount := (parse_of_lt hlt).2
      rw [hparse] at hcount
      exact absurd (hmatches.symm.trans hcount) (Nat.succ_ne_self _).symm
    · rw [parse_of_le hle] at hparse
      have hno : false = tally.truncated := congrArg GrepResult.truncated hparse
      exact Bool.false_ne_true (hno.trans htruncated)
  · intro hcap
    have hzero : ({} : Tally).matchCount + totalHits (walk.entries.map (hitsOf isMatch)) <
        maxMatches := by
      rwa [show ({} : Tally).matchCount = 0 from rfl, Nat.zero_add]
    have hlines : (rgLines .content (walk.files isMatch)).length ≤ maxMatches := by
      rw [length_rgLines_content]
      exact Nat.le_of_lt hcap
    have hseen := foldl_see_nodup _ [] (@Walk.nodup_withHits isMatch walk)
    refine ⟨_, ?_, parse_of_le hlines, fun h => absurd h Bool.false_ne_true⟩
    rw [runInProcess, visitAll_content_of_lt isMatch {} rfl hzero, Option.map_some, Tally.result]
    simp only [Walk.files] at hseen
    simp only [hseen, Walk.files, length_rgLines_content, List.nil_append, Nat.zero_add,
      List.length_map]

/-- The other modes: the walk has no cap, and may count a file more than once. -/
theorem agree_of_ne_iff (hmode : mode ≠ .content) (walk : Walk) :
    Agree isMatch mode walk ↔ (withHits (walk.files isMatch)).length ≤ maxMatches ∧
      totalAdded mode (walk.files isMatch) = (withHits (walk.files isMatch)).length := by
  have hnodup : (({} : Tally).seenFiles ++ walk.entries.map fun entry => entry.path.bytes).Nodup :=
    walk.nodup
  have hvisit := visitAll_of_ne isMatch mode hmode {} rfl (by decide) hnodup
  rw [show ({} : Tally).matchCount = 0 from rfl, Nat.zero_add, ← Walk.files] at hvisit
  constructor
  · rintro ⟨result, hrun, hparse, -⟩
    rw [runInProcess, hvisit] at hrun
    split at hrun
    · rw [Option.map_some] at hrun
      obtain rfl := Option.some.inj hrun
      rcases Nat.lt_or_ge maxMatches (rgLines mode (walk.files isMatch)).length with hlt | hle
      · have htruncated := (parse_of_lt hlt).1
        rw [hparse] at htruncated
        exact absurd htruncated Bool.false_ne_true
      · rw [parse_of_le hle] at hparse
        have hcount := congrArg GrepResult.matchCount hparse
        rw [length_rgLines_of_ne hmode] at hle
        dsimp only [Tally.result] at hcount
        rw [length_rgLines_of_ne hmode] at hcount
        exact ⟨hle, hcount.symm⟩
    · cases hrun
  · rintro ⟨hcap, hadded⟩
    have hlines : (rgLines mode (walk.files isMatch)).length ≤ maxMatches := by
      rwa [length_rgLines_of_ne hmode]
    have hbits : totalAdded mode (walk.files isMatch) < 2 ^ 32 := by
      rw [hadded]
      exact Nat.lt_of_le_of_lt hcap (by decide)
    refine ⟨_, ?_, parse_of_le hlines, fun h => absurd h Bool.false_ne_true⟩
    rw [runInProcess, hvisit, if_pos hbits, Option.map_some, Tally.result]
    simp only [List.nil_append, List.length_map, hadded, length_rgLines_of_ne hmode]

theorem length_withHits_le (files : List FileHits) :
    (withHits files).length ≤ totalAdded .count files := by
  induction files with
  | nil => exact Nat.le_refl 0
  | cons file files ih =>
    rw [totalAdded] at ih ⊢
    by_cases hhits : file.hits = []
    · rwa [withHits_cons_of_nil hhits]
    · have hpos : 0 < file.hits.length := List.length_pos_iff.mpr hhits
      rw [withHits_cons_of_ne hhits, List.map_cons, List.sum_cons, List.length_cons, added]
      omega

/-- As many matches as files: none of them has two. -/
theorem totalAdded_count_eq_iff (files : List FileHits) :
    totalAdded .count files = (withHits files).length ↔
      ∀ file ∈ files, file.hits.length ≤ 1 := by
  induction files with
  | nil => exact iff_of_true rfl fun _ h => absurd h List.not_mem_nil
  | cons file files ih =>
    have hle := length_withHits_le files
    rw [List.forall_mem_cons, ← ih]
    rw [totalAdded] at hle ⊢
    by_cases hhits : file.hits = []
    · have hzero : file.hits.length ≤ 1 := by
        rw [hhits]
        exact Nat.zero_le 1
      rw [withHits_cons_of_nil hhits, totalAdded]
      exact (and_iff_right hzero).symm
    · have hpos : 0 < file.hits.length := List.length_pos_iff.mpr hhits
      rw [withHits_cons_of_ne hhits, List.map_cons, List.sum_cons, List.length_cons, added,
        totalAdded]
      omega

/-- **The two paths agree** exactly below the cap and, in the mode that counts, where no file has
two matching lines. -/
theorem grep_paths_agree_iff (isMatch : Bytes → Bool) (mode : OutputMode) (walk : Walk) :
    Agree isMatch mode walk ↔ Fits mode (walk.files isMatch) := by
  cases mode with
  | content => exact agree_content_iff walk
  | filesWithMatches =>
    have hadded : totalAdded .filesWithMatches (walk.files isMatch) =
        (withHits (walk.files isMatch)).length := by
      have hones : (withHits (walk.files isMatch)).map (added .filesWithMatches) =
          List.replicate (withHits (walk.files isMatch)).length 1 := List.map_const' ..
      rw [totalAdded, hones, List.sum_replicate]
      exact Nat.mul_one _
    rw [agree_of_ne_iff (by decide)]
    exact and_iff_left hadded
  | count =>
    rw [agree_of_ne_iff (by decide), totalAdded_count_eq_iff]
    exact Iff.rfl

/-- A file named `f` of two lines `a`. -/
def twice : Walk where
  entries := [{
    path := ⟨ascii "f", by decide, by decide, by decide⟩
    content := ascii "a\na\n" }]
  nodup := by simp

/-- Two matching lines in one file are one match for the path that reads the output of `rg`. -/
theorem count_differs : ¬ Agree (fun line => containsCi line (ascii "a") false) .count twice := by
  rintro ⟨result, hrun, hparse, -⟩
  have hmatches : (runInProcess (fun line => containsCi line (ascii "a") false) .count
      twice.entries).map GrepResult.matchCount = some 2 := by decide
  have hlines : (rgLines .count
      (twice.files fun line => containsCi line (ascii "a") false)).length = 1 := by
    rw [length_rgLines_of_ne (by decide)]
    decide
  have hcap : (rgLines .count
      (twice.files fun line => containsCi line (ascii "a") false)).length ≤ maxMatches := by
    rw [hlines]
    decide
  rw [hrun, Option.map_some, ← hparse, parse_of_le hcap] at hmatches
  exact absurd (hlines.symm.trans (Option.some.inj hmatches)) (by decide)

end Grep
end Cli
end TigerClaw
