import Mathlib.Data.List.Basic
import TigerClaw.Cli.ToolRead
import TigerClaw.Library.Infix

/-!
# What kind of result a tool had

`src/cli/commands/live_runner.zig`.  The result of a tool is rendered as one text for the model, and
the text is searched again for what the user interface shows beside it.

* `BashResult.rendered`, `runBash`: the text of a command; that of a read is `ReadOutcome.result`.
* `classifyFinishedKind`: the search.
* `lineAfter_eq`: what a search finds.
* `classifyFinishedKind_rendered`: what it recovers, and from which texts it does not.
-/

namespace TigerClaw
namespace Cli

namespace FinishedKind

open ToolRead (ReadOutcome newline readText sliceLines formatLineNumbered)

structure BashResult where
  stdout : Bytes
  stderr : Bytes
  exitCode : Int32
  interrupted : Bool
  durationMs : UInt64

inductive BashError where
  | deniedCommand
  | spawnFailed

def boolText : Bool → Bytes
  | true => ascii "true"
  | false => ascii "false"

/-- The text of a result. -/
def BashResult.rendered (r : BashResult) : Bytes :=
  ascii "exit_code: " ++ Digits.decimalInt r.exitCode.toInt ++
    ascii "\nduration_ms: " ++ Digits.decimal r.durationMs.toNat ++
    ascii "\ninterrupted: " ++ boolText r.interrupted ++
    ascii "\n--- stdout ---\n" ++ r.stdout ++ ascii "\n--- stderr ---\n" ++ r.stderr ++ ascii "\n"

/-- The text of a run. -/
def runBash : Except BashError BashResult → Bytes
  | .ok r => r.rendered
  | .error .deniedCommand =>
    ascii ("denied: command matches a destructive pattern (sudo, rm -rf /, fork bomb, dd-disk, " ++
      "mkfs, device-write).")
  | .error .spawnFailed => ascii "bash: failed to spawn /bin/sh"

/-! ## The kinds -/

structure BashFinished where
  text : Bytes
  command : Bytes := []
  exitCode : Int32 := 0
  interrupted : Bool := false
  durationMs : UInt64 := 0
  deriving DecidableEq

inductive ReadVariant where
  | text
  | unchanged
  | empty
  | pastEof
  deriving DecidableEq

structure ReadFinished where
  text : Bytes
  path : Bytes := []
  variant : ReadVariant := .text
  numLines : ℕ := 0
  totalLines : ℕ := 0
  deriving DecidableEq

structure GlobFinished where
  text : Bytes
  pattern : Bytes := []
  matchCount : ℕ := 0
  truncated : Bool := false
  deriving DecidableEq

structure GrepFinished where
  text : Bytes
  pattern : Bytes := []
  fileCount : ℕ := 0
  matchCount : ℕ := 0
  truncated : Bool := false
  deriving DecidableEq

structure WebSearchFinished where
  text : Bytes
  query : Bytes := []
  resultCount : ℕ := 0
  deriving DecidableEq

structure TodoWriteFinished where
  text : Bytes
  pending : ℕ := 0
  inProgress : ℕ := 0
  done : ℕ := 0
  deriving DecidableEq

inductive ToolFinishedKind where
  | text (t : Bytes)
  | cancelled (t : Bytes)
  | bash (b : BashFinished)
  | read (r : ReadFinished)
  | glob (g : GlobFinished)
  | grep (g : GrepFinished)
  | webSearch (w : WebSearchFinished)
  | todoWrite (t : TodoWriteFinished)
  deriving DecidableEq

def ToolFinishedKind.flatText : ToolFinishedKind → Bytes
  | .text t => t
  | .cancelled t => t
  | .bash b => b.text
  | .read r => r.text
  | .glob g => g.text
  | .grep g => g.text
  | .webSearch w => w.text
  | .todoWrite t => t.text

/-! ## The search -/

/-- What stands behind the first `tag`, up to the end of the line. -/
def lineAfter (tag s : Bytes) : Option Bytes :=
  (indexOf tag s).map fun i => (s.drop (i + tag.length)).takeWhile (· ≠ newline)

/-- `std.fmt.parseInt(i32, s, 10)`. -/
def parseI32 (s : Bytes) : Option Int32 :=
  (Digits.parseInt s).bind fun n =>
    if Int32.minValue.toInt ≤ n ∧ n ≤ Int32.maxValue.toInt then some (Int32.ofInt n) else none

/-- `std.fmt.parseInt(u64, s, 10)`. -/
def parseU64 (s : Bytes) : Option UInt64 :=
  (Digits.parseInt s).bind fun n =>
    if 0 ≤ n ∧ n < UInt64.size then some (UInt64.ofNat n.toNat) else none

def parseExitCode (s : Bytes) : Int32 := ((lineAfter (ascii "exit_code: ") s).bind parseI32).getD 0

def parseDurationMs (s : Bytes) : UInt64 :=
  ((lineAfter (ascii "duration_ms: ") s).bind parseU64).getD 0

def interruptedMark : Bytes := ascii "interrupted: true"

def emptyMark : Bytes := ascii "exists but is empty"

def offsetMark : Bytes := ascii "but offset "

def classifyReadVariant (s : Bytes) : ReadVariant :=
  if (ascii "<File ").isPrefixOf s then .unchanged
  else if indexOf emptyMark s ≠ none then .empty
  else if indexOf offsetMark s ≠ none then .pastEof
  else .text

def classifyFinishedKind (name resultText : Bytes) : ToolFinishedKind :=
  if name = ascii "bash" then
    .bash {
      text := resultText
      command := []
      exitCode := parseExitCode resultText
      interrupted := decide (indexOf interruptedMark resultText ≠ none)
      durationMs := parseDurationMs resultText }
  else if name = ascii "read_file" then
    .read { text := resultText, variant := classifyReadVariant resultText }
  else if name = ascii "glob" then .glob { text := resultText }
  else if name = ascii "grep" then .grep { text := resultText }
  else if name = ascii "web_search" then .webSearch { text := resultText }
  else if name = ascii "todo_write" then .todoWrite { text := resultText }
  else .text resultText

/-- Whatever is parsed, the text is kept. -/
theorem flatText_classifyFinishedKind (name resultText : Bytes) :
    (classifyFinishedKind name resultText).flatText = resultText := by
  unfold classifyFinishedKind
  repeat' split
  all_goals rfl

/-! ## What a search finds -/

/-- A letter that the word lacks separates what is searched. -/
theorem indexOf_append_cons {word a b : Bytes} {x : UInt8} (hword : word ≠ []) (hx : x ∉ word)
    (ha : ¬ word <:+: a) :
    indexOf word (a ++ x :: b) = (indexOf word b).map (· + (a.length + 1)) := by
  induction a with
  | nil =>
    have hhere : ¬ word.isPrefixOf (x :: b) = true := by
      rw [List.isPrefixOf_iff_prefix, ← List.nil_append (x :: b), Infix.prefix_append_cons hx,
        List.prefix_nil]
      exact hword
    rw [List.nil_append, indexOf, if_neg hhere]
    rfl
  | cons c a ih =>
    obtain ⟨hhere, hrest⟩ := not_or.mp (List.infix_cons_iff.not.mp ha)
    have hnot : ¬ word.isPrefixOf (c :: (a ++ x :: b)) = true := by
      rw [List.isPrefixOf_iff_prefix, ← List.cons_append, Infix.prefix_append_cons hx]
      exact hhere
    rw [List.cons_append, indexOf, if_neg hnot, ih hrest, Option.map_map]
    rfl

theorem indexOf_self {word : Bytes} (hword : word ≠ []) (rest : Bytes) :
    indexOf word (word ++ rest) = some 0 := by
  obtain ⟨c, word, rfl⟩ := List.exists_cons_of_ne_nil hword
  rw [List.cons_append, indexOf, if_pos]
  exact List.isPrefixOf_iff_prefix.mpr (List.prefix_append (c :: word) rest)

theorem takeWhile_line {value : Bytes} (hvalue : newline ∉ value) (rest : Bytes) :
    (value ++ newline :: rest).takeWhile (· ≠ newline) = value := by
  rw [List.takeWhile_append_of_pos, List.takeWhile_cons_of_neg (by simp), List.append_nil]
  intro c hc
  refine decide_eq_true ?_
  rintro rfl
  exact hvalue hc

/-- A field of the first line. -/
theorem lineAfter_self {tag value : Bytes} (htag : tag ≠ []) (hvalue : newline ∉ value)
    (rest : Bytes) : lineAfter tag (tag ++ (value ++ newline :: rest)) = some value := by
  rw [lineAfter, indexOf_self htag, Option.map_some, Nat.zero_add, List.drop_left,
    takeWhile_line hvalue]

/-- A field of a later line, if the line before does not have it. -/
theorem lineAfter_append_cons {tag line s : Bytes} (htag : tag ≠ []) (hnewline : newline ∉ tag)
    (hline : ¬ tag <:+: line) : lineAfter tag (line ++ newline :: s) = lineAfter tag s := by
  have hdrop (n : ℕ) :
      (line ++ newline :: s).drop (n + (line.length + 1) + tag.length) =
        s.drop (n + tag.length) := by
    have hlength : n + (line.length + 1) + tag.length = line.length + (n + tag.length + 1) := by
      omega
    rw [hlength, List.drop_append, List.drop_of_length_le (by omega), List.nil_append,
      Nat.add_sub_cancel_left, List.drop_succ_cons]
  rw [lineAfter, indexOf_append_cons htag hnewline hline, Option.map_map, lineAfter]
  exact Option.map_congr fun i _ => congrArg (List.takeWhile _) (hdrop i)

/-! ## Commands -/

theorem parseI32_decimalInt (n : Int32) : parseI32 (Digits.decimalInt n.toInt) = some n := by
  rw [parseI32, Digits.parseInt_decimalInt, Option.bind_some,
    if_pos ⟨n.minValue_le_toInt, n.toInt_le⟩, Int32.ofInt_toInt]

theorem parseU64_decimal (n : UInt64) : parseU64 (Digits.decimal n.toNat) = some n := by
  have hread : Digits.parseInt (Digits.decimal n.toNat) = some (n.toNat : ℤ) :=
    Digits.parseInt_decimalInt n.toNat
  have hlt : (n.toNat : ℤ) < UInt64.size := by exact_mod_cast n.toNat_lt
  rw [parseU64, hread, Option.bind_some, if_pos ⟨Int.natCast_nonneg _, hlt⟩, Int.toNat_natCast,
    UInt64.ofNat_toNat]

theorem notMem_decimal {c : UInt8} (hc : Digits.isDigit c = false) (n : ℕ) :
    c ∉ Digits.decimal n := by
  intro h
  rw [Digits.isDigit_of_mem_decimal h] at hc
  cases hc

theorem notMem_decimalInt {c : UInt8} (hc : Digits.isDigit c = false) (hminus : c ≠ 0x2D) (n : ℤ) :
    c ∉ Digits.decimalInt n := by
  intro h
  rcases Digits.isDigit_or_minus_of_mem_decimalInt h with hdigit | hminus'
  · rw [hdigit] at hc
    cases hc
  · exact hminus hminus'

/-- The text line by line. -/
theorem rendered_eq (r : BashResult) :
    r.rendered = (ascii "exit_code: " ++ Digits.decimalInt r.exitCode.toInt) ++ newline ::
      ((ascii "duration_ms: " ++ Digits.decimal r.durationMs.toNat) ++ newline ::
        ((ascii "interrupted: " ++ boolText r.interrupted) ++ newline ::
          (ascii "--- stdout ---" ++ newline ::
            (r.stdout ++ newline :: (ascii "--- stderr ---" ++ newline ::
              (r.stderr ++ newline :: [])))))) := by
  have hduration : ascii "\nduration_ms: " = newline :: ascii "duration_ms: " := by decide
  have hinterrupted : ascii "\ninterrupted: " = newline :: ascii "interrupted: " := by decide
  have hstdout : ascii "\n--- stdout ---\n" = newline :: (ascii "--- stdout ---" ++ [newline]) := by
    decide
  have hstderr : ascii "\n--- stderr ---\n" = newline :: (ascii "--- stderr ---" ++ [newline]) := by
    decide
  have hend : ascii "\n" = [newline] := by decide
  rw [BashResult.rendered, hduration, hinterrupted, hstdout, hstderr, hend]
  simp only [List.append_assoc, List.cons_append, List.nil_append]

theorem parseExitCode_rendered (r : BashResult) : parseExitCode r.rendered = r.exitCode := by
  rw [parseExitCode, rendered_eq, List.append_assoc, lineAfter_self (by decide)
    (notMem_decimalInt (by decide) (by decide) _), Option.bind_some, parseI32_decimalInt]
  rfl

theorem parseDurationMs_rendered (r : BashResult) :
    parseDurationMs r.rendered = r.durationMs := by
  have hfirst : ¬ ascii "duration_ms: " <:+:
      ascii "exit_code: " ++ Digits.decimalInt r.exitCode.toInt := by
    -- no `r` before the first newline
    refine Infix.not_infix_of_mem (x := 0x72) (by decide) ?_
    rw [List.mem_append, not_or]
    exact ⟨by decide, notMem_decimalInt (by decide) (by decide) _⟩
  rw [parseDurationMs, rendered_eq, lineAfter_append_cons (by decide) (by decide) hfirst,
    List.append_assoc, lineAfter_self (by decide) (notMem_decimal (by decide) _),
    Option.bind_some, parseU64_decimal]
  rfl

/-- **Where the mark of an interrupted command is found.** -/
theorem interruptedMark_infix_rendered (r : BashResult) :
    interruptedMark <:+: r.rendered ↔ r.interrupted = true ∨ interruptedMark <:+: r.stdout ∨
      interruptedMark <:+: r.stderr := by
  have hne : interruptedMark ≠ [] := by decide
  have hnewline : newline ∉ interruptedMark := by decide
  have hcode : ¬ interruptedMark <:+:
      ascii "exit_code: " ++ Digits.decimalInt r.exitCode.toInt := by
    refine Infix.not_infix_of_mem (x := 0x70) (by decide) ?_
    rw [List.mem_append, not_or]
    exact ⟨by decide, notMem_decimalInt (by decide) (by decide) _⟩
  have hduration : ¬ interruptedMark <:+:
      ascii "duration_ms: " ++ Digits.decimal r.durationMs.toNat := by
    refine Infix.not_infix_of_mem (x := 0x70) (by decide) ?_
    rw [List.mem_append, not_or]
    exact ⟨by decide, notMem_decimal (by decide) _⟩
  have hflag : interruptedMark <:+: ascii "interrupted: " ++ boolText r.interrupted ↔
      r.interrupted = true := by
    cases r.interrupted <;> decide
  have hstdout : ¬ interruptedMark <:+: ascii "--- stdout ---" := by decide
  have hstderr : ¬ interruptedMark <:+: ascii "--- stderr ---" := by decide
  rw [rendered_eq]
  simp only [Infix.infix_append_cons hne hnewline, hcode, hduration, hflag, hstdout, hstderr,
    List.infix_nil, hne, false_or, or_false]

/-! ## Reads -/

/-- A mark that is not made of what the lines are numbered with. -/
structure Mark (mark : Bytes) : Prop where
  nonempty : mark ≠ []
  letter : (0x65 : UInt8) ∈ mark
  newline : newline ∉ mark
  cr : (0x0D : UInt8) ∉ mark
  arrow : ∀ c ∈ ToolRead.arrow, c ∉ mark

set_option maxRecDepth 5000 in
theorem mark_empty : Mark emptyMark := by constructor <;> decide

set_option maxRecDepth 5000 in
theorem mark_offset : Mark offsetMark := by constructor <;> decide

section

variable {mark : Bytes} (hmark : Mark mark)

include hmark

theorem infix_trimCr (line : Bytes) : mark <:+: ToolRead.trimCr line ↔ mark <:+: line := by
  unfold ToolRead.trimCr
  split
  · rename_i hlast
    have hline : line = line.dropLast ++ 0x0D :: [] := (List.dropLast_append_getLast? _ hlast).symm
    rw [hline, Infix.infix_append_cons hmark.nonempty hmark.cr, List.infix_nil,
      or_iff_left hmark.nonempty, ← hline]
  · rfl

/-- The number in front of a line has no part in it. -/
theorem infix_numbered (lineNo : ℕ) (line : Bytes) :
    mark <:+: ToolRead.numbered lineNo line ↔ mark <:+: line := by
  have hfront : ¬ mark <:+: List.replicate (6 - (Digits.decimal lineNo).length) 0x20 ++
      Digits.decimal lineNo := by
    refine Infix.not_infix_of_mem hmark.letter ?_
    rw [List.mem_append, not_or]
    refine ⟨fun h => ?_, notMem_decimal (by decide) _⟩
    exact absurd (List.eq_of_mem_replicate h) (by decide)
  have hnumbered : ToolRead.numbered lineNo line =
      (List.replicate (6 - (Digits.decimal lineNo).length) 0x20 ++ Digits.decimal lineNo) ++
        0xE2 :: ([] ++ 0x86 :: ([] ++ 0x92 :: ToolRead.trimCr line)) := by
    rw [ToolRead.numbered, List.append_assoc _ ToolRead.arrow]
    rfl
  have hword {c : UInt8} (hc : c ∈ ToolRead.arrow) {a b : Bytes} :
      mark <:+: a ++ c :: b ↔ mark <:+: a ∨ mark <:+: b :=
    Infix.infix_append_cons hmark.nonempty (hmark.arrow c hc)
  rw [hnumbered, hword (by decide), hword (by decide), hword (by decide), or_iff_right hfront,
    List.infix_nil, or_iff_right hmark.nonempty, or_iff_right hmark.nonempty, infix_trimCr hmark]

/-- **A mark in a numbered text is one in the text.** -/
theorem infix_formatLineNumbered (content : Bytes) (startLine : ℕ) :
    mark <:+: formatLineNumbered content startLine ↔ mark <:+: content := by
  have hcontent : [newline].intercalate (content.splitOn newline) = content :=
    List.intercalate_splitOn newline
  have hlines (ls : List Bytes) (n : ℕ) : (∃ part ∈ ToolRead.numberedFrom n ls, mark <:+: part) ↔
      ∃ part ∈ ls, mark <:+: part := by
    induction ls generalizing n with
    | nil => rfl
    | cons l ls ih =>
      have hcons : ToolRead.numberedFrom n (l :: ls) =
          ToolRead.numbered n l :: ToolRead.numberedFrom (n + 1) ls := rfl
      rw [hcons, List.exists_mem_cons_iff, List.exists_mem_cons_iff, ih, infix_numbered hmark]
  rw [formatLineNumbered, ToolRead.formatFrom_eq,
    Infix.infix_intercalate hmark.nonempty hmark.newline, hlines,
    ← Infix.infix_intercalate hmark.nonempty hmark.newline, hcontent]

/-- What is advertised behind a text has no letter of the mark. -/
theorem infix_result_text {c : UInt8} (hc : c ∈ mark)
    (hnote : c ∉ ascii "[file has " ++ ascii " more lines; pass offset=" ++ ascii " to continue]")
    (hdigit : Digits.isDigit c = false) (raw : Bytes) (offset limit : ℕ) :
    mark <:+: (ReadOutcome.text (readText raw offset limit)).result ↔
      mark <:+: (sliceLines raw offset limit).content := by
  have htext : (readText raw offset limit).content =
      formatLineNumbered (sliceLines raw offset limit).content offset := rfl
  rw [ReadOutcome.result]
  split
  · obtain ⟨⟨hone, htwo⟩, hthree⟩ : (c ∉ ascii "[file has " ∧
        c ∉ ascii " more lines; pass offset=") ∧ c ∉ ascii " to continue]" := by
      simpa [List.mem_append, not_or, and_assoc] using hnote
    have hnewline : ascii "\n[file has " = newline :: ascii "[file has " := by decide
    have hafter : ∀ m n, ¬ mark <:+: ascii "[file has " ++ Digits.decimal m ++
        ascii " more lines; pass offset=" ++ Digits.decimal n ++ ascii " to continue]" := by
      intro m n
      refine Infix.not_infix_of_mem hc ?_
      simp only [List.mem_append, not_or]
      exact ⟨⟨⟨⟨hone, notMem_decimal hdigit m⟩, htwo⟩, notMem_decimal hdigit n⟩, hthree⟩
    have hsplit (m n : Bytes) : (readText raw offset limit).content ++ ascii "\n[file has " ++ m ++
        ascii " more lines; pass offset=" ++ n ++ ascii " to continue]" =
        (readText raw offset limit).content ++ newline :: (ascii "[file has " ++ m ++
          ascii " more lines; pass offset=" ++ n ++ ascii " to continue]") := by
      rw [hnewline]
      simp only [List.append_assoc, List.cons_append]
    rw [hsplit, Infix.infix_append_cons hmark.nonempty hmark.newline, or_iff_left (hafter _ _),
      htext, infix_formatLineNumbered hmark]
  · rw [htext, infix_formatLineNumbered hmark]

end

/-- A numbered line begins with a blank or a digit. -/
theorem not_prefix_formatLineNumbered (content : Bytes) (startLine : ℕ) (rest : Bytes) :
    (ascii "<File ").isPrefixOf (formatLineNumbered content startLine ++ rest) = false := by
  obtain ⟨l, ls, hsplit⟩ := List.exists_cons_of_ne_nil (List.splitOn_ne_nil newline content)
  obtain ⟨d, ds, hdecimal, -⟩ := Digits.decimal_eq_cons startLine
  have hfront : List.replicate (6 - (Digits.decimal startLine).length) 0x20 ++
      Digits.decimal startLine ≠ [] := by
    rw [hdecimal]
    exact List.append_ne_nil_of_right_ne_nil _ (List.cons_ne_nil _ _)
  obtain ⟨c, front, hc⟩ := List.exists_cons_of_ne_nil hfront
  have hcne : (0x3C : UInt8) ≠ c := by
    rintro rfl
    have hmem : (0x3C : UInt8) ∈ List.replicate (6 - (Digits.decimal startLine).length) 0x20 ++
        Digits.decimal startLine := hc ▸ List.mem_cons_self
    rcases List.mem_append.mp hmem with hblank | hdigit
    · exact absurd (List.eq_of_mem_replicate hblank) (by decide)
    · exact notMem_decimal (by decide) _ hdigit
  have hformat : formatLineNumbered content startLine ++ rest =
      c :: (front ++ ToolRead.arrow ++ ToolRead.trimCr l ++
        ToolRead.formatFrom (startLine + 1) false ls ++ rest) := by
    rw [formatLineNumbered, hsplit, ToolRead.formatFrom, if_pos rfl, List.nil_append,
      ToolRead.numbered, hc]
    simp only [List.cons_append]
  have htag : ascii "<File " = 0x3C :: ascii "File " := by decide
  rw [hformat, htag, List.isPrefixOf_cons_cons, beq_eq_false_iff_ne.mpr hcne, Bool.false_and]

theorem not_prefix_result_text (raw : Bytes) (offset limit : ℕ) :
    (ascii "<File ").isPrefixOf (ReadOutcome.text (readText raw offset limit)).result = false := by
  have htext : (readText raw offset limit).content =
      formatLineNumbered (sliceLines raw offset limit).content offset := rfl
  rw [ReadOutcome.result, htext]
  split
  · simp only [List.append_assoc]
    exact not_prefix_formatLineNumbered _ _ _
  · rw [← List.append_nil (formatLineNumbered _ _)]
    exact not_prefix_formatLineNumbered _ _ _

theorem classifyReadVariant_text (raw : Bytes) (offset limit : ℕ) :
    classifyReadVariant (ReadOutcome.text (readText raw offset limit)).result =
      if emptyMark <:+: (sliceLines raw offset limit).content then .empty
      else if offsetMark <:+: (sliceLines raw offset limit).content then .pastEof
      else .text := by
  have hempty := @infix_result_text emptyMark mark_empty 0x78 (by decide) (by decide) (by decide)
    raw offset limit
  have hoffset := @infix_result_text offsetMark mark_offset 0x62 (by decide) (by decide) (by decide)
    raw offset limit
  simp only [classifyReadVariant, not_prefix_result_text, Bool.false_eq_true, if_false,
    indexOf_ne_none_iff, hempty, hoffset]

theorem classifyReadVariant_unchanged (path : Bytes) :
    classifyReadVariant (ReadOutcome.unchanged path).result = .unchanged := by
  rw [classifyReadVariant, if_pos]
  rw [ReadOutcome.result, List.isPrefixOf_iff_prefix]
  simp only [List.append_assoc]
  exact List.prefix_append _ _

/-- What a reminder begins with. -/
theorem not_prefix_reminder (rest : Bytes) :
    (ascii "<File ").isPrefixOf (ascii "<system-reminder>file \x60" ++ rest) = false := by
  have hfront : ascii "<system-reminder>file \x60" =
      0x3C :: 0x73 :: ascii "ystem-reminder>file \x60" := by decide
  rw [hfront]
  rfl

theorem classifyReadVariant_empty (path : Bytes) :
    classifyReadVariant (ReadOutcome.empty path).result = .empty := by
  have hmark : emptyMark <:+: (ReadOutcome.empty path).result := by
    have hback : emptyMark <:+: ascii "\x60 exists but is empty.</system-reminder>" := by decide
    rw [ReadOutcome.result]
    exact List.infix_append_of_infix_right hback
  rw [classifyReadVariant, if_neg, if_pos (indexOf_ne_none_iff.mpr hmark)]
  rw [ReadOutcome.result, List.append_assoc, not_prefix_reminder]
  exact Bool.false_ne_true

theorem classifyReadVariant_pastEof (path : Bytes) (totalLines requestedOffset : ℕ) :
    classifyReadVariant (ReadOutcome.pastEof path totalLines requestedOffset).result =
      if emptyMark <:+: path then .empty else .pastEof := by
  have hoffset : offsetMark <:+: (ReadOutcome.pastEof path totalLines requestedOffset).result := by
    have hmiddle : offsetMark <:+: ascii " lines but offset " := by decide
    rw [ReadOutcome.result]
    exact List.infix_append_of_infix_left (List.infix_append_of_infix_left
      (List.infix_append_of_infix_right hmiddle))
  have hafter : ¬ emptyMark <:+: ascii " has only " ++ Digits.decimal totalLines ++
      ascii " lines but offset " ++ Digits.decimal requestedOffset ++
      ascii " was requested.</system-reminder>" := by
    refine Infix.not_infix_of_mem (x := 0x78) (by decide) ?_
    simp only [List.mem_append, not_or]
    exact ⟨⟨⟨⟨by decide, notMem_decimal (by decide) _⟩, by decide⟩, notMem_decimal (by decide) _⟩,
      by decide⟩
  have hresult : (ReadOutcome.pastEof path totalLines requestedOffset).result =
      ascii "<system-reminder>file " ++ 0x60 :: (path ++ 0x60 :: (ascii " has only " ++
        Digits.decimal totalLines ++ ascii " lines but offset " ++
        Digits.decimal requestedOffset ++ ascii " was requested.</system-reminder>")) := by
    have hfront : ascii "<system-reminder>file \x60" =
        ascii "<system-reminder>file " ++ [0x60] := by decide
    have hback : ascii "\x60 has only " = 0x60 :: ascii " has only " := by decide
    rw [ReadOutcome.result, hfront, hback]
    simp only [List.append_assoc, List.cons_append, List.nil_append]
  have hempty : emptyMark <:+: (ReadOutcome.pastEof path totalLines requestedOffset).result ↔
      emptyMark <:+: path := by
    have hfront : ¬ emptyMark <:+: ascii "<system-reminder>file " := by decide
    rw [hresult, Infix.infix_append_cons (by decide) (by decide), or_iff_right hfront,
      Infix.infix_append_cons (by decide) (by decide), or_iff_left hafter]
  have hprefix : (ascii "<File ").isPrefixOf
      (ReadOutcome.pastEof path totalLines requestedOffset).result = false := by
    rw [ReadOutcome.result]
    simp only [List.append_assoc]
    exact not_prefix_reminder _
  simp only [classifyReadVariant, hprefix, Bool.false_eq_true, if_false, indexOf_ne_none_iff,
    hempty, hoffset, if_true]

/-- **What is recovered from a text.**  The numbers of a command always are, and its flag unless its
output has the mark of an interrupted one.  An unchanged and an empty file always are; a text is,
unless its window has one of the two marks; and an offset behind the end is, unless the path has the
mark of an empty file. -/
theorem classifyFinishedKind_rendered (r : BashResult) (raw path : Bytes)
    (offset limit totalLines requestedOffset : ℕ) :
    (∃ interrupted : Bool,
      classifyFinishedKind (ascii "bash") (runBash (.ok r)) =
        .bash ⟨r.rendered, [], r.exitCode, interrupted, r.durationMs⟩ ∧
      (interrupted = true ↔ r.interrupted = true ∨ interruptedMark <:+: r.stdout ∨
        interruptedMark <:+: r.stderr)) ∧
    classifyFinishedKind (ascii "read_file") (ReadOutcome.text (readText raw offset limit)).result =
      .read {
        text := (ReadOutcome.text (readText raw offset limit)).result
        variant :=
          if emptyMark <:+: (sliceLines raw offset limit).content then .empty
          else if offsetMark <:+: (sliceLines raw offset limit).content then .pastEof
          else .text } ∧
    classifyFinishedKind (ascii "read_file") (ReadOutcome.unchanged path).result =
      .read { text := (ReadOutcome.unchanged path).result, variant := .unchanged } ∧
    classifyFinishedKind (ascii "read_file") (ReadOutcome.empty path).result =
      .read { text := (ReadOutcome.empty path).result, variant := .empty } ∧
    classifyFinishedKind (ascii "read_file")
        (ReadOutcome.pastEof path totalLines requestedOffset).result =
      .read {
        text := (ReadOutcome.pastEof path totalLines requestedOffset).result
        variant := if emptyMark <:+: path then .empty else .pastEof } := by
  have hread (text : Bytes) : classifyFinishedKind (ascii "read_file") text =
      .read { text, variant := classifyReadVariant text } := by
    rw [classifyFinishedKind, if_neg (by decide), if_pos rfl]
  refine ⟨⟨decide (indexOf interruptedMark r.rendered ≠ none), ?_, ?_⟩, ?_, ?_, ?_, ?_⟩
  · rw [classifyFinishedKind, if_pos rfl, runBash, parseExitCode_rendered, parseDurationMs_rendered]
  · rw [decide_eq_true_iff, indexOf_ne_none_iff, interruptedMark_infix_rendered]
  · rw [hread, classifyReadVariant_text]
  · rw [hread, classifyReadVariant_unchanged]
  · rw [hread, classifyReadVariant_empty]
  · rw [hread, classifyReadVariant_pastEof]

/-- A command that prints the mark, and a file that has one, are not recovered. -/
theorem classifyFinishedKind_misreads :
    classifyFinishedKind (ascii "bash")
        (runBash (.ok ⟨ascii "interrupted: true", [], 0, false, 7⟩)) =
      .bash {
        text := (⟨ascii "interrupted: true", [], 0, false, 7⟩ : BashResult).rendered
        interrupted := true
        durationMs := 7 } ∧
    classifyFinishedKind (ascii "read_file")
        (ReadOutcome.text (readText (ascii "but offset 3") 1 2000)).result =
      .read {
        text := (ReadOutcome.text (readText (ascii "but offset 3") 1 2000)).result
        variant := .pastEof } := by
  constructor <;> decide +kernel

end FinishedKind

end Cli
end TigerClaw
