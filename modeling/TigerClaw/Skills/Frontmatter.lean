import TigerClaw.Tui.Line
import TigerClaw.Library.Lines
import Mathlib.Data.List.Induction
import Mathlib.Data.List.TakeWhile

/-!
# The frontmatter of a skill

`parseFrontmatter` of `src/skills/skills.zig`: a file that begins with `---` has `key: value` lines
up to the next line that begins so, and what is behind that is the body.

* `parseFrontmatter`: the code.
* `Shape`: a file that is made of a fence, lines with a key each, a fence, and a body.
* `splitFence_lines`, `splitFence_early`: the first line that begins with a fence closes the block,
  whatever follows there; the line behind the opening one is not looked at.
* `skillFile_read_iff`: a file is read as it should exactly if no line of it looks like a fence
  that is none.
-/

namespace TigerClaw
namespace Skills

open Tui (trim trimEnd)
open Lines (cut)

def newline : UInt8 := 0x0A

def cr : UInt8 := 0x0D

def colon : UInt8 := 0x3A

def fence : Bytes := ascii "---"

/-- Spaces and tabs. -/
def blanks : List UInt8 := [0x20, 0x09]

/-- Blanks and quotes. -/
def quotes : List UInt8 := [0x20, 0x09, 0x22, 0x27]

/-- Blanks and the ends of lines. -/
def spaces : List UInt8 := [0x20, 0x09, 0x0D, 0x0A]

structure Frontmatter where
  name : Bytes := []
  description : Bytes := []
  body : Bytes := []

/-- The loop of `parseFrontmatter` over the lines of the block. -/
def readLine (self : Frontmatter) (raw : Bytes) : Frontmatter :=
  let line := trim [0x20, 0x09, 0x0D] raw
  if line = [] then self
  else
    match cut colon line with
    | none => self
    | some (before, behind) =>
      let key := trim blanks before
      let value := trim quotes behind
      let named := if key = ascii "name" then { self with name := value } else self
      if key = ascii "description" then { named with description := value } else named

/-- The block, and what is behind the fence that ends it. -/
def splitFence (rest : Bytes) : Option (Bytes × Bytes) :=
  (indexOf (newline :: fence) rest).map fun endMarker =>
    (rest.take endMarker, rest.drop (endMarker + 4))

/-- What is behind the line of the fence. -/
def behindLine (afterFence : Bytes) : Bytes :=
  match cut newline afterFence with
  | none => []
  | some (_, body) => body

def parseFrontmatter (bytes : Bytes) : Frontmatter :=
  if fence.isPrefixOf bytes then
    let opened := bytes.drop 3
    let rest := if opened.head? = some newline then opened.tail else opened
    match splitFence rest with
    | none => {}
    | some (block, afterFence) =>
      { (block.splitOn newline).foldl readLine {} with
        body := trim spaces (behindLine afterFence) }
  else { body := bytes }

/-! ## Files with a shape -/

/-- The end of a line. -/
def eol (crlf : Bool) : Bytes := if crlf then [cr, newline] else [newline]

/-- A line with a key. -/
structure Field where
  key : Bytes
  value : Bytes
  crlf : Bool
  colon_notMem : colon ∉ key
  newline_notMem : newline ∉ key ∧ newline ∉ value
  cr_notMem : cr ∉ key ∧ cr ∉ value

def Field.text (f : Field) : Bytes := f.key ++ colon :: f.value ++ eol f.crlf

/-- What is behind the three characters of the fence that ends the block. -/
inductive Ending where
  | line (crlf : Bool) (body : Bytes)
  | atEnd

def Ending.text : Ending → Bytes
  | .line crlf body => eol crlf ++ body
  | .atEnd => []

def Ending.body : Ending → Bytes
  | .line _ body => body
  | .atEnd => []

structure Shape where
  crlf : Bool
  fields : List Field
  ending : Ending

def Shape.text (s : Shape) : Bytes :=
  fence ++ eol s.crlf ++ s.fields.flatMap Field.text ++ fence ++ s.ending.text

/-- The value of the last line with a key. -/
def lastValue (key : Bytes) (fields : List Field) : Bytes :=
  match fields.reverse.find? fun f => trim blanks f.key = key with
  | none => []
  | some f => trim quotes f.value

/-- What is to be read from a file with a shape. -/
def Shape.frontmatter (s : Shape) : Frontmatter where
  name := lastValue (ascii "name") s.fields
  description := lastValue (ascii "description") s.fields
  body := trim spaces s.ending.body

/-- The lines of a file, with their ends taken off. -/
def fileLines (bytes : Bytes) : List Bytes :=
  (bytes.splitOn newline).map fun line => if line.getLast? = some cr then line.dropLast else line

/-- There is no fence in the first line, or none behind it. -/
def Unfenced (bytes : Bytes) : Prop :=
  ∀ lines, fileLines bytes = fence :: lines → fence ∉ lines

/-- A file with a shape, or one that does not have it. -/
inductive SkillFile where
  | shaped (shape : Shape)
  | unfenced (bytes : Bytes) (h : Unfenced bytes)

/-- A file is read as it should. -/
def SkillFile.Read : SkillFile → Prop
  | .shaped shape => parseFrontmatter shape.text = shape.frontmatter
  | .unfenced bytes _ => (parseFrontmatter bytes).body = bytes

/-- No key looks like a fence, unless in the line behind a fence that ends with a line feed alone;
and where that fence has no line behind it there is no body. -/
def Shape.Plain (s : Shape) : Prop :=
  (s.crlf = false → s.fields = [] → trim spaces s.ending.body = []) ∧
    ∀ f ∈ if s.crlf then s.fields else s.fields.tail, ¬ fence <+: f.key

/-- What makes a file be read as it should. -/
def SkillFile.Plain : SkillFile → Prop
  | .shaped shape => shape.Plain
  | .unfenced bytes _ => ¬ fence <+: bytes

/-! ## Trimming -/

section Trim

variable {values : List UInt8}

theorem dropWhile_of_all {s : Bytes} (h : ∀ b ∈ s, b ∈ values) :
    s.dropWhile values.contains = [] :=
  List.dropWhile_eq_nil_iff.mpr fun b hb => List.contains_iff_mem.mpr (h b hb)

/-- What is trimmed off in front. -/
theorem exists_front (values : List UInt8) (s : Bytes) :
    ∃ front, s = front ++ s.dropWhile values.contains ∧ ∀ b ∈ front, b ∈ values :=
  ⟨s.takeWhile values.contains, List.takeWhile_append_dropWhile.symm, fun _ hb =>
    List.contains_iff_mem.mp (List.mem_takeWhile_imp hb)⟩

/-- What is trimmed off behind. -/
theorem exists_back (values : List UInt8) (s : Bytes) :
    ∃ back, s = trimEnd values s ++ back ∧ ∀ b ∈ back, b ∈ values := by
  obtain ⟨front, hfront, hmem⟩ := exists_front values s.reverse
  refine ⟨front.reverse, ?_, fun b hb => hmem b (List.mem_reverse.mp hb)⟩
  have hreverse := congrArg List.reverse hfront
  rw [List.reverse_reverse, List.reverse_append] at hreverse
  exact hreverse

/-- A byte that stays keeps what is in front of it. -/
theorem trimEnd_append_cons {c : UInt8} (hc : c ∉ values) (front back : Bytes) :
    trimEnd values (front ++ c :: back) = front ++ c :: trimEnd values back := by
  unfold trimEnd
  have hstays : (c :: front.reverse).dropWhile values.contains = c :: front.reverse :=
    List.dropWhile_cons_of_neg (by simpa using hc)
  rw [List.reverse_append, List.reverse_cons, List.append_assoc, List.singleton_append,
    List.dropWhile_append]
  split
  · rename_i hempty
    rw [List.isEmpty_iff] at hempty
    rw [hempty, hstays]
    simp
  · simp

theorem trim_eq (values : List UInt8) (s : Bytes) :
    trim values s = trimEnd values (s.dropWhile values.contains) := rfl

/-- And in front of it only that is trimmed off which has to be. -/
theorem trim_append_cons {c : UInt8} (hc : c ∉ values) (front back : Bytes) :
    trim values (front ++ c :: back) =
      front.dropWhile values.contains ++ c :: trimEnd values back := by
  have hstays : (c :: back).dropWhile values.contains = c :: back :=
    List.dropWhile_cons_of_neg (by simpa using hc)
  rw [trim_eq, List.dropWhile_append]
  split
  · rename_i hempty
    rw [List.isEmpty_iff] at hempty
    rw [hempty, hstays]
    exact trimEnd_append_cons hc [] back
  · exact trimEnd_append_cons hc _ back

theorem trimEnd_append_of_all {back : Bytes} (h : ∀ b ∈ back, b ∈ values) (s : Bytes) :
    trimEnd values (s ++ back) = trimEnd values s := by
  unfold trimEnd
  rw [List.reverse_append, List.dropWhile_append,
    dropWhile_of_all fun b hb => h b (List.mem_reverse.mp hb)]
  rfl

theorem trim_append_of_all_left {front : Bytes} (h : ∀ b ∈ front, b ∈ values) (s : Bytes) :
    trim values (front ++ s) = trim values s := by
  rw [trim_eq, List.dropWhile_append, dropWhile_of_all h]
  rfl

theorem trim_append_of_all_right {back : Bytes} (h : ∀ b ∈ back, b ∈ values) (s : Bytes) :
    trim values (s ++ back) = trim values s := by
  rw [trim_eq, List.dropWhile_append]
  split
  · rename_i hempty
    rw [List.isEmpty_iff] at hempty
    rw [trim_eq, hempty, dropWhile_of_all h]
  · rw [trimEnd_append_of_all h]
    rfl

theorem length_trimEnd_le (front back : Bytes) :
    (trimEnd values back).length ≤ (trimEnd values (front ++ back)).length := by
  unfold trimEnd
  rw [List.reverse_append, List.dropWhile_append]
  split
  · rename_i hempty
    rw [List.isEmpty_iff] at hempty
    rw [hempty]
    exact Nat.zero_le _
  · rw [List.length_reverse, List.length_reverse, List.length_append]
    omega

/-- What is not blank in front makes a text longer. -/
theorem length_trim_lt {front : Bytes} {c : UInt8} (hmem : c ∈ front) (hc : c ∉ values)
    (back : Bytes) : (trim values back).length < (trim values (front ++ back)).length := by
  obtain ⟨first, behind, rfl⟩ := List.append_of_mem hmem
  obtain ⟨blank, hblank, -⟩ := exists_front values back
  have hassoc : first ++ c :: behind ++ back = first ++ c :: (behind ++ back) := by simp
  have hle : (trim values back).length ≤ (trimEnd values (behind ++ back)).length := by
    calc (trim values back).length
        ≤ (trimEnd values (behind ++ blank ++ back.dropWhile values.contains)).length :=
          length_trimEnd_le _ _
      _ = (trimEnd values (behind ++ back)).length := by rw [List.append_assoc, ← hblank]
  rw [hassoc, trim_append_cons hc, List.length_append, List.length_cons]
  omega

end Trim

/-! ## The lines of the block -/

/-- A field as the loop finds it, in front of the line feed. -/
def Field.raw (f : Field) : Bytes := f.key ++ colon :: (f.value ++ if f.crlf then [cr] else [])

/-- What the loop makes of a key and its value. -/
def Frontmatter.assign (self : Frontmatter) (key value : Bytes) : Frontmatter :=
  let named := if key = ascii "name" then { self with name := value } else self
  if key = ascii "description" then { named with description := value } else named

/-- **A field is read** with its key and its value trimmed. -/
theorem readLine_raw (self : Frontmatter) (f : Field) :
    readLine self f.raw = self.assign (trim blanks f.key) (trim quotes f.value) := by
  have hcolon : colon ∉ ([0x20, 0x09, 0x0D] : List UInt8) := by decide
  have hsplit : ∀ b ∈ ([0x20, 0x09, 0x0D] : List UInt8), b ≠ cr → b ∈ blanks ∧ b ∈ quotes := by
    intro b hb hne
    rcases List.mem_cons.mp hb with rfl | hb
    · exact ⟨by decide, by decide⟩
    rcases List.mem_cons.mp hb with rfl | hb
    · exact ⟨by decide, by decide⟩
    · exact absurd (List.mem_singleton.mp hb) hne
  have hline := trim_append_cons hcolon f.key (f.value ++ if f.crlf then [cr] else [])
  have hend : trimEnd [0x20, 0x09, 0x0D] (f.value ++ if f.crlf then [cr] else []) =
      trimEnd [0x20, 0x09, 0x0D] f.value := by
    refine trimEnd_append_of_all (fun b hb => ?_) f.value
    split at hb
    · rw [List.mem_singleton.mp hb]
      decide
    · exact absurd hb List.not_mem_nil
  -- what is trimmed off the line would be trimmed off the key and the value as well
  obtain ⟨front, hfront, hblank⟩ := exists_front [0x20, 0x09, 0x0D] f.key
  obtain ⟨back, hback, hquote⟩ := exists_back [0x20, 0x09, 0x0D] f.value
  have hkey : trim blanks (f.key.dropWhile ([0x20, 0x09, 0x0D] : List UInt8).contains) =
      trim blanks f.key := by
    rw [eq_comm, hfront, trim_append_of_all_left, ← hfront]
    intro b hb
    refine (hsplit b (hblank b hb) ?_).1
    rintro rfl
    exact f.cr_notMem.1 (hfront ▸ List.mem_append_left _ hb)
  have hvalue : trim quotes (trimEnd [0x20, 0x09, 0x0D] f.value) = trim quotes f.value := by
    rw [eq_comm, hback, trim_append_of_all_right, ← hback]
    intro b hb
    refine (hsplit b (hquote b hb) ?_).2
    rintro rfl
    exact f.cr_notMem.2 (hback ▸ List.mem_append_right _ hb)
  have hnotMem : colon ∉ f.key.dropWhile ([0x20, 0x09, 0x0D] : List UInt8).contains := fun hmem =>
    f.colon_notMem ((List.dropWhile_suffix _).mem hmem)
  have hne : f.key.dropWhile ([0x20, 0x09, 0x0D] : List UInt8).contains ++
      colon :: trimEnd [0x20, 0x09, 0x0D] f.value ≠ [] := by simp
  unfold readLine
  rw [Field.raw, hline, hend, if_neg hne, Lines.cut_append hnotMem]
  dsimp only
  rw [hkey, hvalue]
  rfl

theorem readLine_cr (self : Frontmatter) : readLine self [cr] = self := rfl

theorem assign_name (self : Frontmatter) (key value : Bytes) :
    (self.assign key value).name = if key = ascii "name" then value else self.name := by
  unfold Frontmatter.assign
  split <;> split <;> rfl

theorem assign_description (self : Frontmatter) (key value : Bytes) :
    (self.assign key value).description =
      if key = ascii "description" then value else self.description := by
  unfold Frontmatter.assign
  split <;> split <;> rfl

theorem lastValue_append (key : Bytes) (fields : List Field) (f : Field) :
    lastValue key (fields ++ [f]) =
      if trim blanks f.key = key then trim quotes f.value else lastValue key fields := by
  unfold lastValue
  rw [List.reverse_append, List.reverse_singleton, List.singleton_append, List.find?_cons]
  by_cases h : trim blanks f.key = key
  · rw [if_pos h, decide_eq_true h]
  · rw [if_neg h, decide_eq_false h]

/-- **The last value of a key** is the one that is read. -/
theorem foldl_readLine (fields : List Field) :
    ((fields.map Field.raw).foldl readLine {}).name = lastValue (ascii "name") fields ∧
      ((fields.map Field.raw).foldl readLine {}).description =
        lastValue (ascii "description") fields := by
  induction fields using List.reverseRecOn with
  | nil => exact ⟨rfl, rfl⟩
  | append_singleton fields f ih =>
    rw [List.map_append, List.foldl_append, List.map_singleton, List.foldl_cons, List.foldl_nil,
      readLine_raw, assign_name, assign_description, lastValue_append, lastValue_append, ih.1, ih.2]
    exact ⟨rfl, rfl⟩

/-! ## The fence that ends the block -/

/-- A fence is not cut by what it has not. -/
theorem fence_prefix_append_iff {line : Bytes} {c : UInt8} (hc : c ∉ fence) (rest : Bytes) :
    fence <+: line ++ c :: rest ↔ fence <+: line := by
  constructor
  · intro h
    have hline : line ++ [c] <+: line ++ c :: rest := ⟨rest, by simp⟩
    rcases List.prefix_or_prefix_of_prefix h hline with hshort | hlong
    · rcases List.prefix_concat_iff.mp hshort with heq | hprefix
      · exact absurd (heq ▸ List.mem_append_right line (List.mem_singleton_self c)) hc
      · exact hprefix
    · exact absurd (hlong.mem (List.mem_append_right line (List.mem_singleton_self c))) hc
  · exact fun h => h.trans (List.prefix_append _ _)

/-- The marker is looked for line by line. -/
theorem indexOf_line {line : Bytes} (h : newline ∉ line) (rest : Bytes) :
    indexOf (newline :: fence) (line ++ newline :: rest) =
      if fence <+: rest then some line.length
      else (indexOf (newline :: fence) rest).map (· + (line.length + 1)) := by
  induction line with
  | nil =>
    rw [List.nil_append, indexOf, List.isPrefixOf_cons_cons_self]
    by_cases hfence : fence <+: rest
    · rw [if_pos (List.isPrefixOf_iff_prefix.mpr hfence), if_pos hfence]
      rfl
    · rw [if_neg (mt List.isPrefixOf_iff_prefix.mp hfence), if_neg hfence]
      rfl
  | cons b line ih =>
    obtain ⟨hb, hline⟩ := List.ne_and_not_mem_of_not_mem_cons h
    have hnot : ¬ (newline :: fence).isPrefixOf (b :: (line ++ newline :: rest)) = true := by
      rw [List.isPrefixOf_iff_prefix, List.cons_prefix_cons]
      exact fun hboth => hb hboth.1
    rw [List.cons_append, indexOf, if_neg hnot, ih hline, List.length_cons]
    split
    · rfl
    · rw [Option.map_map]
      refine congrArg (Option.map · _) (funext fun i => ?_)
      exact Nat.add_assoc i (line.length + 1) 1

theorem splitFence_line {line : Bytes} (h : newline ∉ line) (rest : Bytes) :
    splitFence (line ++ newline :: rest) =
      if fence <+: rest then some (line, rest.drop 3)
      else (splitFence rest).map fun p => (line ++ newline :: p.1, p.2) := by
  unfold splitFence
  rw [indexOf_line h]
  split
  · have hdrop : (line ++ newline :: rest).drop (line.length + 4) = rest.drop 3 := by
      rw [List.drop_append, List.drop_of_length_le (by omega), List.nil_append]
      have hfour : line.length + 4 - line.length = 3 + 1 := by omega
      rw [hfour, List.drop_succ_cons]
    rw [Option.map_some, hdrop, List.take_left]
  · rw [Option.map_map, Option.map_map]
    refine congrArg (Option.map · _) (funext fun i => ?_)
    have htake : (line ++ newline :: rest).take (i + (line.length + 1)) =
        line ++ newline :: rest.take i := by
      rw [List.take_append, List.take_of_length_le (by omega)]
      have hone : i + (line.length + 1) - line.length = i + 1 := by omega
      rw [hone, List.take_succ_cons]
    have hdrop : (line ++ newline :: rest).drop (i + (line.length + 1) + 4) =
        rest.drop (i + 4) := by
      rw [List.drop_append, List.drop_of_length_le (by omega), List.nil_append]
      have hone : i + (line.length + 1) + 4 - line.length = i + 4 + 1 := by omega
      rw [hone, List.drop_succ_cons]
    show (_, _) = (_, _)
    rw [htake, hdrop]

def linesText (raws : List Bytes) : Bytes := raws.flatMap (· ++ [newline])

theorem linesText_cons (raw : Bytes) (raws : List Bytes) (rest : Bytes) :
    linesText (raw :: raws) ++ rest = raw ++ newline :: (linesText raws ++ rest) := by
  simp [linesText]

theorem newline_notMem_fence : newline ∉ fence := by decide

/-- **The block ends where it should**, if none of its lines but the first looks like a fence. -/
theorem splitFence_lines {raw : Bytes} {raws : List Bytes} (tail : Bytes)
    (hraws : ∀ r ∈ raw :: raws, newline ∉ r) (hplain : ∀ r ∈ raws, ¬ fence <+: r) :
    ∃ block, splitFence (linesText (raw :: raws) ++ (fence ++ tail)) = some (block, tail) ∧
      block.splitOn newline = raw :: raws := by
  induction raws generalizing raw with
  | nil =>
    have hraw : newline ∉ raw := hraws raw List.mem_cons_self
    refine ⟨raw, ?_, List.splitOn_eq_singleton hraw⟩
    rw [linesText_cons, splitFence_line hraw]
    exact if_pos (List.prefix_append fence tail)
  | cons r raws ih =>
    have hraw : newline ∉ raw := hraws raw List.mem_cons_self
    obtain ⟨block, hblock, hsplit⟩ := ih (fun l hl => hraws l (List.mem_cons_of_mem raw hl))
      fun l hl => hplain l (List.mem_cons_of_mem r hl)
    refine ⟨raw ++ newline :: block, ?_, ?_⟩
    · have hnot : ¬ fence <+: linesText (r :: raws) ++ (fence ++ tail) := by
        rw [linesText_cons, fence_prefix_append_iff newline_notMem_fence]
        exact hplain r List.mem_cons_self
      rw [linesText_cons, splitFence_line hraw, if_neg hnot, hblock]
      rfl
    · rw [List.splitOn_append_cons_self_of_not_mem hraw, hsplit]

/-- **It ends too early**, if one of them does. -/
theorem splitFence_early {raw : Bytes} {raws : List Bytes} (tail : Bytes)
    (hraws : ∀ r ∈ raw :: raws, newline ∉ r) (hfence : ∃ r ∈ raws, fence <+: r) :
    ∃ block after more, splitFence (linesText (raw :: raws) ++ (fence ++ tail)) =
      some (block, after) ∧ behindLine after = more ++ (fence ++ tail) := by
  induction raws generalizing raw with
  | nil =>
    obtain ⟨r, hr, -⟩ := hfence
    exact absurd hr List.not_mem_nil
  | cons r raws ih =>
    have hraw : newline ∉ raw := hraws raw List.mem_cons_self
    have hr : newline ∉ r := hraws r (List.mem_cons_of_mem raw List.mem_cons_self)
    rw [linesText_cons, splitFence_line hraw]
    by_cases hhere : fence <+: r
    · have hfront : fence <+: linesText (r :: raws) ++ (fence ++ tail) := by
        rw [linesText_cons, fence_prefix_append_iff newline_notMem_fence]
        exact hhere
      refine ⟨raw, _, linesText raws, if_pos hfront, ?_⟩
      obtain ⟨more, rfl⟩ := hhere
      have hmore : newline ∉ more := fun hmem => hr (List.mem_append_right fence hmem)
      have hdrop : (linesText ((fence ++ more) :: raws) ++ (fence ++ tail)).drop 3 =
          more ++ newline :: (linesText raws ++ (fence ++ tail)) := by
        rw [linesText_cons, List.append_assoc]
        rfl
      rw [hdrop, behindLine, Lines.cut_append hmore]
    · have hnot : ¬ fence <+: linesText (r :: raws) ++ (fence ++ tail) := by
        rw [linesText_cons, fence_prefix_append_iff newline_notMem_fence]
        exact hhere
      have hlater : ∃ l ∈ raws, fence <+: l := by
        obtain ⟨l, hl, hl'⟩ := hfence
        rcases List.mem_cons.mp hl with rfl | hl
        · exact absurd hl' hhere
        · exact ⟨l, hl, hl'⟩
      obtain ⟨block, after, more, hsplit, hbehind⟩ :=
        ih (fun l hl => hraws l (List.mem_cons_of_mem raw hl)) hlater
      refine ⟨raw ++ newline :: block, after, more, ?_, hbehind⟩
      rw [if_neg hnot, hsplit]
      rfl

/-- What is found is there. -/
theorem eq_of_splitFence {rest block after : Bytes} (h : splitFence rest = some (block, after)) :
    rest = block ++ newline :: (fence ++ after) := by
  obtain ⟨i, hi, heq⟩ := Option.map_eq_some_iff.mp h
  obtain ⟨rfl, rfl⟩ := Prod.mk.inj heq
  obtain ⟨after, hafter⟩ := prefix_drop_of_indexOf hi
  have hdrop : rest.drop (i + 4) = after := by
    rw [← List.drop_drop, ← hafter]
    rfl
  rw [hdrop]
  calc rest = rest.take i ++ rest.drop i := (List.take_append_drop i rest).symm
    _ = rest.take i ++ newline :: (fence ++ after) := by rw [← hafter]; rfl

/-! ## Files with a shape -/

/-- The lines that the code finds between the fences, the rest of the first line among them where it
is not skipped. -/
def Shape.rawLines (s : Shape) : List Bytes :=
  (if s.crlf then [[cr]] else []) ++ s.fields.map Field.raw

/-- The fields that are looked at for a fence. -/
def Shape.later (s : Shape) : List Field := if s.crlf then s.fields else s.fields.tail

theorem rawLines_eq_cons {s : Shape} (h : ¬ (s.crlf = false ∧ s.fields = [])) :
    ∃ raw, s.rawLines = raw :: s.later.map Field.raw := by
  unfold Shape.rawLines Shape.later
  cases hcrlf : s.crlf with
  | true => exact ⟨[cr], rfl⟩
  | false =>
    cases hfields : s.fields with
    | nil => exact absurd ⟨hcrlf, hfields⟩ h
    | cons f fields => exact ⟨f.raw, rfl⟩

theorem newline_notMem_raw (f : Field) : newline ∉ f.raw := by
  have hcolon : newline ≠ colon := by decide
  have hcr : newline ∉ if f.crlf then [cr] else [] := by split <;> decide
  simp [Field.raw, f.newline_notMem.1, f.newline_notMem.2, hcolon, hcr]

theorem newline_notMem_of_mem_rawLines (s : Shape) : ∀ raw ∈ s.rawLines, newline ∉ raw := by
  intro raw hraw
  rcases List.mem_append.mp hraw with hcr | hfield
  · split at hcr
    · rw [List.mem_singleton.mp hcr]
      decide
    · exact absurd hcr List.not_mem_nil
  · obtain ⟨f, -, rfl⟩ := List.mem_map.mp hfield
    exact newline_notMem_raw f

theorem fence_prefix_raw_iff (f : Field) : fence <+: f.raw ↔ fence <+: f.key :=
  fence_prefix_append_iff (by decide) _

theorem fieldText_eq (f : Field) : f.text = f.raw ++ [newline] := by
  unfold Field.text Field.raw eol
  cases f.crlf <;> simp

/-- What `parseFrontmatter` makes of a file with a shape. -/
theorem parseFrontmatter_text (s : Shape) :
    parseFrontmatter s.text =
      match splitFence (linesText s.rawLines ++ (fence ++ s.ending.text)) with
      | none => {}
      | some (block, afterFence) =>
        { (block.splitOn newline).foldl readLine {} with
          body := trim spaces (behindLine afterFence) } := by
  have hfields : s.fields.flatMap Field.text = linesText (s.fields.map Field.raw) := by
    rw [linesText, List.flatMap_map]
    exact List.flatMap_congr fun f _ => fieldText_eq f
  have htext : s.text = fence ++
      (eol s.crlf ++ (linesText (s.fields.map Field.raw) ++ (fence ++ s.ending.text))) := by
    rw [Shape.text, hfields]
    simp only [List.append_assoc]
  have hdrop : s.text.drop 3 =
      eol s.crlf ++ (linesText (s.fields.map Field.raw) ++ (fence ++ s.ending.text)) := by
    rw [htext]
    rfl
  have hprefix : fence.isPrefixOf s.text = true :=
    List.isPrefixOf_iff_prefix.mpr (htext ▸ List.prefix_append _ _)
  unfold parseFrontmatter Shape.rawLines
  rw [if_pos hprefix, hdrop]
  cases s.crlf <;> rfl

theorem behindLine_text (ending : Ending) : behindLine ending.text = ending.body := by
  cases ending with
  | line crlf body => cases crlf <;> rfl
  | atEnd => rfl

theorem exists_text_eq (ending : Ending) : ∃ front, ending.text = front ++ ending.body := by
  cases ending with
  | line crlf body => exact ⟨eol crlf, rfl⟩
  | atEnd => exact ⟨[], rfl⟩

theorem exists_behindLine (after : Bytes) : ∃ front, after = front ++ behindLine after := by
  unfold behindLine
  cases hcut : cut newline after with
  | none => exact ⟨after, (List.append_nil after).symm⟩
  | some p =>
    obtain ⟨htext, -⟩ := Lines.cut_eq_some_iff.mp hcut
    exact ⟨p.1 ++ [newline], by simpa using htext⟩

/-- Something of a fence is not blank. -/
theorem exists_notMem_spaces (front back : Bytes) :
    ∃ c ∈ front ++ (fence ++ back), c ∉ spaces :=
  ⟨0x2D, List.mem_append_right front (List.mem_append_left back (by decide)), by decide⟩

/-- Where nothing is between the fences, a fence is looked for in the body. -/
theorem body_of_splitFence {ending : Ending} {block after : Bytes}
    (h : splitFence (fence ++ ending.text) = some (block, after)) :
    ∃ front, (∃ c ∈ front, c ∉ spaces) ∧ ending.body = front ++ behindLine after := by
  obtain ⟨more, hmore⟩ := exists_behindLine after
  cases ending with
  | atEnd => cases h
  | line crlf body =>
    obtain ⟨line, hline, heq⟩ : ∃ line, newline ∉ line ∧
        fence ++ (Ending.line crlf body).text = line ++ newline :: body := by
      cases crlf with
      | true => exact ⟨fence ++ [cr], by decide, rfl⟩
      | false => exact ⟨fence, by decide, rfl⟩
    rw [heq, splitFence_line hline] at h
    split at h
    · rename_i hfence
      obtain ⟨behind, rfl⟩ := hfence
      obtain ⟨-, hafter⟩ := Prod.mk.inj (Option.some.inj h)
      have hbehind : behind = after := hafter
      refine ⟨fence ++ more, exists_notMem_spaces [] more, ?_⟩
      show fence ++ behind = fence ++ more ++ behindLine after
      rw [List.append_assoc, ← hmore, hbehind]
    · obtain ⟨⟨block', after'⟩, hsplit, hpair⟩ := Option.map_eq_some_iff.mp h
      obtain ⟨-, rfl⟩ := Prod.mk.inj hpair
      refine ⟨block' ++ [newline] ++ (fence ++ more), exists_notMem_spaces _ more, ?_⟩
      show body = block' ++ [newline] ++ (fence ++ more) ++ behindLine after'
      rw [eq_of_splitFence hsplit]
      simp only [List.append_assoc, ← hmore]
      rfl

/-- **A file with nothing between the fences** is read as it should exactly if it has no body. -/
theorem parse_empty_iff {s : Shape} (hcrlf : s.crlf = false) (hfields : s.fields = []) :
    parseFrontmatter s.text = s.frontmatter ↔ trim spaces s.ending.body = [] := by
  have hraw : s.rawLines = [] := by
    rw [Shape.rawLines, hcrlf, hfields]
    rfl
  have hspec : s.frontmatter = { body := trim spaces s.ending.body } := by
    rw [Shape.frontmatter, hfields]
    rfl
  rw [parseFrontmatter_text, hraw, hspec]
  have htext : linesText [] ++ (fence ++ s.ending.text) = fence ++ s.ending.text := rfl
  rw [htext]
  cases hsplit : splitFence (fence ++ s.ending.text) with
  | none =>
    constructor
    · exact fun heq => (congrArg Frontmatter.body heq).symm
    · intro hblank
      rw [hblank]
  | some p =>
    obtain ⟨block, after⟩ := p
    obtain ⟨front, ⟨c, hmem, hc⟩, hbody⟩ := body_of_splitFence hsplit
    have hlt := length_trim_lt hmem hc (behindLine after)
    rw [← hbody] at hlt
    refine iff_of_false (fun heq => ?_) fun hblank => ?_
    · have hsame : trim spaces (behindLine after) = trim spaces s.ending.body :=
        congrArg Frontmatter.body heq
      rw [hsame] at hlt
      exact Nat.lt_irrefl _ hlt
    · rw [hblank] at hlt
      exact Nat.not_lt_zero _ hlt

/-- **A file with something there** is read as it should exactly if no line of it that is looked at
is like a fence. -/
theorem parse_lines_iff {s : Shape} (h : ¬ (s.crlf = false ∧ s.fields = [])) :
    parseFrontmatter s.text = s.frontmatter ↔ ∀ f ∈ s.later, ¬ fence <+: f.key := by
  obtain ⟨raw, hraw⟩ := rawLines_eq_cons h
  have hlines : ∀ r ∈ raw :: s.later.map Field.raw, newline ∉ r :=
    hraw ▸ newline_notMem_of_mem_rawLines s
  rw [parseFrontmatter_text, hraw]
  by_cases hplain : ∀ f ∈ s.later, ¬ fence <+: f.key
  · refine iff_of_true ?_ hplain
    obtain ⟨block, hblock, hsplit⟩ := splitFence_lines s.ending.text hlines fun r hr => by
      obtain ⟨f, hf, rfl⟩ := List.mem_map.mp hr
      rw [fence_prefix_raw_iff]
      exact hplain f hf
    have hread : (raw :: s.later.map Field.raw).foldl readLine {} =
        (s.fields.map Field.raw).foldl readLine {} := by
      rw [← hraw, Shape.rawLines]
      cases s.crlf <;> rfl
    rw [hblock]
    dsimp only
    rw [hsplit, hread, behindLine_text, (foldl_readLine s.fields).1, (foldl_readLine s.fields).2]
    rfl
  · refine iff_of_false (fun heq => ?_) hplain
    push Not at hplain
    obtain ⟨f, hf, hfence⟩ := hplain
    have hearly : ∃ r ∈ s.later.map Field.raw, fence <+: r :=
      ⟨f.raw, List.mem_map_of_mem hf, (fence_prefix_raw_iff f).mpr hfence⟩
    obtain ⟨block, after, more, hblock, hbehind⟩ := splitFence_early s.ending.text hlines hearly
    obtain ⟨front, hfront⟩ := exists_text_eq s.ending
    obtain ⟨c, hmem, hc⟩ := exists_notMem_spaces more front
    have hlt := length_trim_lt hmem hc s.ending.body
    have hbody : trim spaces (behindLine after) = trim spaces s.ending.body := by
      rw [hblock] at heq
      exact congrArg Frontmatter.body heq
    rw [hbehind, hfront, ← List.append_assoc fence, ← List.append_assoc more] at hbody
    rw [hbody] at hlt
    exact Nat.lt_irrefl _ hlt

/-! ## All files -/

theorem parse_shape_iff (s : Shape) : parseFrontmatter s.text = s.frontmatter ↔ s.Plain := by
  unfold Shape.Plain
  by_cases h : s.crlf = false ∧ s.fields = []
  · obtain ⟨hcrlf, hfields⟩ := h
    have hnone : ∀ f ∈ if s.crlf then s.fields else s.fields.tail, ¬ fence <+: f.key := by
      rw [hcrlf, hfields]
      exact fun f hf => absurd hf List.not_mem_nil
    rw [parse_empty_iff hcrlf hfields, and_iff_left hnone]
    exact ⟨fun hblank _ _ => hblank, fun hall => hall hcrlf hfields⟩
  · rw [parse_lines_iff h]
    exact (and_iff_right fun hcrlf hfields => absurd ⟨hcrlf, hfields⟩ h).symm

theorem length_trim_le (values : List UInt8) (s : Bytes) : (trim values s).length ≤ s.length := by
  unfold trim
  rw [List.length_reverse]
  refine Nat.le_trans (List.dropWhile_sublist _).length_le ?_
  rw [List.length_reverse]
  exact (List.dropWhile_sublist _).length_le

/-- A body is no longer than what it is found in. -/
theorem length_behindLine_le {rest block after : Bytes}
    (h : splitFence rest = some (block, after)) :
    (trim spaces (behindLine after)).length ≤ rest.length := by
  obtain ⟨front, hfront⟩ := exists_behindLine after
  have hrest := congrArg List.length (eq_of_splitFence h)
  have hafter := congrArg List.length hfront
  have htrim := length_trim_le spaces (behindLine after)
  simp only [List.length_append, List.length_cons] at hrest hafter
  omega

/-- A file that begins with a fence is not returned as it is. -/
theorem body_eq_iff (bytes : Bytes) :
    (parseFrontmatter bytes).body = bytes ↔ ¬ fence <+: bytes := by
  unfold parseFrontmatter
  by_cases hfence : fence <+: bytes
  · refine iff_of_false (fun heq => ?_) fun hnot => hnot hfence
    rw [if_pos (List.isPrefixOf_iff_prefix.mpr hfence)] at heq
    obtain ⟨behind, rfl⟩ := hfence
    have hdrop : (fence ++ behind).drop 3 = behind := rfl
    have hrest : (if behind.head? = some newline then behind.tail else behind).length ≤
        behind.length := by
      split
      · rw [List.length_tail]
        exact Nat.sub_le _ _
      · exact Nat.le_refl _
    simp only [hdrop] at heq
    cases hsplit : splitFence (if behind.head? = some newline then behind.tail else behind) with
    | none =>
      rw [hsplit] at heq
      cases heq
    | some p =>
      rw [hsplit] at heq
      have hle := length_behindLine_le hsplit
      have hlength : (trim spaces (behindLine p.2)).length = (fence ++ behind).length :=
        congrArg List.length heq
      have hthree : (fence ++ behind).length = 3 + behind.length := List.length_append
      omega
  · rw [if_neg (mt List.isPrefixOf_iff_prefix.mp hfence)]
    exact iff_of_true rfl hfence

/-- **A file is read as it should** exactly if none of its lines is taken for a fence that is not
one, and no fence is missed. -/
theorem skillFile_read_iff (file : SkillFile) : file.Read ↔ file.Plain := by
  cases file with
  | shaped shape => exact parse_shape_iff shape
  | unfenced bytes h => exact body_eq_iff bytes

/-- A body behind two fences is lost. -/
theorem empty_frontmatter_loses_body : ¬ SkillFile.Read
    (.shaped { crlf := false, fields := [], ending := .line false (ascii "Be brief.\n") }) := by
  intro h
  have hbody := congrArg Frontmatter.body h
  exact absurd hbody (by decide)

end Skills
end TigerClaw
