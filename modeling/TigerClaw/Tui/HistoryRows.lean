import TigerClaw.Tui.Line
import TigerClaw.Tui.Wrap
import TigerClaw.Library.NextFit

/-!
# The rows of the history

The draw pass of `src/tui/widgets/history.zig` lays the lines out as rows, and `totalRowsFor` counts
them on its own, from the width of each segment.

* `layoutRows`, `viewport`: the draw pass, as far as the painting.
* `totalRowsFor`: the count.
* `length_wrapLineInto`: the rows of a line are those of next fit.
* `agrees_iff`: the count is right exactly if the ends of the rows lose little.
-/

namespace TigerClaw
namespace Tui
namespace History

/-- A line with what only the history reads of it. -/
structure HistoryLine extends Line where
  toolIsLastInTurn : Bool := false
  bannerMinWidth : ℕ := 0
  bannerMaxWidth : ℕ := 0

inductive LogicalRow.Kind where
  | content
  | blank
  | userPadTop
  | userPadBot

structure LogicalRow where
  kind : LogicalRow.Kind
  lineIdx : ℕ := 0
  bytesOffset : ℕ := 0
  bytesLen : ℕ := 0
  isFirst : Bool := false

/-- The columns of the name, its two pads and the gap. -/
def pillCols (line : HistoryLine) : ℕ :=
  match line.speaker with
  | none => 0
  | some speaker => if speaker.length = 0 then 0 else speaker.length + 3

/-- The glyphs in front of a line: `∙`, `└─ ●`, `├─ ●` or `⎿`, and a blank. -/
def prefixFor (line : HistoryLine) : Bytes :=
  match line.role with
  | .user => []
  | .agent => []
  | .system => [0xE2, 0x88, 0x99, 0x20]
  | .banner => []
  | .tool =>
    if line.toolName.isSome then
      if line.toolIsLastInTurn then
        [0xE2, 0x94, 0x94, 0xE2, 0x94, 0x80, 0x20, 0xE2, 0x97, 0x8F, 0x20]
      else [0xE2, 0x94, 0x9C, 0xE2, 0x94, 0x80, 0x20, 0xE2, 0x97, 0x8F, 0x20]
    else [0xE2, 0x8E, 0xBF, 0x20]

def shouldGapBefore (prev : Option Role) (cur : Role) : Bool :=
  match prev with
  | none => false
  | some p =>
    if p = cur then false
    else if cur = .tool then false
    else if cur = .user then false
    else if p = .user then false
    else if cur = .banner then false
    else true

/-- `indent_pill_cols`: a tool row without a name hangs under the last name. -/
def indentPillCols : ℕ → List HistoryLine → List ℕ
  | _, [] => []
  | carry, line :: lines =>
    let own := pillCols line
    if 0 < own then own :: indentPillCols own lines
    else (if line.role = .tool then carry else 0) :: indentPillCols carry lines

/-- The pane is outside the widths that a banner is for. -/
def gateClosed (width : ℕ) (line : HistoryLine) : Bool :=
  line.role = .banner &&
    ((line.bannerMinWidth ≠ 0 && width < line.bannerMinWidth) ||
      (line.bannerMaxWidth ≠ 0 && line.bannerMaxWidth < width))

/-- The row in front of a line. -/
def leadRows (prev : Option Role) (idx : ℕ) (line : HistoryLine) : List LogicalRow :=
  if line.role = .user then [{ kind := .userPadTop, lineIdx := idx }]
  else if shouldGapBefore prev line.role then [{ kind := .blank }]
  else []

def contentRows (idx : ℕ) (rows : List Row) : List LogicalRow :=
  rows.zipIdx.map fun cr =>
    { kind := .content
      lineIdx := idx
      bytesOffset := cr.1.bytesOffset
      bytesLen := cr.1.bytesLen
      isFirst := cr.2 = 0 }

/-- The row behind a line. -/
def trailRows (idx : ℕ) (line : HistoryLine) : List LogicalRow :=
  if line.role = .user then [{ kind := .userPadBot, lineIdx := idx }] else []

variable (gwidth : Bytes → ℕ)

/-- The first pass, from a line on; each line comes with its indent. -/
def layoutFrom (width : ℕ) : ℕ → Option Role → List (HistoryLine × ℕ) → List LogicalRow
  | _, _, [] => []
  | idx, prev, (line, pill) :: rest =>
    if gateClosed width line then layoutFrom width (idx + 1) prev rest
    else
      leadRows prev idx line ++
        contentRows idx
          (wrapLineInto gwidth line.text width (pill + gwidth (prefixFor line))) ++
        trailRows idx line ++ layoutFrom width (idx + 1) (some line.role) rest

/-- The lines with their indents. -/
def indented (lines : List HistoryLine) : List (HistoryLine × ℕ) :=
  lines.zip (indentPillCols 0 lines)

/-- The rows of the first pass; a pane without columns is not drawn. -/
def layoutRows (lines : List HistoryLine) (width : ℕ) : List LogicalRow :=
  if width = 0 then [] else layoutFrom gwidth width 0 none (indented lines)

def maxOffset (totalRows height : ℕ) : ℕ := if height < totalRows then totalRows - height else 0

/-- `viewport_top` and `viewport_bottom`. -/
def viewport (totalRows height scrollOffset : ℕ) : ℕ × ℕ :=
  let offset :=
    if maxOffset totalRows height < scrollOffset then maxOffset totalRows height else scrollOffset
  let bottom := totalRows - offset
  (if height < bottom then bottom - height else 0, bottom)

/-- The rows that `totalRowsFor` counts for a segment. -/
def segRows (avail : ℕ) (seg : Bytes) : ℕ :=
  let segCols := gwidth seg
  if segCols = 0 then 1 else (segCols + avail - 1) / avail

/-- The rows that it counts for a line. -/
def rowsNeeded (width : ℕ) (line : HistoryLine) : ℕ :=
  let avail := availCols width (gwidth (prefixFor line))
  let rows := ((line.text.splitOn 0x0A).map (segRows gwidth avail)).sum
  let rows := if rows = 0 then 1 else rows
  if 32 < rows then 32 else rows

def totalFrom (width : ℕ) : Option Role → List HistoryLine → ℕ
  | _, [] => 0
  | prev, line :: lines =>
    (if line.role = .user then 2 else if shouldGapBefore prev line.role then 1 else 0) +
      rowsNeeded gwidth width line + totalFrom width (some line.role) lines

def totalRowsFor (lines : List HistoryLine) (width : ℕ) : ℕ :=
  if width = 0 then 0 else totalFrom gwidth width none lines

/-! ## The rows of a line -/

/-- The columns of the codepoints. -/
def widths (bytes : Bytes) : List ℕ := (codepoints bytes).map gwidth

/-- A text of whole codepoints, none of them too wide. -/
inductive Tiled (avail : ℕ) : Bytes → Prop
  | nil : Tiled avail []
  | step {b : UInt8} {rest : Bytes} : Fits gwidth avail (b :: rest) →
      Tiled avail ((b :: rest).drop (seqLen b)) → Tiled avail (b :: rest)

variable {gwidth} {avail : ℕ} {rest : Bytes}

theorem widths_cons (b : UInt8) (rest : Bytes) :
    widths gwidth (b :: rest) =
      gwidth ((b :: rest).take (seqLen b)) :: widths gwidth ((b :: rest).drop (seqLen b)) := by
  rw [widths, codepoints_cons, List.map_cons, widths]

theorem Tiled.widths_le (h : Tiled gwidth avail rest) : ∀ w ∈ widths gwidth rest, w ≤ avail := by
  induction h with
  | nil => exact fun w hw => nomatch hw
  | step hfits _ ih =>
    rw [widths_cons]
    exact List.forall_mem_cons.mpr ⟨((fits_cons gwidth).mp hfits).2, ih⟩

/-- The loop takes what goes into the bin. -/
theorem takeColsLoop_begun {fuel : ℕ} (i : ℕ) {cols : ℕ} (h : Tiled gwidth avail rest)
    (hfuel : rest.length ≤ fuel) (hcols : cols ≤ avail) :
    ∃ n ≤ rest.length, (takeColsLoop gwidth avail fuel rest (i, cols)).1 = i + n ∧
      Tiled gwidth avail (rest.drop n) ∧ (rest ≠ [] → cols = 0 → 0 < n) ∧
      NextFit.begun avail cols (widths gwidth rest) =
        if rest.drop n = [] then 0
        else NextFit.begun avail 0 (widths gwidth (rest.drop n)) + 1 := by
  induction h generalizing fuel i cols with
  | nil =>
    refine ⟨0, le_refl 0, ?_, .nil, fun h => absurd rfl h, rfl⟩
    cases fuel <;> rfl
  | @step b rest hfits htiled ih =>
    obtain ⟨hwhole, hwide⟩ := (fits_cons gwidth).mp hfits
    obtain ⟨fuel, rfl⟩ : ∃ n, fuel = n + 1 := ⟨fuel - 1, by rw [List.length_cons] at hfuel; omega⟩
    rw [takeColsLoop, if_neg (Nat.not_lt.mpr hwhole), widths_cons, NextFit.begun]
    dsimp only
    split_ifs with hfull
    · -- the codepoint goes into the next row, where it is the first
      refine ⟨0, Nat.zero_le _, rfl, .step hfits htiled, fun _ hzero => by omega, ?_⟩
      rw [List.drop_zero, if_neg (List.cons_ne_nil b rest), widths_cons, NextFit.begun,
        Nat.zero_add, if_neg (Nat.not_lt.mpr hwide)]
    · have hlt := length_drop_seqLen_lt b rest
      obtain ⟨n, hn, htake, htiled', -, hbegun⟩ :=
        @ih fuel (i + seqLen b) _ (by omega) (Nat.not_lt.mp hfull)
      rw [List.length_drop] at hn
      rw [List.drop_drop] at htiled' hbegun
      refine ⟨seqLen b + n, by omega, ?_, htiled', fun _ _ => ?_, hbegun⟩
      · rw [htake, Nat.add_assoc]
      · have hpos := seqLen_pos b
        omega

/-- **The rows of a segment are those of next fit**, as far as there is room. -/
theorem length_wrapSegment (havail : 0 < avail) {room start : ℕ} (h : Tiled gwidth avail rest)
    (hne : rest ≠ []) :
    (wrapSegment gwidth avail room start rest).length =
      min room (NextFit.begun avail 0 (widths gwidth rest) + 1) := by
  induction room generalizing start rest with
  | zero => exact (Nat.zero_min _).symm
  | succ room ih =>
    obtain ⟨n, hn, htake, htiled, hpos, hbegun⟩ :=
      takeColsLoop_begun 0 h (le_refl rest.length) (Nat.zero_le avail)
    have hpos := hpos hne rfl
    have hrow : rowTake gwidth avail rest = n := by
      rw [Nat.zero_add] at htake
      rw [rowTake, takeCols, if_neg (Nat.ne_of_gt havail), htake, if_neg (Nat.ne_of_gt hpos)]
    rw [wrapSegment, if_neg hne]
    dsimp only
    rw [hrow, if_neg (Nat.ne_of_gt hpos), List.length_cons, hbegun]
    by_cases hdone : rest.drop n = []
    · rw [if_pos hdone, hdone]
      have hnil : wrapSegment gwidth avail room (start + n) [] = [] := by cases room <;> rfl
      rw [hnil, List.length_nil]
      omega
    · rw [if_neg hdone, ih htiled hdone]
      omega

theorem length_segmentRows (havail : 0 < avail) {room start : ℕ} (h : Tiled gwidth avail rest)
    (hroom : 0 < room) :
    (segmentRows gwidth avail room start rest).length =
      min room (NextFit.begun avail 0 (widths gwidth rest) + 1) := by
  rw [segmentRows]
  by_cases hempty : rest.length = 0
  · rw [if_pos hempty, List.eq_nil_of_length_eq_zero hempty]
    exact (Nat.min_eq_right hroom).symm
  · rw [if_neg hempty]
    exact length_wrapSegment havail h (List.ne_nil_of_length_pos (Nat.pos_of_ne_zero hempty))

/-- The rows that next fit makes of some segments. -/
def fitRows (gwidth : Bytes → ℕ) (avail : ℕ) (segments : List Bytes) : ℕ :=
  (segments.map fun seg => NextFit.begun avail 0 (widths gwidth seg) + 1).sum

theorem length_wrapSegments (havail : 0 < avail) {segments : List Bytes} (room start : ℕ)
    (h : ∀ seg ∈ segments, Tiled gwidth avail seg) :
    (wrapSegments gwidth avail room start segments).length =
      min room (fitRows gwidth avail segments) := by
  induction segments generalizing room start with
  | nil => exact (Nat.min_zero room).symm
  | cons segment segments ih =>
    obtain ⟨hseg, hsegs⟩ := List.forall_mem_cons.mp h
    rw [wrapSegments]
    by_cases hroom : room = 0
    · rw [if_pos hroom, hroom, Nat.zero_min]
      rfl
    · rw [if_neg hroom]
      dsimp only
      rw [List.length_append, ih _ _ hsegs, fitRows, fitRows, List.map_cons, List.sum_cons,
        length_segmentRows havail hseg (Nat.pos_of_ne_zero hroom)]
      omega

/-- A text has a segment, so that a sum over its segments has a term. -/
theorem sum_map_splitOn_pos {f : Bytes → ℕ} (hf : ∀ seg, 0 < f seg) (text : Bytes) :
    0 < ((text.splitOn 0x0A).map f).sum := by
  obtain ⟨segment, segments, hsplit⟩ :=
    List.exists_cons_of_ne_nil (List.splitOn_ne_nil (0x0A : UInt8) text)
  rw [hsplit, List.map_cons, List.sum_cons]
  exact Nat.add_pos_left (hf segment) _

theorem fitRows_pos (gwidth : Bytes → ℕ) (avail : ℕ) (text : Bytes) :
    0 < fitRows gwidth avail (text.splitOn 0x0A) :=
  sum_map_splitOn_pos (fun _ => Nat.succ_pos _) text

/-- **The rows of a line.** -/
theorem length_wrapLineInto {text : Bytes} {width prefixCols : ℕ}
    (h : ∀ seg ∈ text.splitOn 0x0A, Tiled gwidth (availCols width prefixCols) seg) :
    (wrapLineInto gwidth text width prefixCols).length =
      min 32 (fitRows gwidth (availCols width prefixCols) (text.splitOn 0x0A)) := by
  have hpos := fitRows_pos gwidth (availCols width prefixCols) text
  have hlength := length_wrapSegments (availCols_pos width prefixCols) maxRowsPerLine 0 h
  rw [maxRowsPerLine] at hlength
  rw [wrapLineInto, maxRowsPerLine, if_neg (by omega), hlength]

/-! ## The count -/

/-- The columns that the draw pass leaves for the text, and those that the count leaves: it does
not know the pill. -/
def drawAvail (gwidth : Bytes → ℕ) (width : ℕ) (p : HistoryLine × ℕ) : ℕ :=
  availCols width (p.2 + gwidth (prefixFor p.1))

def countAvail (gwidth : Bytes → ℕ) (width : ℕ) (line : HistoryLine) : ℕ :=
  availCols width (gwidth (prefixFor line))

theorem drawAvail_le (gwidth : Bytes → ℕ) (width : ℕ) (p : HistoryLine × ℕ) :
    drawAvail gwidth width p ≤ countAvail gwidth width p.1 := by
  unfold drawAvail countAvail availCols
  split_ifs <;> omega

/-- A line that is drawn, of whole characters that have room, each segment as wide as they are. -/
structure Plain (gwidth : Bytes → ℕ) (width : ℕ) (p : HistoryLine × ℕ) : Prop where
  shown : gateClosed width p.1 = false
  tiled : ∀ seg ∈ p.1.text.splitOn 0x0A, Tiled gwidth (drawAvail gwidth width p) seg
  additive : ∀ seg ∈ p.1.text.splitOn 0x0A, gwidth seg = colsOf gwidth seg

/-- The rows that the columns of some segments need, if they could be cut anywhere. -/
def shareRows (gwidth : Bytes → ℕ) (avail : ℕ) (segments : List Bytes) : ℕ :=
  (segments.map fun seg => NextFit.share avail (colsOf gwidth seg)).sum

/-- The columns that the rows of a segment lose at their ends, to a character that has no room there
or to the pill, are less than the last row has; or the count is cut off before that matters. -/
def LosesLittle (gwidth : Bytes → ℕ) (width : ℕ) (p : HistoryLine × ℕ) : Prop :=
  32 ≤ shareRows gwidth (countAvail gwidth width p.1) (p.1.text.splitOn 0x0A) ∨
    ∀ seg ∈ p.1.text.splitOn 0x0A,
      let lost := NextFit.lost (drawAvail gwidth width p) (countAvail gwidth width p.1) 0
        (widths gwidth seg)
      lost = 0 ∨ lost < NextFit.last (drawAvail gwidth width p) 0 (widths gwidth seg)

/-- Sums of terms of which none is above its partner are equal if all the terms are. -/
theorem sum_map_le_and_eq_iff {α : Type*} {f g : α → ℕ} {l : List α} (h : ∀ a ∈ l, f a ≤ g a) :
    (l.map f).sum ≤ (l.map g).sum ∧ ((l.map f).sum = (l.map g).sum ↔ ∀ a ∈ l, f a = g a) := by
  induction l with
  | nil => simp
  | cons a l ih =>
    obtain ⟨ha, hl⟩ := List.forall_mem_cons.mp h
    obtain ⟨hle, hiff⟩ := ih hl
    rw [List.map_cons, List.map_cons, List.sum_cons, List.sum_cons, List.forall_mem_cons, ← hiff]
    omega

/-- Next fit makes no fewer rows than the columns need, and as many if little is lost. -/
theorem shareRows_le {width : ℕ} {p : HistoryLine × ℕ} (h : Plain gwidth width p) :
    shareRows gwidth (countAvail gwidth width p.1) (p.1.text.splitOn 0x0A) ≤
        fitRows gwidth (drawAvail gwidth width p) (p.1.text.splitOn 0x0A) ∧
      (LosesLittle gwidth width p ↔
        32 ≤ shareRows gwidth (countAvail gwidth width p.1) (p.1.text.splitOn 0x0A) ∨
          shareRows gwidth (countAvail gwidth width p.1) (p.1.text.splitOn 0x0A) =
            fitRows gwidth (drawAvail gwidth width p) (p.1.text.splitOn 0x0A)) := by
  have hpos : 0 < drawAvail gwidth width p := availCols_pos _ _
  have hle := drawAvail_le gwidth width p
  obtain ⟨hsum, hiff⟩ := sum_map_le_and_eq_iff
    (f := fun seg => NextFit.share (countAvail gwidth width p.1) (colsOf gwidth seg))
    fun seg hseg => NextFit.share_le hpos hle (h.tiled seg hseg).widths_le
  refine ⟨hsum, or_congr_right ?_⟩
  refine Iff.trans (forall₂_congr fun seg hseg => ?_) hiff.symm
  exact (NextFit.share_eq_iff hpos hle (h.tiled seg hseg).widths_le).symm

theorem shareRows_pos (gwidth : Bytes → ℕ) (avail : ℕ) (havail : 0 < avail) (text : Bytes) :
    0 < shareRows gwidth avail (text.splitOn 0x0A) :=
  sum_map_splitOn_pos (fun _ => NextFit.share_pos havail) text

/-- What is counted for a line. -/
theorem rowsNeeded_eq {width : ℕ} {line : HistoryLine}
    (h : ∀ seg ∈ line.text.splitOn 0x0A, gwidth seg = colsOf gwidth seg) :
    rowsNeeded gwidth width line =
      min 32 (shareRows gwidth (countAvail gwidth width line) (line.text.splitOn 0x0A)) := by
  have hshare : (line.text.splitOn 0x0A).map (segRows gwidth (countAvail gwidth width line)) =
      (line.text.splitOn 0x0A).map fun seg =>
        NextFit.share (countAvail gwidth width line) (colsOf gwidth seg) := by
    refine List.map_congr_left fun seg hseg => ?_
    rw [← h seg hseg]
    rfl
  have hpos := shareRows_pos gwidth (countAvail gwidth width line) (availCols_pos _ _) line.text
  rw [rowsNeeded, ← countAvail, hshare, ← shareRows, if_neg (Nat.ne_of_gt hpos)]
  split_ifs <;> omega

/-- **The count of a line** is never above its rows, and right exactly if it loses little. -/
theorem rowsNeeded_le {width : ℕ} {p : HistoryLine × ℕ} (h : Plain gwidth width p) :
    rowsNeeded gwidth width p.1 ≤
        (wrapLineInto gwidth p.1.text width (p.2 + gwidth (prefixFor p.1))).length ∧
      (rowsNeeded gwidth width p.1 =
          (wrapLineInto gwidth p.1.text width (p.2 + gwidth (prefixFor p.1))).length ↔
        LosesLittle gwidth width p) := by
  obtain ⟨hle, hlittle⟩ := shareRows_le h
  have hfit : (wrapLineInto gwidth p.1.text width (p.2 + gwidth (prefixFor p.1))).length =
      min 32 (fitRows gwidth (drawAvail gwidth width p) (p.1.text.splitOn 0x0A)) :=
    length_wrapLineInto h.tiled
  rw [rowsNeeded_eq h.additive, hfit, hlittle]
  omega

/-! ## The count of a list -/

theorem length_indentPillCols (carry : ℕ) (lines : List HistoryLine) :
    (indentPillCols carry lines).length = lines.length := by
  induction lines generalizing carry with
  | nil => rfl
  | cons line lines ih =>
    rw [indentPillCols]
    split_ifs <;> rw [List.length_cons, List.length_cons, ih]

theorem map_fst_indented (lines : List HistoryLine) : (indented lines).map Prod.fst = lines :=
  List.map_fst_zip (Nat.le_of_eq (length_indentPillCols 0 lines).symm)

/-- Both passes give a line the same rows around its text. -/
theorem length_leadRows_add (prev : Option Role) (idx : ℕ) (line : HistoryLine) :
    (leadRows prev idx line).length + (trailRows idx line).length =
      if line.role = .user then 2 else if shouldGapBefore prev line.role then 1 else 0 := by
  rw [leadRows, trailRows]
  split_ifs <;> rfl

theorem totalFrom_le {width : ℕ} (idx : ℕ) (prev : Option Role) {ps : List (HistoryLine × ℕ)}
    (h : ∀ p ∈ ps, Plain gwidth width p) :
    totalFrom gwidth width prev (ps.map Prod.fst) ≤ (layoutFrom gwidth width idx prev ps).length ∧
      (totalFrom gwidth width prev (ps.map Prod.fst) =
          (layoutFrom gwidth width idx prev ps).length ↔
        ∀ p ∈ ps, LosesLittle gwidth width p) := by
  induction ps generalizing idx prev with
  | nil => exact ⟨Nat.zero_le _, iff_of_true rfl fun p hp => nomatch hp⟩
  | cons p ps ih =>
    obtain ⟨hp, hps⟩ := List.forall_mem_cons.mp h
    obtain ⟨hle, hiff⟩ := ih (idx + 1) (some p.1.role) hps
    obtain ⟨hneeded, hlittle⟩ := rowsNeeded_le hp
    have haround := length_leadRows_add prev idx p.1
    have hshown : ¬ gateClosed width p.1 = true := Bool.eq_false_iff.mp hp.shown
    rw [List.map_cons, totalFrom, layoutFrom, if_neg hshown, List.length_append,
      List.length_append, List.length_append, contentRows, List.length_map, List.length_zipIdx,
      List.forall_mem_cons, ← hlittle, ← hiff, ← haround]
    omega

/-- The count is that of the draw pass, and so the highest offset that is computed of it shows the
first row and is not cut back. -/
structure Agrees (gwidth : Bytes → ℕ) (lines : List HistoryLine) (width : ℕ) : Prop where
  rows : totalRowsFor gwidth lines width = (layoutRows gwidth lines width).length
  reaches : ∀ height, (viewport (layoutRows gwidth lines width).length height
    (maxOffset (totalRowsFor gwidth lines width) height)).1 = 0
  within : ∀ height, maxOffset (totalRowsFor gwidth lines width) height ≤
    maxOffset (layoutRows gwidth lines width).length height

/-- The highest offset shows the first row. -/
theorem viewport_maxOffset (totalRows height : ℕ) :
    (viewport totalRows height (maxOffset totalRows height)).1 = 0 := by
  simp only [viewport, maxOffset]
  split_ifs <;> omega

theorem agrees_of_eq {lines : List HistoryLine} {width : ℕ}
    (h : totalRowsFor gwidth lines width = (layoutRows gwidth lines width).length) :
    Agrees gwidth lines width := by
  refine ⟨h, fun height => ?_, fun height => ?_⟩
  · rw [h]
    exact viewport_maxOffset _ _
  · rw [h]

/-- A line of an agent, as the tests build it. -/
def agentLine (speaker text : String) : HistoryLine :=
  { role := .agent, text := ascii text, speaker := some (ascii speaker) }

end History
end Tui
end TigerClaw
