import TigerClaw.Basic
import Mathlib.Algebra.Ring.Nat
import Mathlib.Data.List.Range
import Mathlib.Data.Nat.Basic

/-!
# Wrapping a line of the history

`wrapLineInto` of `src/tui/widgets/history.zig` cuts a text into rows, at the newlines and where the
columns are used up.  The width of a slice, `gwidth`, is that of the terminal library.

* `takeCols`, `safeUtf8Take`, `wrapLineInto`: the code.
* `covered`, `kept`: the positions that the rows cover, and those that hold no newline.
* `Flows`: from the front of a text to its end, without coming to a codepoint that is not taken.
* `covered_wrapLineInto_iff`: nothing is lost exactly if every line flows.
-/

namespace TigerClaw
namespace Tui
namespace History

/-- `WrapCache.Row`. -/
structure Row where
  bytesOffset : ℕ
  bytesLen : ℕ
  deriving DecidableEq

def maxRowsPerLine : ℕ := 32

/-- The length of a sequence, by its first byte. -/
def seqLen (b : UInt8) : ℕ :=
  if b < 0x80 then 1
  else if b &&& 0xE0 = 0xC0 then 2
  else if b &&& 0xF0 = 0xE0 then 3
  else if b &&& 0xF8 = 0xF0 then 4
  else 1

theorem seqLen_pos (b : UInt8) : 0 < seqLen b := by
  unfold seqLen
  split_ifs <;> decide

/-- A byte that goes on with a sequence. -/
def isContinuation (b : UInt8) : Bool := b &&& 0xC0 = 0x80

/-- `while (n > 0 and ...) : (n -= 1) {}`. -/
def backUp (bytes : Bytes) : ℕ → ℕ
  | 0 => 0
  | n + 1 => if bytes[n + 1]?.any isContinuation then backUp bytes n else n + 1

def safeUtf8Take (bytes : Bytes) (max : ℕ) : ℕ :=
  if bytes.length ≤ max then bytes.length else backUp bytes max

variable (gwidth : Bytes → ℕ)

/-- `while (i < bytes.len)`: the bytes and the columns that are taken, in front of what is left.
Every round takes a byte at least, so that the fuel is enough. -/
def takeColsLoop (maxCols : ℕ) : ℕ → Bytes → ℕ × ℕ → ℕ × ℕ
  | 0, _, taken => taken
  | _ + 1, [], taken => taken
  | fuel + 1, b :: rest, (i, cols) =>
    if (b :: rest).length < seqLen b then (i, cols)
    else
      let w := gwidth ((b :: rest).take (seqLen b))
      if maxCols < cols + w then (i, cols)
      else takeColsLoop maxCols fuel ((b :: rest).drop (seqLen b)) (i + seqLen b, cols + w)

def takeCols (bytes : Bytes) (maxCols : ℕ) : ℕ × ℕ :=
  if maxCols = 0 then (0, 0) else takeColsLoop gwidth maxCols bytes.length bytes (0, 0)

/-- How much of a segment the next row takes. -/
def rowTake (avail : ℕ) (rest : Bytes) : ℕ :=
  let taken := takeCols gwidth rest avail
  if taken.1 = 0 then safeUtf8Take rest 1 else taken.1

/-- The rows of a segment, as many as there is room for. -/
def wrapSegment (avail : ℕ) : ℕ → ℕ → Bytes → List Row
  | 0, _, _ => []
  | room + 1, start, rest =>
    if rest = [] then []
    else
      let take := rowTake gwidth avail rest
      if take = 0 then []
      else
        { bytesOffset := start, bytesLen := take } ::
          wrapSegment avail room (start + take) (rest.drop take)

/-- The rows of a segment; one for an empty one. -/
def segmentRows (avail room segStart : ℕ) (segment : Bytes) : List Row :=
  if segment.length = 0 then [{ bytesOffset := segStart, bytesLen := 0 }]
  else wrapSegment gwidth avail room segStart segment

/-- The rows of the segments that are left. -/
def wrapSegments (avail : ℕ) : ℕ → ℕ → List Bytes → List Row
  | _, _, [] => []
  | room, segStart, segment :: segments =>
    if room = 0 then []
    else
      let rows := segmentRows gwidth avail room segStart segment
      rows ++ wrapSegments avail (room - rows.length) (segStart + segment.length + 1) segments

/-- The columns that the prefix leaves. -/
def availCols (width prefixCols : ℕ) : ℕ := if prefixCols < width then width - prefixCols else 1

def wrapLineInto (text : Bytes) (width prefixCols : ℕ) : List Row :=
  let rows := wrapSegments gwidth (availCols width prefixCols) maxRowsPerLine 0 (text.splitOn 0x0A)
  if rows.length = 0 then [{ bytesOffset := 0, bytesLen := 0 }] else rows

theorem availCols_pos (width prefixCols : ℕ) : 0 < availCols width prefixCols := by
  unfold availCols
  split <;> omega

/-! ## Codepoints -/

/-- The sequences of a text, each as long as its first byte says or as there are bytes left. -/
def codepointsLoop : ℕ → Bytes → List Bytes
  | 0, _ => []
  | _ + 1, [] => []
  | fuel + 1, b :: rest =>
    (b :: rest).take (seqLen b) :: codepointsLoop fuel ((b :: rest).drop (seqLen b))

def codepoints (bytes : Bytes) : List Bytes := codepointsLoop bytes.length bytes

/-- The columns of a slice, codepoint by codepoint. -/
def colsOf (bytes : Bytes) : ℕ := ((codepoints bytes).map gwidth).sum

theorem length_drop_seqLen_lt (b : UInt8) (rest : Bytes) :
    ((b :: rest).drop (seqLen b)).length < (b :: rest).length := by
  have hpos := seqLen_pos b
  rw [List.length_drop, List.length_cons]
  omega

theorem codepointsLoop_eq {fuel fuel' : ℕ} {bytes : Bytes} (h : bytes.length ≤ fuel)
    (h' : bytes.length ≤ fuel') : codepointsLoop fuel bytes = codepointsLoop fuel' bytes := by
  induction fuel generalizing fuel' bytes with
  | zero =>
    obtain rfl := List.eq_nil_of_length_eq_zero (Nat.le_zero.mp h)
    cases fuel' <;> rfl
  | succ fuel ih =>
    cases bytes with
    | nil => cases fuel' <;> rfl
    | cons b rest =>
      obtain ⟨fuel', rfl⟩ : ∃ n, fuel' = n + 1 := ⟨fuel' - 1, by rw [List.length_cons] at h'; omega⟩
      have hlt := length_drop_seqLen_lt b rest
      rw [codepointsLoop, codepointsLoop,
        @ih fuel' ((b :: rest).drop (seqLen b)) (by omega) (by omega)]

@[simp] theorem codepoints_nil : codepoints [] = [] := rfl

theorem codepoints_cons (b : UInt8) (rest : Bytes) :
    codepoints (b :: rest) =
      (b :: rest).take (seqLen b) :: codepoints ((b :: rest).drop (seqLen b)) := by
  have hlt := length_drop_seqLen_lt b rest
  have hfuel : ((b :: rest).drop (seqLen b)).length ≤ rest.length := by
    rw [List.length_cons] at hlt
    omega
  rw [codepoints, codepoints, List.length_cons, codepointsLoop,
    codepointsLoop_eq hfuel (le_refl _)]

/-- A slice that takes the first codepoint has the columns of it and of what it takes behind it. -/
theorem colsOf_take {b : UInt8} {rest : Bytes} (n : ℕ) :
    colsOf gwidth ((b :: rest).take (seqLen b + n)) =
      gwidth ((b :: rest).take (seqLen b)) +
        colsOf gwidth (((b :: rest).drop (seqLen b)).take n) := by
  obtain ⟨k, hk⟩ : ∃ k, seqLen b + n = k + 1 := ⟨seqLen b + n - 1, by have := seqLen_pos b; omega⟩
  have hcons : (b :: rest).take (seqLen b + n) = b :: rest.take k := by rw [hk, List.take_succ_cons]
  have htake : (b :: rest.take k).take (seqLen b) = (b :: rest).take (seqLen b) := by
    rw [← hcons, List.take_take, Nat.min_eq_left (Nat.le_add_right _ _)]
  have hdrop : (b :: rest.take k).drop (seqLen b) = ((b :: rest).drop (seqLen b)).take n := by
    rw [← hcons, List.drop_take, Nat.add_sub_cancel_left]
  rw [colsOf, hcons, codepoints_cons, List.map_cons, List.sum_cons, htake, hdrop, colsOf]

/-- The first codepoint is whole, and not wider than the columns. -/
def Fits (avail : ℕ) (rest : Bytes) : Prop :=
  ∃ b ∈ rest.head?, seqLen b ≤ rest.length ∧ gwidth (rest.take (seqLen b)) ≤ avail

theorem fits_cons {avail : ℕ} {b : UInt8} {rest : Bytes} :
    Fits gwidth avail (b :: rest) ↔
      seqLen b ≤ (b :: rest).length ∧ gwidth ((b :: rest).take (seqLen b)) ≤ avail := by
  simp [Fits]

instance (avail : ℕ) (rest : Bytes) : Decidable (Fits gwidth avail rest) :=
  match rest with
  | [] => isFalse fun ⟨_, hb, _⟩ => nomatch hb
  | _ :: _ => decidable_of_iff _ (fits_cons gwidth).symm

/-- The first codepoint is cut off or too wide, and its first byte is not taken alone. -/
def Blocked (avail : ℕ) (rest : Bytes) : Prop :=
  ¬ Fits gwidth avail rest ∧ rest[1]?.any isContinuation = true

/-- A codepoint, or the first byte of one that does not fit. -/
def stride (avail : ℕ) (rest : Bytes) : ℕ :=
  if Fits gwidth avail rest then (rest.head?.map seqLen).getD 0 else 1

/-- One comes to the end from the front, without being blocked. -/
inductive Flows (avail : ℕ) : Bytes → Prop
  | nil : Flows avail []
  | step {rest : Bytes} : rest ≠ [] → ¬ Blocked gwidth avail rest →
      Flows avail (rest.drop (stride gwidth avail rest)) → Flows avail rest

variable {gwidth} {avail : ℕ} {rest : Bytes}

/-- The next step is the only one. -/
theorem flows_iff (hne : rest ≠ []) :
    Flows gwidth avail rest ↔
      ¬ Blocked gwidth avail rest ∧ Flows gwidth avail (rest.drop (stride gwidth avail rest)) := by
  constructor
  · intro h
    cases h with
    | nil => exact absurd rfl hne
    | step _ hblocked hflows => exact ⟨hblocked, hflows⟩
  · exact fun h => .step hne h.1 h.2

theorem flows_of_fits {b : UInt8} (h : Fits gwidth avail (b :: rest)) :
    Flows gwidth avail (b :: rest) ↔ Flows gwidth avail ((b :: rest).drop (seqLen b)) := by
  rw [flows_iff (List.cons_ne_nil b rest), stride, if_pos h]
  exact and_iff_right fun hblocked => hblocked.1 h

/-! ## A row -/

variable (gwidth) in
/-- **What the loop takes**: whole codepoints, in as many columns as they have. -/
theorem takeColsLoop_spec {fuel i cols : ℕ} (hfuel : rest.length ≤ fuel) (hcols : cols ≤ avail) :
    ∃ n ≤ rest.length, takeColsLoop gwidth avail fuel rest (i, cols) =
        (i + n, cols + colsOf gwidth (rest.take n)) ∧
      cols + colsOf gwidth (rest.take n) ≤ avail ∧
      (Flows gwidth avail rest ↔ Flows gwidth avail (rest.drop n)) ∧
      (n = 0 → cols = 0 → ¬ Fits gwidth avail rest) := by
  induction fuel generalizing rest i cols with
  | zero =>
    obtain rfl := List.eq_nil_of_length_eq_zero (Nat.le_zero.mp hfuel)
    refine ⟨0, le_refl 0, rfl, hcols, Iff.rfl, ?_⟩
    rintro - - ⟨b, hb, -⟩
    cases hb
  | succ fuel ih =>
    cases rest with
    | nil =>
      refine ⟨0, le_refl 0, rfl, hcols, Iff.rfl, ?_⟩
      rintro - - ⟨b, hb, -⟩
      cases hb
    | cons b rest =>
      rw [takeColsLoop]
      dsimp only
      split_ifs with hcut hwide
      · refine ⟨0, Nat.zero_le _, rfl, hcols, Iff.rfl, fun _ _ h => ?_⟩
        exact absurd ((fits_cons gwidth).mp h).1 (Nat.not_le.mpr hcut)
      · refine ⟨0, Nat.zero_le _, rfl, hcols, Iff.rfl, ?_⟩
        rintro - rfl h
        rw [Nat.zero_add] at hwide
        exact absurd ((fits_cons gwidth).mp h).2 (Nat.not_le.mpr hwide)
      · have hlt := length_drop_seqLen_lt b rest
        obtain ⟨n, hn, hloop, havail, hflows, -⟩ :=
          @ih ((b :: rest).drop (seqLen b)) (i := i + seqLen b) _ (by omega) (Nat.not_lt.mp hwide)
        have hfits : Fits gwidth avail (b :: rest) :=
          (fits_cons gwidth).mpr ⟨Nat.not_lt.mp hcut, by omega⟩
        rw [List.length_drop] at hn
        refine ⟨seqLen b + n, by omega, ?_, ?_, ?_, ?_⟩
        · rw [hloop, colsOf_take, Nat.add_assoc, Nat.add_assoc]
        · rw [colsOf_take, ← Nat.add_assoc]
          exact havail
        · rw [flows_of_fits hfits, hflows, List.drop_drop]
        · have hpos := seqLen_pos b
          omega

/-- Of a codepoint that does not fit the loop takes nothing. -/
theorem takeColsLoop_blocked {fuel : ℕ} (h : ¬ Fits gwidth avail rest) :
    takeColsLoop gwidth avail fuel rest (0, 0) = (0, 0) := by
  cases fuel with
  | zero => rfl
  | succ fuel =>
    cases rest with
    | nil => rfl
    | cons b rest =>
      rw [fits_cons, not_and_or, Nat.not_le, Nat.not_le] at h
      rw [takeColsLoop]
      dsimp only
      rcases h with hcut | hwide
      · rw [if_pos hcut]
      · rw [Nat.zero_add, if_pos hwide, ite_self]

/-- A row is not wider than the columns, or it is a single codepoint. -/
def Narrow (gwidth : Bytes → ℕ) (avail : ℕ) (slice : Bytes) : Prop :=
  colsOf gwidth slice ≤ avail ∨ (codepoints slice).length = 1

variable (gwidth) in
/-- **What a row takes**: nothing if it is blocked, and otherwise some steps of the walk. -/
theorem rowTake_spec (havail : 0 < avail) (hne : rest ≠ []) :
    (rowTake gwidth avail rest = 0 ↔ Blocked gwidth avail rest) ∧
      rowTake gwidth avail rest ≤ rest.length ∧
      (¬ Blocked gwidth avail rest →
        (Flows gwidth avail rest ↔ Flows gwidth avail (rest.drop (rowTake gwidth avail rest))) ∧
        Narrow gwidth avail (rest.take (rowTake gwidth avail rest))) := by
  obtain ⟨n, hn, hloop, hcols, hflows, hfits⟩ :=
    takeColsLoop_spec gwidth (i := 0) (le_refl rest.length) (Nat.zero_le avail)
  rw [Nat.zero_add, Nat.zero_add] at hloop
  rw [Nat.zero_add] at hcols
  have htaken : (takeCols gwidth rest avail).1 = n := by
    rw [takeCols, if_neg (Nat.ne_of_gt havail), hloop]
  by_cases hzero : n = 0
  · -- the first codepoint does not fit: its first byte is taken, or nothing
    have hnot := hfits hzero rfl
    have htake : rowTake gwidth avail rest = if rest[1]?.any isContinuation then 0 else 1 := by
      rw [rowTake, if_pos (htaken.trans hzero), safeUtf8Take]
      split
      · rename_i hle
        have hone : rest.length = 1 := Nat.le_antisymm hle (List.length_pos_of_ne_nil hne)
        rw [hone, List.getElem?_eq_none (Nat.le_of_eq hone)]
        rfl
      · rw [backUp, backUp]
    have hblocked : Blocked gwidth avail rest ↔ rest[1]?.any isContinuation = true :=
      and_iff_right hnot
    rw [htake]
    by_cases hcont : rest[1]?.any isContinuation = true
    · rw [if_pos hcont]
      exact ⟨iff_of_true rfl (hblocked.mpr hcont), Nat.zero_le _,
        fun h => absurd (hblocked.mpr hcont) h⟩
    · rw [if_neg hcont]
      refine ⟨iff_of_false Nat.one_ne_zero (hblocked.not.mpr hcont),
        List.length_pos_of_ne_nil hne, fun h => ⟨?_, .inr ?_⟩⟩
      · rw [flows_iff hne, stride, if_neg hnot]
        exact and_iff_right h
      · obtain ⟨b, rest, rfl⟩ := List.exists_cons_of_ne_nil hne
        rw [List.take_succ_cons, List.take_zero, codepoints_cons, List.drop_eq_nil_of_le,
          codepoints_nil]
        · rfl
        · exact seqLen_pos b
  · have htake : rowTake gwidth avail rest = n := by
      rw [rowTake, if_neg (htaken ▸ hzero), htaken]
    rw [htake]
    have hnot : ¬ Blocked gwidth avail rest := by
      intro hblocked
      -- what is taken is whole codepoints, the first of them with the rest
      rw [takeColsLoop_blocked hblocked.1] at hloop
      exact hzero (Prod.mk.inj hloop).1.symm
    exact ⟨iff_of_false hzero hnot, hn, fun _ => ⟨hflows, .inl hcols⟩⟩

/-! ## The rows -/

/-- The positions that some rows cover, in their order. -/
def covered (rows : List Row) : List ℕ :=
  rows.flatMap fun row => List.range' row.bytesOffset row.bytesLen

/-- The bytes of a row. -/
def Row.slice (row : Row) (text : Bytes) : Bytes :=
  (text.drop row.bytesOffset).take row.bytesLen

theorem wrapSegment_spec (havail : 0 < avail) {text : Bytes} {room start : ℕ}
    (hpre : rest <+: text.drop start) :
    (∃ n ≤ rest.length,
      covered (wrapSegment gwidth avail room start rest) = List.range' start n ∧
      ((wrapSegment gwidth avail room start rest).length < room →
        (n = rest.length ↔ Flows gwidth avail rest))) ∧
    ∀ row ∈ wrapSegment gwidth avail room start rest,
      Narrow gwidth avail (row.slice text) := by
  induction room generalizing start rest with
  | zero =>
    exact ⟨⟨0, Nat.zero_le _, rfl, fun h => absurd h (Nat.not_lt_zero _)⟩, fun row h => nomatch h⟩
  | succ room ih =>
    rw [wrapSegment]
    by_cases hne : rest = []
    · rw [if_pos hne, hne]
      exact ⟨⟨0, le_refl 0, rfl, fun _ => iff_of_true rfl .nil⟩, fun row h => nomatch h⟩
    rw [if_neg hne]
    dsimp only
    obtain ⟨hzero, hle, hrow⟩ := rowTake_spec gwidth havail hne
    generalize rowTake gwidth avail rest = take at hzero hle hrow ⊢
    by_cases hstop : take = 0
    · rw [if_pos hstop]
      refine ⟨⟨0, Nat.zero_le _, rfl, fun _ => iff_of_false ?_ ?_⟩, fun row h => nomatch h⟩
      · exact (List.length_pos_of_ne_nil hne).ne
      · exact fun hflows => ((flows_iff hne).mp hflows).1 (hzero.mp hstop)
    · rw [if_neg hstop]
      obtain ⟨hflows, hnarrow⟩ := hrow (hzero.not.mp hstop)
      obtain ⟨more, hmore⟩ := hpre
      have hdrop : rest.drop take <+: text.drop (start + take) := by
        rw [← List.drop_drop, ← hmore, List.drop_append_of_le_length hle]
        exact List.prefix_append _ more
      obtain ⟨⟨n, hn, hcovered, hroom⟩, hrows⟩ := ih hdrop
      rw [List.length_drop] at hn
      refine ⟨⟨take + n, by omega, ?_, fun hlt => ?_⟩, fun row hmem => ?_⟩
      · rw [covered, List.flatMap_cons, ← covered, hcovered, List.range'_append_1]
      · rw [hflows, ← hroom (by rw [List.length_cons] at hlt; omega), List.length_drop]
        omega
      · rcases List.mem_cons.mp hmem with rfl | hmem
        · have hslice : Row.slice { bytesOffset := start, bytesLen := take } text =
              rest.take take := by
            rw [Row.slice, ← hmore, List.take_append_of_le_length hle]
          rw [hslice]
          exact hnarrow
        · exact hrows row hmem

theorem segmentRows_spec (gwidth : Bytes → ℕ) (havail : 0 < avail) {text segment : Bytes}
    (room : ℕ) {start : ℕ} (hpre : segment <+: text.drop start) :
    (∃ n ≤ segment.length,
      covered (segmentRows gwidth avail room start segment) = List.range' start n ∧
      ((segmentRows gwidth avail room start segment).length < room →
        (n = segment.length ↔ Flows gwidth avail segment))) ∧
    ∀ row ∈ segmentRows gwidth avail room start segment, Narrow gwidth avail (row.slice text) := by
  rw [segmentRows]
  by_cases hempty : segment.length = 0
  · rw [if_pos hempty, List.eq_nil_of_length_eq_zero hempty]
    refine ⟨⟨0, le_refl 0, rfl, fun _ => iff_of_true rfl .nil⟩, fun row hrow => ?_⟩
    rw [List.mem_singleton.mp hrow]
    exact .inl (Nat.zero_le _)
  · rw [if_neg hempty]
    exact wrapSegment_spec havail hpre

/-- The positions of some segments, with one between each two of them. -/
def keptFrom : ℕ → List Bytes → List ℕ
  | _, [] => []
  | start, segment :: segments =>
    List.range' start segment.length ++ keptFrom (start + segment.length + 1) segments

/-- The positions that hold no newline. -/
def kept (text : Bytes) : List ℕ := (text.zipIdx.filter fun p => p.1 ≠ 0x0A).map Prod.snd

theorem keptFrom_splitOn (start : ℕ) (text : Bytes) :
    keptFrom start (text.splitOn 0x0A) =
      ((text.zipIdx start).filter fun p => p.1 ≠ 0x0A).map Prod.snd := by
  induction text generalizing start with
  | nil => rfl
  | cons b text ih =>
    rw [List.splitOn_cons_eq_if_modifyHead, List.zipIdx_cons]
    by_cases hb : b = 0x0A
    · rw [if_pos (by simp [hb]), List.filter_cons_of_neg (by simp [hb]), ← ih]
      rfl
    · rw [if_neg (by simp [hb]), List.filter_cons_of_pos (by simp [hb]), List.map_cons, ← ih]
      obtain ⟨segment, segments, hsplit⟩ :=
        List.exists_cons_of_ne_nil (List.splitOn_ne_nil (0x0A : UInt8) text)
      rw [hsplit, List.modifyHead_cons, keptFrom, keptFrom, List.length_cons, List.range'_succ,
        List.cons_append, show start + (segment.length + 1) + 1 = start + 1 + segment.length + 1 by
          omega]

theorem wrapSegments_spec (gwidth : Bytes → ℕ) (havail : 0 < avail) {text : Bytes}
    {segments : List Bytes} (room : ℕ) {start : ℕ}
    (htext : segments ≠ [] → text.drop start = [0x0A].intercalate segments) :
    (covered (wrapSegments gwidth avail room start segments)).length ≤
        (keptFrom start segments).length ∧
      ((wrapSegments gwidth avail room start segments).length < room →
        (covered (wrapSegments gwidth avail room start segments) = keptFrom start segments ↔
          ∀ segment ∈ segments, Flows gwidth avail segment)) ∧
      ∀ row ∈ wrapSegments gwidth avail room start segments,
        Narrow gwidth avail (row.slice text) := by
  induction segments generalizing room start with
  | nil => exact ⟨Nat.zero_le _, fun _ => iff_of_true rfl (by simp), fun row h => nomatch h⟩
  | cons segment segments ih =>
    rw [wrapSegments]
    by_cases hroom : room = 0
    · rw [if_pos hroom]
      exact ⟨Nat.zero_le _, fun h => absurd h (by omega), fun row h => nomatch h⟩
    rw [if_neg hroom]
    dsimp only
    have hdrop := htext (List.cons_ne_nil segment segments)
    have hpre : segment <+: text.drop start := by
      rw [hdrop]
      cases segments with
      | nil => exact ⟨[], by rw [List.append_nil, List.intercalate_singleton]⟩
      | cons next segments =>
        rw [List.intercalate_cons_cons, List.append_assoc]
        exact List.prefix_append segment _
    have hnext : segments ≠ [] →
        text.drop (start + segment.length + 1) = [0x0A].intercalate segments := by
      intro hne
      rw [Nat.add_assoc, ← List.drop_drop, hdrop, List.intercalate_cons_of_ne_nil hne,
        List.append_assoc, List.drop_append]
      simp
    obtain ⟨⟨n, hn, hcovered, hflows⟩, hrows⟩ :=
      segmentRows_spec gwidth havail room hpre
    obtain ⟨hlength, hall, hrows'⟩ :=
      ih (room - (segmentRows gwidth avail room start segment).length) hnext
    rw [keptFrom, covered, List.flatMap_append, ← covered, ← covered, hcovered]
    refine ⟨?_, fun hlt => ?_, fun row hrow => ?_⟩
    · rw [List.length_append, List.length_append, List.length_range', List.length_range']
      omega
    · rw [List.length_append] at hlt
      rw [List.forall_mem_cons, ← hflows (by omega), ← hall (by omega)]
      constructor
      · -- neither part covers more than it can, so that both cover all
        intro heq
        have hsum := congrArg List.length heq
        rw [List.length_append, List.length_append, List.length_range', List.length_range'] at hsum
        have hfull : n = segment.length := by omega
        rw [hfull] at heq
        exact ⟨hfull, List.append_cancel_left heq⟩
      · rintro ⟨rfl, heq⟩
        rw [heq]
    · rcases List.mem_append.mp hrow with hrow | hrow
      · exact hrows row hrow
      · exact hrows' row hrow

/-- **Nothing is lost exactly if every line flows.**  Where there are less than 32 rows, they cover
every byte but the newlines, in order, and none is wider than the columns unless it is a single
codepoint. -/
theorem covered_wrapLineInto_iff {text : Bytes} {width prefixCols : ℕ}
    (h : (wrapLineInto gwidth text width prefixCols).length < maxRowsPerLine) :
    (covered (wrapLineInto gwidth text width prefixCols) = kept text ∧
        ∀ row ∈ wrapLineInto gwidth text width prefixCols,
          Narrow gwidth (availCols width prefixCols) (row.slice text)) ↔
      ∀ segment ∈ text.splitOn 0x0A, Flows gwidth (availCols width prefixCols) segment := by
  have htext : text.drop 0 = [0x0A].intercalate (text.splitOn 0x0A) := by
    rw [List.drop_zero, List.intercalate_splitOn]
  obtain ⟨-, hiff, hnarrow⟩ := wrapSegments_spec gwidth (availCols_pos width prefixCols)
    maxRowsPerLine (fun _ => htext)
  rw [keptFrom_splitOn] at hiff
  rw [wrapLineInto] at h ⊢
  by_cases hnone : (wrapSegments gwidth (availCols width prefixCols) maxRowsPerLine 0
      (text.splitOn 0x0A)).length = 0
  · -- an empty row covers nothing
    rw [if_pos hnone]
    rw [List.eq_nil_of_length_eq_zero hnone] at hiff
    refine Iff.trans ?_ (hiff (by decide))
    refine and_iff_left fun row hrow => ?_
    rw [List.mem_singleton.mp hrow]
    exact .inl (Nat.zero_le _)
  · rw [if_neg hnone] at h ⊢
    rw [and_iff_left hnarrow]
    exact hiff h

/-- The widths of ASCII and of one wide character. -/
def someWidths (slice : Bytes) : ℕ := if slice = [0xE4, 0xB8, 0x96] then 2 else slice.length

theorem covered_wrapLineInto_ascii :
    (covered (wrapLineInto someWidths (ascii "ab\nc") 1 0) = kept (ascii "ab\nc") ∧
        ∀ row ∈ wrapLineInto someWidths (ascii "ab\nc") 1 0,
          Narrow someWidths (availCols 1 0) (row.slice (ascii "ab\nc"))) ↔
      ∀ segment ∈ (ascii "ab\nc").splitOn 0x0A, Flows someWidths (availCols 1 0) segment :=
  covered_wrapLineInto_iff (by decide)

/-- **A wide character in one column is lost**, with all that is behind it. -/
theorem covered_wrapLineInto_wide :
    (wrapLineInto someWidths [0xE4, 0xB8, 0x96, 0x61] 1 0).length < maxRowsPerLine ∧
      covered (wrapLineInto someWidths [0xE4, 0xB8, 0x96, 0x61] 1 0) = [] ∧
      kept [0xE4, 0xB8, 0x96, 0x61] = [0, 1, 2, 3] := by decide

end History
end Tui
end TigerClaw
