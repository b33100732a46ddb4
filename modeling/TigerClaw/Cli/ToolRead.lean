import Mathlib.Algebra.Group.Nat.Defs
import Mathlib.Data.List.AList
import TigerClaw.Basic
import TigerClaw.Library.Digits
import TigerClaw.Library.Lines

/-!
# Reading a file

`src/cli/commands/tool_read.zig`: a window of the lines of a file, numbered for the model, with a
table of what each session has read.

* `countLines`, `sliceLines`, `formatLineNumbered`: the format.
* `ReadStateTable`, `checkDedup`, `recordRead`: the table.  `entry_recordRead`: its entries after a
  read.
* `readOpened`: `read`, once the file is open.  `Read`: how it ends.
* `followPages`: the offsets that each text advertises, one after the other.
* `Shows`: what a text should say.
* `pages_iff`: it says it, and the pages cover the file; the number of its lines is right exactly if
  the window does not reach behind a final newline.
-/

namespace TigerClaw
namespace Cli
namespace ToolRead

open Lines (lines window)

inductive ReadError where
  | fileNotFound
  | fileTooLarge
  | emptyOffset
  | readFailed
  deriving DecidableEq

structure TextRead where
  content : Bytes
  numLines : ℕ
  totalLines : ℕ
  startLine : ℕ
  truncated : Bool
  deriving DecidableEq

inductive ReadOutcome where
  | text (t : TextRead)
  | unchanged (path : Bytes)
  | empty (path : Bytes)
  | pastEof (path : Bytes) (totalLines requestedOffset : ℕ)
  deriving DecidableEq

def maxFileBytes : ℕ := 256 * 1024

def defaultLimitLines : ℕ := 2000

def maxEntriesPerSession : ℕ := 256

/-! ## Format -/

def newline : UInt8 := 0x0A

/-- `→` -/
def arrow : Bytes := [0xE2, 0x86, 0x92]

def trimCr (line : Bytes) : Bytes := if line.getLast? = some 0x0D then line.dropLast else line

/-- A line with its number. -/
def numbered (lineNo : ℕ) (line : Bytes) : Bytes :=
  List.replicate (6 - (Digits.decimal lineNo).length) 0x20 ++ Digits.decimal lineNo ++ arrow ++
    trimCr line

/-- The loop of `formatLineNumbered`. -/
def formatFrom : ℕ → Bool → List Bytes → Bytes
  | _, _, [] => []
  | lineNo, first, line :: rest =>
    (if first then [] else [newline]) ++ numbered lineNo line ++ formatFrom (lineNo + 1) false rest

def formatLineNumbered (content : Bytes) (startLine : ℕ) : Bytes :=
  formatFrom startLine true (content.splitOn newline)

def countLines (raw : Bytes) : ℕ :=
  if raw.length = 0 then 0
  else
    let n := raw.foldl (fun n c => if c = newline then n + 1 else n) 1
    if raw.getLast? = some newline then n - 1 else n

structure SliceResult where
  content : Bytes
  numLines : ℕ

def sliceLines (raw : Bytes) (offset limit : ℕ) : SliceResult :=
  if offset = 0 ∨ limit = 0 then ⟨[], 0⟩
  else
    match Lines.skip newline (offset - 1) raw with
    | none => ⟨[], 0⟩
    | some rest =>
      if rest.length = 0 then ⟨[], 0⟩
      else
        let (taken, numLines) := Lines.take newline limit rest
        ⟨Lines.trim newline taken, numLines⟩

/-! ## The table -/

structure ReadEntry where
  mtimeNs : ℤ
  size : ℕ
  offset : ℕ
  limit : Option ℕ
  seq : ℕ

structure PathMap where
  entries : AList fun _ : Bytes => ReadEntry := ∅
  nextSeq : ℕ := 0

abbrev ReadStateTable : Type := AList fun _ : Bytes => PathMap

namespace ReadStateTable

variable (state : ReadStateTable)

/-- What a session has under a path. -/
def entry (sessionId canonical : Bytes) : Option ReadEntry :=
  (state.lookup sessionId).bind fun session => session.entries.lookup canonical

def invalidatePath (sessionId canonicalPath : Bytes) : ReadStateTable :=
  match state.lookup sessionId with
  | none => state
  | some session =>
    state.insert sessionId { session with entries := session.entries.erase canonicalPath }

def invalidateSession (sessionId : Bytes) : ReadStateTable :=
  match state.lookup sessionId with
  | none => state
  | some _ => state.insert sessionId {}

end ReadStateTable

/-- A read as it is kept. -/
structure Request where
  mtimeNs : ℤ
  size : ℕ
  offset : ℕ
  limit : Option ℕ
  deriving DecidableEq

def ReadEntry.request (e : ReadEntry) : Request := ⟨e.mtimeNs, e.size, e.offset, e.limit⟩

def checkDedup (state : ReadStateTable) (sessionId canonical : Bytes) (req : Request) :
    Bool × ReadStateTable :=
  match state.lookup sessionId with
  | none => (false, state)
  | some session =>
    match session.entries.lookup canonical with
    | none => (false, state)
    | some entry =>
      if entry.mtimeNs ≠ req.mtimeNs then (false, state)
      else if entry.size ≠ req.size then (false, state)
      else if entry.offset ≠ req.offset then (false, state)
      else if entry.limit ≠ req.limit then (false, state)
      else
        let seq := session.nextSeq + 1
        (true, state.insert sessionId
          { entries := session.entries.insert canonical { entry with seq }, nextSeq := seq })

def evictOldest (session : PathMap) : PathMap :=
  let oldest := session.entries.entries.foldl
    (fun (seq, key) e => if e.2.seq < seq then (e.2.seq, e.1) else (seq, key)) (2 ^ 64 - 1, [])
  if oldest.2.length > 0 then { session with entries := session.entries.erase oldest.2 }
  else session

def recordRead (state : ReadStateTable) (sessionId canonical : Bytes) (req : Request) :
    ReadStateTable :=
  let session := (state.lookup sessionId).getD {}
  let seq := session.nextSeq + 1
  let session : PathMap :=
    { entries := session.entries.insert canonical
        { mtimeNs := req.mtimeNs, size := req.size, offset := req.offset, limit := req.limit, seq }
      nextSeq := seq }
  state.insert sessionId
    (if session.entries.entries.length > maxEntriesPerSession then evictOldest session
    else session)

/-! ## Reading -/

/-- The text of a window. -/
def readText (raw : Bytes) (offset limit : ℕ) : TextRead :=
  let totalLines := countLines raw
  let slice := sliceLines raw offset limit
  let remaining := totalLines - (offset - 1) - slice.numLines
  { content := formatLineNumbered slice.content offset
    numLines := slice.numLines
    totalLines
    startLine := offset
    truncated := remaining > 0 }

/-- `read`, with the content and the time of the file that was opened. -/
def readOpened (state : ReadStateTable) (sessionId canonical path : Bytes) (offset : ℕ)
    (limit : Option ℕ) (mtimeNs : ℤ) (raw : Bytes) :
    Except ReadError ReadOutcome × ReadStateTable :=
  let req : Request := ⟨mtimeNs, raw.length, offset, limit⟩
  if raw.length > maxFileBytes then (.error .fileTooLarge, state)
  else
    match checkDedup state sessionId canonical req with
    | (true, state) => (.ok (.unchanged path), state)
    | (false, state) =>
      if raw.length = 0 then (.ok (.empty path), recordRead state sessionId canonical req)
      else if offset > countLines raw then
        (.ok (.pastEof path (countLines raw) offset), state)
      else
        (.ok (.text (readText raw offset (limit.getD defaultLimitLines))),
          recordRead state sessionId canonical req)

/-- The offset that `runReadFile` advertises behind a text that is truncated. -/
def TextRead.continuation (t : TextRead) : ℕ := t.startLine + t.numLines

/-- The text that `runReadFile` makes of an outcome. -/
def ReadOutcome.result : ReadOutcome → Bytes
  | .text t =>
    if t.truncated then
      t.content ++ ascii "\n[file has " ++
        Digits.decimal (t.totalLines - t.startLine - t.numLines + 1) ++
        ascii " more lines; pass offset=" ++ Digits.decimal t.continuation ++
        ascii " to continue]"
    else t.content
  | .unchanged path =>
    ascii "<File " ++ path ++
      ascii (" unchanged since last read. The earlier read tool_result is still current ") ++
      [0xE2, 0x80, 0x94] ++ ascii " refer to it instead of re-reading.>"
  | .empty path =>
    ascii "<system-reminder>file \x60" ++ path ++
      ascii "\x60 exists but is empty.</system-reminder>"
  | .pastEof path totalLines requestedOffset =>
    ascii "<system-reminder>file \x60" ++ path ++ ascii "\x60 has only " ++
      Digits.decimal totalLines ++ ascii " lines but offset " ++ Digits.decimal requestedOffset ++
      ascii " was requested.</system-reminder>"

/-- Reading on at the advertised offset for as long as there is one; none if this does not end
within so many reads, or one of them is not answered with a text. -/
def followPages (sessionId canonical path : Bytes) (limit : Option ℕ) (mtimeNs : ℤ) (raw : Bytes) :
    ℕ → ReadStateTable → ℕ → Option (List TextRead)
  | 0, _, _ => none
  | fuel + 1, state, offset =>
    match readOpened state sessionId canonical path offset limit mtimeNs raw with
    | (.ok (.text t), state) =>
      if t.truncated then
        (followPages sessionId canonical path limit mtimeNs raw fuel state t.continuation).map
          (t :: ·)
      else some [t]
    | _ => none

/-! ## The format of a window -/

/-- Lines with their numbers. -/
def numberedFrom (lineNo : ℕ) (ls : List Bytes) : List Bytes :=
  (ls.zipIdx lineNo).map fun p => numbered p.2 p.1

theorem formatFrom_eq (lineNo : ℕ) (ls : List Bytes) :
    formatFrom lineNo true ls = [newline].intercalate (numberedFrom lineNo ls) := by
  induction ls generalizing lineNo with
  | nil => rfl
  | cons line rest ih =>
    cases rest with
    | nil => simp [formatFrom, numberedFrom]
    | cons line' rest =>
      have hfirst : formatFrom (lineNo + 1) false (line' :: rest) =
          newline :: formatFrom (lineNo + 1) true (line' :: rest) := rfl
      have hnumbered : numberedFrom lineNo (line :: line' :: rest) =
          numbered lineNo line :: numberedFrom (lineNo + 1) (line' :: rest) := rfl
      rw [formatFrom, hfirst, ih, hnumbered,
        List.intercalate_cons_of_ne_nil (by simp [numberedFrom])]
      simp

/-- **Lines that were joined are numbered one by one.** -/
theorem formatLineNumbered_intercalate {ls : List Bytes} (hne : ls ≠ [])
    (hls : ∀ l ∈ ls, newline ∉ l) (startLine : ℕ) :
    formatLineNumbered ([newline].intercalate ls) startLine =
      [newline].intercalate (numberedFrom startLine ls) := by
  rw [formatLineNumbered, List.splitOn_intercalate newline hls hne, formatFrom_eq]

theorem foldl_count (raw : Bytes) (k : ℕ) :
    raw.foldl (fun n c => if c = newline then n + 1 else n) k = k + raw.count newline := by
  induction raw generalizing k with
  | nil => rfl
  | cons c raw ih =>
    rw [List.foldl_cons, ih, List.count_cons]
    by_cases hc : c = newline
    · simp [hc]
      omega
    · simp [hc]

theorem countLines_eq (raw : Bytes) : countLines raw = (lines newline raw).length := by
  rw [Lines.length_lines, countLines, foldl_count]
  by_cases hnil : raw = []
  · subst hnil
    simp [Lines.Ended]
  · rw [if_neg (by simpa using hnil)]
    simp only [Lines.Ended, hnil, false_or]
    split
    · omega
    · omega

theorem window_ne_nil {raw : Bytes} {k n : ℕ} (hk : k < (lines newline raw).length) (hn : 0 < n) :
    window newline raw k n ≠ [] := by
  rw [← List.length_pos_iff, window, List.length_take, List.length_drop]
  omega

/-- **The window that is found**, and the number of its lines that is told. -/
theorem sliceLines_spec {raw : Bytes} {offset limit : ℕ} (hoffset : 1 ≤ offset) (hlimit : 1 ≤ limit)
    (hle : offset ≤ (lines newline raw).length) :
    (sliceLines raw offset limit).content =
        [newline].intercalate (window newline raw (offset - 1) limit) ∧
      (sliceLines raw offset limit).numLines = (window newline raw (offset - 1) limit).length +
        if (lines newline raw).length < offset - 1 + limit ∧ raw.getLast? = some newline
          then 1 else 0 := by
  obtain ⟨rest, hskip, hne, hlines, hended⟩ :=
    @Lines.skip_of_lt _ _ newline (offset - 1) raw (by omega)
  obtain ⟨n, rfl⟩ : ∃ n, limit = n + 1 := ⟨limit - 1, by omega⟩
  have hraw : raw ≠ [] := by
    rintro rfl
    exact absurd (Nat.le_trans hoffset hle) (Nat.not_succ_le_zero 0)
  have hslice : sliceLines raw offset (n + 1) =
      ⟨Lines.trim newline (Lines.take newline (n + 1) rest).1,
        (Lines.take newline (n + 1) rest).2⟩ := by
    rw [sliceLines, if_neg (by omega), hskip]
    exact if_neg (by simpa using hne)
  have hlast : Lines.Ended newline rest ↔ raw.getLast? = some newline := by
    rw [hended]
    simp [Lines.Ended, hraw]
  rw [hslice]
  constructor
  · rw [Lines.trim_take hne, hlines]
    rfl
  · rw [Lines.take_snd, hlines, window, List.length_take, List.length_drop]
    simp only [hlast]
    have hiff : (lines newline raw).length - (offset - 1) < n + 1 ↔
        (lines newline raw).length < offset - 1 + (n + 1) := by omega
    simp only [hiff]

/-! ## The entries of the table -/

theorem entry_insert (state : ReadStateTable) (sessionId s k : Bytes) (session : PathMap) :
    ReadStateTable.entry (state.insert sessionId session) s k =
      if s = sessionId then session.entries.lookup k else state.entry s k := by
  rw [ReadStateTable.entry]
  split
  · rename_i hs
    rw [hs, AList.lookup_insert, Option.bind_some]
  · rename_i hs
    rw [AList.lookup_insert_ne hs, ReadStateTable.entry]

theorem lookup_evictOldest (session : PathMap) (k : Bytes) :
    (evictOldest session).entries.lookup k = none ∨
      (evictOldest session).entries.lookup k = session.entries.lookup k := by
  rw [evictOldest]
  generalize session.entries.entries.foldl _ _ = oldest
  split
  · by_cases hk : k = oldest.2
    · subst hk
      exact .inl (AList.lookup_erase ..)
    · exact .inr (AList.lookup_erase_ne hk)
  · exact .inr rfl

/-- **After a read** an entry is gone, or it is the new one or an old one. -/
theorem entry_recordRead (state : ReadStateTable) (sessionId canonical : Bytes) (req : Request)
    {s k : Bytes} {e : ReadEntry}
    (h : (recordRead state sessionId canonical req).entry s k = some e) :
    s = sessionId ∧ k = canonical ∧ e.request = req ∨
      ¬ (s = sessionId ∧ k = canonical) ∧ state.entry s k = some e := by
  rw [recordRead, entry_insert] at h
  split at h
  · rename_i hs
    subst hs
    have hlookup : ((state.lookup s).getD {}).entries.lookup k = state.entry s k := by
      rw [ReadStateTable.entry]
      cases state.lookup s with
      | none => rfl
      | some session => rfl
    have hinsert : ∀ e', AList.lookup k (AList.insert canonical e'
        ((state.lookup s).getD {}).entries) = some e →
        k = canonical ∧ e = e' ∨ k ≠ canonical ∧ state.entry s k = some e := by
      intro e' he
      by_cases hk : k = canonical
      · rw [hk, AList.lookup_insert] at he
        exact .inl ⟨hk, (Option.some.inj he).symm⟩
      · rw [AList.lookup_insert_ne hk, hlookup] at he
        exact .inr ⟨hk, he⟩
    have hcases : ∀ e' : ReadEntry, e'.request = req → AList.lookup k (AList.insert canonical e'
        ((state.lookup s).getD {}).entries) = some e →
        s = s ∧ k = canonical ∧ e.request = req ∨
          ¬ (s = s ∧ k = canonical) ∧ state.entry s k = some e := by
      intro e' hreq he
      obtain ⟨hk, rfl⟩ | ⟨hk, hold⟩ := hinsert e' he
      · exact .inl ⟨rfl, hk, hreq⟩
      · exact .inr ⟨fun hboth => hk hboth.2, hold⟩
    split at h
    · obtain hnone | hsame := lookup_evictOldest _ k
      · rw [hnone] at h
        cases h
      · rw [hsame] at h
        exact hcases _ rfl h
    · exact hcases _ rfl h
  · rename_i hs
    exact .inr ⟨fun hboth => hs hboth.1, h⟩

theorem request_eq_iff {e : ReadEntry} {req : Request} :
    e.request = req ↔ e.mtimeNs = req.mtimeNs ∧ e.size = req.size ∧ e.offset = req.offset ∧
      e.limit = req.limit := by
  obtain ⟨mtimeNs, size, offset, limit⟩ := req
  simp [ReadEntry.request]

/-- **A read is a repetition** exactly if there is an entry of it; and then what is kept stays the
same. -/
theorem checkDedup_cases (state : ReadStateTable) (sessionId canonical : Bytes) (req : Request) :
    (state.entry sessionId canonical).map ReadEntry.request = some req ∧
        (∃ touched : ReadStateTable, checkDedup state sessionId canonical req = (true, touched) ∧
          ∀ s k, (touched.entry s k).map ReadEntry.request =
            (state.entry s k).map ReadEntry.request) ∨
      (state.entry sessionId canonical).map ReadEntry.request ≠ some req ∧
        checkDedup state sessionId canonical req = (false, state) := by
  cases hentry : state.entry sessionId canonical with
  | none =>
    refine .inr ⟨by simp, ?_⟩
    rw [ReadStateTable.entry] at hentry
    unfold checkDedup
    split
    · rfl
    · rename_i session hsession
      rw [hsession, Option.bind_some] at hentry
      rw [hentry]
  | some entry =>
    obtain ⟨session, hsession, hlookup⟩ := Option.bind_eq_some_iff.mp hentry
    have hdedup : checkDedup state sessionId canonical req =
        if entry.request = req then
          (true, state.insert sessionId
            { entries := session.entries.insert canonical
                { entry with seq := session.nextSeq + 1 }
              nextSeq := session.nextSeq + 1 })
        else (false, state) := by
      unfold checkDedup
      rw [hsession]
      dsimp only
      rw [hlookup]
      dsimp only
      simp only [request_eq_iff]
      split_ifs <;> first | rfl | tauto
    by_cases hsame : entry.request = req
    · refine .inl ⟨by simp [hsame], _, hdedup.trans (if_pos hsame), fun s k => ?_⟩
      rw [entry_insert]
      split
      · rename_i hs
        by_cases hk : k = canonical
        · rw [hk, hs, AList.lookup_insert, hentry]
          rfl
        · rw [AList.lookup_insert_ne hk, hs, ReadStateTable.entry, hsession, Option.bind_some]
      · rfl
    · exact .inr ⟨by simp [hsame], hdedup.trans (if_neg hsame)⟩

/-! ## One read -/

section Read

variable (state : ReadStateTable) (sessionId canonical path : Bytes) (offset : ℕ)
  (limit : Option ℕ) (mtimeNs : ℤ) (raw : Bytes)

/-- How a read of an open file ends. -/
inductive Read : Except ReadError ReadOutcome × ReadStateTable → Prop
  | tooLarge (hlarge : maxFileBytes < raw.length) : Read (.error .fileTooLarge, state)
  | unchanged {touched : ReadStateTable} (hsize : raw.length ≤ maxFileBytes)
    (hentry : (state.entry sessionId canonical).map ReadEntry.request =
      some ⟨mtimeNs, raw.length, offset, limit⟩)
    (htouched : ∀ s k, (touched.entry s k).map ReadEntry.request =
      (state.entry s k).map ReadEntry.request) : Read (.ok (.unchanged path), touched)
  | pastEof (hpast : (lines newline raw).length < offset) :
    Read (.ok (.pastEof path (countLines raw) offset), state)
  | empty (hnil : raw = []) : Read (.ok (.empty path),
      recordRead state sessionId canonical ⟨mtimeNs, raw.length, offset, limit⟩)
  | text (hsize : raw.length ≤ maxFileBytes)
    (hentry : (state.entry sessionId canonical).map ReadEntry.request ≠
      some ⟨mtimeNs, raw.length, offset, limit⟩) (hne : raw ≠ [])
    (hle : offset ≤ (lines newline raw).length) :
    Read (.ok (.text (readText raw offset (limit.getD defaultLimitLines))),
      recordRead state sessionId canonical ⟨mtimeNs, raw.length, offset, limit⟩)

theorem read_readOpened : Read state sessionId canonical path offset limit mtimeNs raw
    (readOpened state sessionId canonical path offset limit mtimeNs raw) := by
  rw [readOpened]
  by_cases hlarge : raw.length > maxFileBytes
  · rw [if_pos hlarge]
    exact .tooLarge hlarge
  · rw [if_neg hlarge]
    obtain ⟨hentry, touched, hdedup, htouched⟩ | ⟨hentry, hdedup⟩ :=
      checkDedup_cases state sessionId canonical ⟨mtimeNs, raw.length, offset, limit⟩
    · rw [hdedup]
      exact .unchanged (by omega) hentry htouched
    · rw [hdedup]
      dsimp only
      split_ifs with hnil hpast
      · exact .empty (List.eq_nil_of_length_eq_zero hnil)
      · exact .pastEof (countLines_eq raw ▸ hpast)
      · rw [countLines_eq] at hpast
        exact .text (by omega) hentry (by simpa using hnil) (by omega)

end Read

/-! ## Pages -/

/-- What the text of a window should say, but for the number of its lines. -/
structure Shows (raw : Bytes) (offset limit : ℕ) (t : TextRead) : Prop where
  content : t.content =
    [newline].intercalate (numberedFrom offset (window newline raw (offset - 1) limit))
  startLine : t.startLine = offset
  totalLines : t.totalLines = (lines newline raw).length
  truncated : t.truncated = true ↔ offset - 1 + limit < (lines newline raw).length

section Pages

variable {raw : Bytes} {offset limit : ℕ}

theorem length_window : (window newline raw (offset - 1) limit).length =
    min limit ((lines newline raw).length - (offset - 1)) := by
  rw [window, List.length_take, List.length_drop]

theorem numLines_readText (hoffset : 1 ≤ offset) (hlimit : 1 ≤ limit)
    (hle : offset ≤ (lines newline raw).length) :
    (readText raw offset limit).numLines = (window newline raw (offset - 1) limit).length +
      if (lines newline raw).length < offset - 1 + limit ∧ raw.getLast? = some newline
        then 1 else 0 :=
  (sliceLines_spec hoffset hlimit hle).2

theorem shows_readText (hoffset : 1 ≤ offset) (hlimit : 1 ≤ limit)
    (hle : offset ≤ (lines newline raw).length) :
    Shows raw offset limit (readText raw offset limit) where
  content := by
    have hls : ∀ l ∈ window newline raw (offset - 1) limit, newline ∉ l := fun l hl =>
      Lines.notMem_of_mem_lines (List.mem_of_mem_drop (List.mem_of_mem_take hl))
    rw [← formatLineNumbered_intercalate (window_ne_nil (by omega) hlimit) hls,
      ← (sliceLines_spec hoffset hlimit hle).1]
    rfl
  startLine := rfl
  totalLines := countLines_eq raw
  truncated := by
    have hnum := numLines_readText hoffset hlimit hle
    have htruncated : (readText raw offset limit).truncated = true ↔
        0 < countLines raw - (offset - 1) - (readText raw offset limit).numLines := by
      simp [readText]
    rw [htruncated, countLines_eq, hnum, length_window]
    split_ifs with hbehind
    · omega
    · omega

/-- **Behind a text that is truncated** the next one begins at the line after its last. -/
theorem continuation_readText (hoffset : 1 ≤ offset) (hlimit : 1 ≤ limit)
    (hmore : offset - 1 + limit < (lines newline raw).length) :
    (readText raw offset limit).continuation = offset + limit := by
  have hnum := @numLines_readText raw _ _ hoffset hlimit (by omega)
  rw [if_neg (by omega), length_window] at hnum
  rw [TextRead.continuation, hnum]
  show offset + _ = _
  omega

/-- **The pages of a file**, from a read that is not a repetition: the advertised offsets come to an
end, and the windows that they give make up the rest of the file. -/
theorem followPages_spec {state : ReadStateTable} {sessionId canonical path : Bytes}
    {limit : Option ℕ} {mtimeNs : ℤ} (hsize : raw.length ≤ maxFileBytes) (hne : raw ≠ [])
    (hlimit : 1 ≤ limit.getD defaultLimitLines) {fuel : ℕ} (hoffset : 1 ≤ offset)
    (hle : offset ≤ (lines newline raw).length) (hfuel : (lines newline raw).length < offset + fuel)
    (hentry : (state.entry sessionId canonical).map ReadEntry.request ≠
      some ⟨mtimeNs, raw.length, offset, limit⟩) :
    ∃ pages, followPages sessionId canonical path limit mtimeNs raw fuel state offset =
        some pages ∧
      (pages.flatMap fun t =>
          window newline raw (t.startLine - 1) (limit.getD defaultLimitLines)) =
        (lines newline raw).drop (offset - 1) ∧
      ∀ t ∈ pages, Shows raw t.startLine (limit.getD defaultLimitLines) t := by
  induction fuel generalizing state offset with
  | zero => omega
  | succ fuel ih =>
    have hread : readOpened state sessionId canonical path offset limit mtimeNs raw =
        (.ok (.text (readText raw offset (limit.getD defaultLimitLines))),
          recordRead state sessionId canonical ⟨mtimeNs, raw.length, offset, limit⟩) := by
      have hcases := read_readOpened state sessionId canonical path offset limit mtimeNs raw
      generalize readOpened state sessionId canonical path offset limit mtimeNs raw = result
        at hcases
      cases hcases with
      | tooLarge hlarge => omega
      | unchanged _ hsame _ => exact absurd hsame hentry
      | pastEof hpast => omega
      | empty hnil => exact absurd hnil hne
      | text => rfl
    have hshows := shows_readText hoffset hlimit hle
    rw [followPages, hread]
    dsimp only
    by_cases hmore : offset - 1 + limit.getD defaultLimitLines < (lines newline raw).length
    · rw [if_pos (hshows.truncated.mpr hmore), continuation_readText hoffset hlimit hmore]
      have hnext : ((recordRead state sessionId canonical
          ⟨mtimeNs, raw.length, offset, limit⟩).entry sessionId canonical).map
            ReadEntry.request ≠
          some ⟨mtimeNs, raw.length, offset + limit.getD defaultLimitLines, limit⟩ := by
        intro hrepeat
        obtain ⟨e, he, hreq⟩ := Option.map_eq_some_iff.mp hrepeat
        obtain ⟨-, -, hnew⟩ | ⟨hother, -⟩ := entry_recordRead state sessionId canonical _ he
        · have hoffsets := congrArg Request.offset (hnew.symm.trans hreq)
          dsimp only at hoffsets
          omega
        · exact hother ⟨rfl, rfl⟩
      obtain ⟨pages, hpages, hwindows, hall⟩ := ih (by omega) (by omega) (by omega) hnext
      refine ⟨_ :: pages, by rw [hpages, Option.map_some], ?_, ?_⟩
      · rw [List.flatMap_cons, hwindows]
        have hdrop : offset + limit.getD defaultLimitLines - 1 =
            offset - 1 + limit.getD defaultLimitLines := by omega
        rw [hdrop, ← List.drop_drop]
        exact List.take_append_drop _ _
      · exact List.forall_mem_cons.mpr ⟨hshows, hall⟩
    · rw [if_neg fun h => hmore (hshows.truncated.mp h)]
      refine ⟨_, rfl, ?_, ?_⟩
      · rw [List.flatMap_singleton, hshows.startLine]
        refine List.take_of_length_le ?_
        rw [List.length_drop]
        omega
      · exact fun t ht => List.mem_singleton.mp ht ▸ hshows

end Pages

/-- **Pages.**  A text shows its window, and the offsets that are advertised from it on cover the
rest of the file; and the number of its lines is right exactly if the window does not reach behind
a final newline. -/
theorem pages_iff {state state' : ReadStateTable} {sessionId canonical path raw : Bytes}
    {offset : ℕ} {limit : Option ℕ} {mtimeNs : ℤ} {t : TextRead} (hoffset : 1 ≤ offset)
    (hlimit : 1 ≤ limit.getD defaultLimitLines)
    (h : readOpened state sessionId canonical path offset limit mtimeNs raw =
      (.ok (.text t), state')) :
    (Shows raw offset (limit.getD defaultLimitLines) t ∧
      t.numLines = (window newline raw (offset - 1) (limit.getD defaultLimitLines)).length ∧
      ∃ pages, followPages sessionId canonical path limit mtimeNs raw
          ((lines newline raw).length + 1) state offset = some pages ∧
        (pages.flatMap fun page =>
            window newline raw (page.startLine - 1) (limit.getD defaultLimitLines)) =
          (lines newline raw).drop (offset - 1) ∧
        ∀ page ∈ pages, Shows raw page.startLine (limit.getD defaultLimitLines) page) ↔
    ¬ ((lines newline raw).length < offset - 1 + limit.getD defaultLimitLines ∧
      raw.getLast? = some newline) := by
  have hcases := read_readOpened state sessionId canonical path offset limit mtimeNs raw
  rw [h] at hcases
  cases hcases with
  | text hsize hentry hne hle =>
    have hnum := numLines_readText hoffset hlimit hle
    constructor
    · rintro ⟨-, hright, -⟩ hbehind
      rw [hright, if_pos hbehind] at hnum
      omega
    · intro hnot
      rw [if_neg hnot, Nat.add_zero] at hnum
      exact ⟨shows_readText hoffset hlimit hle, hnum,
        followPages_spec hsize hne hlimit hoffset hle (by omega) hentry⟩

/-- Two lines, the second without a newline, one at a time. -/
theorem pages_iff_two :
    (Shows (ascii "a
b") 1 1 ⟨ascii "     1" ++ arrow ++ ascii "a", 1, 2, 1, true⟩ ∧
      1 = (window newline (ascii "a
b") 0 1).length ∧
      ∃ pages, followPages (ascii "s") (ascii "f") (ascii "f") (some 1) 0 (ascii "a
b") 3 ∅ 1 =
          some pages ∧
        (pages.flatMap fun page => window newline (ascii "a
b") (page.startLine - 1) 1) =
          [ascii "a", ascii "b"] ∧
        ∀ page ∈ pages, Shows (ascii "a
b") page.startLine 1 page) ↔
    ¬ (2 < 1 ∧ (ascii "a
b").getLast? = some newline) :=
  @pages_iff ∅ (recordRead ∅ (ascii "s") (ascii "f") ⟨0, 3, 1, some 1⟩) (ascii "s") (ascii "f")
    (ascii "f") (ascii "a\nb") 1 (some 1) 0 _ (Nat.le_refl 1) (Nat.le_refl 1)
    (congrArg (fun t => (Except.ok (ReadOutcome.text t), _))
      (show readText (ascii "a\nb") 1 1 = _ by decide +kernel))

/-- A file of one line and its newline, with the limit that is the default: the text has one line,
and two are told. -/
theorem readOpened_final_newline :
    (readOpened ∅ (ascii "s") (ascii "f") (ascii "f") 1 none 0 (ascii "a\n")).1.toOption =
        some (.text ⟨ascii "     1" ++ arrow ++ ascii "a", 2, 1, 1, false⟩) ∧
      (window newline (ascii "a\n") 0 defaultLimitLines).length = 1 := by
  decide +kernel

end ToolRead
end Cli
end TigerClaw
