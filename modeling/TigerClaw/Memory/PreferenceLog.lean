import TigerClaw.Gateway.TurnStream
import TigerClaw.Library.Lines
import TigerClaw.Library.RotatingLog
import TigerClaw.Library.StepMachine
import Mathlib.Order.Basic

/-!
# The log of preferences

`src/memory/preference_log.zig`.  Every turn that ends is recorded as a line of JSON at the end of
`preferences.jsonl`, which is renamed after the time when it would grow past a threshold.  Any
operation on a file may fail, and then the call does; of a line that cannot be written some bytes
may remain.

* `renderLine`, `PreferenceLog.record`: the code.
* `Lossless`: what has been reported as stored is in the files, in order, each record on a line of
  its own, and a file that is longer than the threshold has a single line.
* `Careful`: a rotation does not replace a file with records, and no record is written behind what
  remains of another.
* `run_lossless_iff`: the first holds all along a run exactly if its calls do the second.
-/

namespace TigerClaw
namespace Memory
namespace Preferences

open Gateway (encodeJsonString)
open RotatingLog (Files entries)
open Lines (lines Ended)

/-! ## The log -/

inductive LogError where
  | backendFailure
  | outOfMemory

/-- A digest of sixteen bytes in hexadecimal digits. -/
structure HashHex where
  text : Bytes
  length_text : text.length = 32
  hex : ∀ b ∈ text, b ∈ ascii "0123456789abcdef"

structure TurnEnd where
  turnId : UInt64
  agentId : Bytes
  sessionId : Bytes
  userInputHash : HashHex
  outputHash : HashHex
  model : Bytes
  inputTokens : UInt32 := 0
  outputTokens : UInt32 := 0
  latencyMs : UInt64 := 0
  completed : Bool := true
  tsNs : ℤ

/-- The object in a line, without the line feed. -/
def renderObject (entry : TurnEnd) : Bytes :=
  ascii "\x7b\"turn_id\":" ++ Digits.decimal entry.turnId.toNat ++
    ascii ",\"agent_id\":" ++ encodeJsonString entry.agentId ++
    ascii ",\"session_id\":" ++ encodeJsonString entry.sessionId ++
    ascii ",\"user_input_hash\":\"" ++ entry.userInputHash.text ++ ascii "\"" ++
    ascii ",\"output_hash\":\"" ++ entry.outputHash.text ++ ascii "\"" ++
    ascii ",\"model\":" ++ encodeJsonString entry.model ++
    ascii ",\"input_tokens\":" ++ Digits.decimal entry.inputTokens.toNat ++
    ascii ",\"output_tokens\":" ++ Digits.decimal entry.outputTokens.toNat ++
    ascii ",\"latency_ms\":" ++ Digits.decimal entry.latencyMs.toNat ++
    ascii ",\"completed\":" ++ (if entry.completed then ascii "true" else ascii "false") ++
    ascii ",\"ts_ns\":" ++ Digits.decimalInt entry.tsNs ++ ascii "\x7d"

def newline : UInt8 := 0x0A

def renderLine (entry : TurnEnd) : Bytes := renderObject entry ++ [newline]

/-- What has been written to a file in one go; `record` is the number of the call whose whole line
it is.  That number is for statements only. -/
structure Write where
  record : Option ℕ := none
  bytes : Bytes

abbrev Dir : Type := Files Bytes Write

def text (ws : List Write) : Bytes := ws.flatMap Write.bytes

def currentFile : Bytes := ascii "preferences.jsonl"

/-- The name that `rotate` gives the file. -/
def rotatedFile (ts : ℤ) : Bytes := currentFile ++ (ascii "." ++ Digits.decimalInt ts)

/-- The operation of a call that fails, if the call comes to it. -/
inductive Fault where
  | alloc
  | stat
  | rename
  | create
  | length
  /-- After some bytes have been written. -/
  | write (n : ℕ)
  deriving DecidableEq

structure PreferenceLog where
  auditDir : Dir
  /-- `audit_dir_handle` is there. -/
  opened : Bool := false
  /-- The clock. -/
  nowNs : ℤ
  /-- How often `record` has been called, and what it has reported as stored; both are for
  statements only. -/
  calls : ℕ := 0
  stored : List Write := []

/-- The file would grow past the threshold. -/
def Overfull (threshold : ℕ) (dir : Dir) (line : Bytes) : Prop :=
  0 < (text (entries dir currentFile)).length ∧
    threshold < (text (entries dir currentFile)).length + line.length

instance (threshold : ℕ) (dir : Dir) (line : Bytes) : Decidable (Overfull threshold dir line) :=
  inferInstanceAs (Decidable (_ ∧ _))

/-- `rotate`, where it does not fail. -/
def rotate (dir : Dir) (ts : ℤ) : Dir := RotatingLog.rename dir currentFile (rotatedFile ts)

/-- `record` from `createFile` on; `call` is its number. -/
def appendLine (dir : Dir) (call : ℕ) (line : Bytes) (fault : Option Fault) :
    Except LogError Unit × Dir :=
  match fault with
  | some .create => (.error .backendFailure, dir)
  | some .length => (.error .backendFailure, RotatingLog.append dir currentFile [])
  | some (.write n) =>
    (.error .backendFailure, RotatingLog.append dir currentFile [{ bytes := line.take n }])
  | _ => (.ok (), RotatingLog.append dir currentFile [{ record := some call, bytes := line }])

/-- `record` on the files. -/
def recordLine (threshold : ℕ) (dir : Dir) (call : ℕ) (line : Bytes) (ts : ℤ)
    (fault : Option Fault) : Except LogError Unit × Dir :=
  if fault = some .alloc then (.error .outOfMemory, dir)
  else if fault = some .stat then (.error .backendFailure, dir)
  else if Overfull threshold dir line then
    if fault = some .rename then (.error .backendFailure, dir)
    else appendLine (rotate dir ts) call line fault
  else appendLine dir call line fault

/-- `record`; `wait` is how far the clock has gone on since the call before. -/
def PreferenceLog.record (threshold : ℕ) (self : PreferenceLog) (entry : TurnEnd) (wait : ℕ)
    (fault : Option Fault) : Except LogError Unit × PreferenceLog :=
  let called := { self with nowNs := self.nowNs + wait, calls := self.calls + 1 }
  if self.opened then
    let line := renderLine entry
    match recordLine threshold self.auditDir self.calls line called.nowNs fault with
    | (.error e, auditDir) => (.error e, { called with auditDir })
    | (.ok (), auditDir) =>
      (.ok (), { called with
        auditDir, stored := self.stored ++ [{ record := some self.calls, bytes := line }] })
  else (.error .backendFailure, called)

/-- The calls of a process; `init` may fail. -/
inductive Call where
  | init (fails : Bool)
  | deinit
  | record (entry : TurnEnd) (wait : ℕ) (fault : Option Fault)

def PreferenceLog.serve (threshold : ℕ) (self : PreferenceLog) : Call → PreferenceLog
  | .init fails => { self with opened := !fails }
  | .deinit => { self with opened := false }
  | .record entry wait fault => (self.record threshold entry wait fault).2

/-- A log in front of its first call, in an empty directory. -/
def start (nowNs : ℤ) : PreferenceLog where
  auditDir := fun _ => none
  nowNs := nowNs

/-! ## The property and the condition -/

/-- What has been stored of the writes to a file. -/
def records (ws : List Write) : List Write := ws.filter fun w => w.record.isSome

/-- The times of the rotated files, in their order. -/
structure Stamps (dir : Dir) (stamps : List ℤ) : Prop where
  sorted : stamps.Pairwise (· < ·)
  mem_iff : ∀ ts, ts ∈ stamps ↔ (dir (rotatedFile ts)).isSome

/-- The rotated files one after the other. -/
def rotated (dir : Dir) (stamps : List ℤ) : List Write :=
  stamps.flatMap fun ts => entries dir (rotatedFile ts)

/-- The rotated files in the order of their times, and then the current one, have the records that
were reported as stored, each once and in order. -/
def Kept (dir : Dir) (stored : List Write) : Prop :=
  ∃ stamps, Stamps dir stamps ∧ records (rotated dir stamps ++ entries dir currentFile) = stored

structure Lossless (threshold : ℕ) (log : PreferenceLog) : Prop where
  kept : Kept log.auditDir log.stored
  /-- The line of a record is one of the lines of its file. -/
  ownLine : ∀ name before w after, entries log.auditDir name = before ++ w :: after →
    w.record.isSome → lines newline (text (before ++ w :: after)) =
      lines newline (text before) ++ w.bytes.dropLast :: lines newline (text after)
  single : ∀ name, threshold < (text (entries log.auditDir name)).length →
    (lines newline (text (entries log.auditDir name))).length = 1

/-- The call does not come to `createFile`. -/
def Early (threshold : ℕ) (dir : Dir) (line : Bytes) (fault : Option Fault) : Prop :=
  fault = some .alloc ∨ fault = some .stat ∨ fault = some .rename ∧ Overfull threshold dir line

/-- **What keeps the log lossless.** -/
def Careful (threshold : ℕ) (log : PreferenceLog) : Call → Prop
  | .record entry wait fault =>
    log.opened = true → ¬ Early threshold log.auditDir (renderLine entry) fault →
      if Overfull threshold log.auditDir (renderLine entry) then
        ∀ w ∈ entries log.auditDir (rotatedFile (log.nowNs + wait)), w.record = none
      else fault = none ∨ fault = some .rename →
        Ended newline (text (entries log.auditDir currentFile))
  | _ => True

/-! ## Lines and names -/

/-- A record is one line. -/
theorem newline_notMem_renderObject (entry : TurnEnd) : newline ∉ renderObject entry := by
  have hstring : ∀ s, newline ∉ encodeJsonString s := by
    intro s
    have hwrite : newline ∉ Json.write [.string s] := Json.control_notMem_write (by decide)
      fun number hnumber => by cases List.mem_singleton.mp hnumber
    rwa [Json.write, List.flatMap_singleton] at hwrite
  have hhash : ∀ hash : HashHex, newline ∉ hash.text := fun hash hmem =>
    absurd (hash.hex newline hmem) (by decide)
  have hdecimal : ∀ n, newline ∉ Digits.decimal n := fun n hmem =>
    absurd (Digits.isDigit_of_mem_decimal hmem) (by decide)
  have hint : newline ∉ Digits.decimalInt entry.tsNs := by
    intro hmem
    rcases Digits.isDigit_or_minus_of_mem_decimalInt hmem with hdigit | hminus
    · exact absurd hdigit (by decide)
    · exact absurd hminus (by decide)
  have hbool : newline ∉ if entry.completed then ascii "true" else ascii "false" := by
    split <;> decide
  unfold renderObject
  simp only [List.mem_append, hstring, hhash, hdecimal, hint, hbool, or_false]
  decide

theorem length_lines_renderLine_take (entry : TurnEnd) (n : ℕ) :
    (lines newline ((renderLine entry).take n)).length ≤ 1 := by
  have hobject := newline_notMem_renderObject entry
  by_cases hn : n ≤ (renderObject entry).length
  · rw [renderLine, List.take_append_of_le_length hn]
    by_cases hnil : (renderObject entry).take n = []
    · rw [hnil]
      exact Nat.zero_le 1
    · rw [Lines.lines_of_notMem (fun hmem => hobject (List.mem_of_mem_take hmem)) hnil]
      exact Nat.le_refl 1
  · have hall : (renderLine entry).length ≤ n := by
      rw [renderLine, List.length_append, List.length_singleton]
      omega
    rw [List.take_of_length_le hall, renderLine, Lines.lines_append hobject]
    exact Nat.le_refl 1

theorem rotatedFile_inj {ts ts' : ℤ} (h : rotatedFile ts = rotatedFile ts') : ts = ts' := by
  have hdigits := List.append_cancel_left (List.append_cancel_left h)
  have hparse := congrArg Digits.parseInt hdigits
  rw [Digits.parseInt_decimalInt, Digits.parseInt_decimalInt] at hparse
  exact Option.some.inj hparse

theorem currentFile_ne_rotatedFile (ts : ℤ) : currentFile ≠ rotatedFile ts := by
  intro h
  have hnil := List.append_right_eq_self.mp h.symm
  cases hnil

/-! ## What a file has -/

/-- Every record of a file begins behind a line feed, or at the beginning. -/
def OwnLines (ws : List Write) : Prop :=
  ∀ before w after, ws = before ++ w :: after → w.record.isSome → Ended newline (text before)

theorem ownLines_append_iff (ws : List Write) (w : Write) :
    OwnLines (ws ++ [w]) ↔ OwnLines ws ∧ (w.record.isSome → Ended newline (text ws)) := by
  constructor
  · intro h
    refine ⟨?_, h ws w [] rfl⟩
    rintro before v after rfl
    exact h before v (after ++ [w]) (by simp)
  · rintro ⟨hws, hw⟩ before v after heq
    rcases List.eq_nil_or_concat after with rfl | ⟨after, x, rfl⟩
    · obtain ⟨rfl, hvw⟩ := List.append_inj' heq rfl
      obtain rfl := (List.cons.inj hvw).1
      exact hw
    · have heq' : ws ++ [w] = (before ++ v :: after) ++ [x] := by simpa using heq
      exact hws before v after (List.append_inj' heq' rfl).1

/-- The writes to a file: a record is a whole line, and more than one line do not exceed the
threshold. -/
structure Fit (threshold : ℕ) (ws : List Write) : Prop where
  whole : ∀ w ∈ ws, w.record.isSome → ∃ entry, w.bytes = renderLine entry
  single : threshold < (text ws).length → (lines newline (text ws)).length ≤ 1

theorem fit_nil (threshold : ℕ) : Fit threshold [] where
  whole := fun _ h => absurd h List.not_mem_nil
  single := fun _ => Nat.zero_le 1

theorem ownLines_nil : OwnLines [] := fun before w after h => by simp at h

/-- What a call writes at the end of the current file. -/
def written (line : Bytes) (call : ℕ) : Option Fault → List Write
  | some .create | some .length => []
  | some (.write n) => [{ bytes := line.take n }]
  | _ => [{ record := some call, bytes := line }]

/-- It is nothing, a piece of the line, or the whole line, which is then stored. -/
theorem written_cases (line : Bytes) (call : ℕ) {fault : Option Fault}
    (halloc : fault ≠ some .alloc) (hstat : fault ≠ some .stat) :
    (written line call fault = [] ∧ ¬ (fault = none ∨ fault = some .rename)) ∨
    (∃ n, written line call fault = [{ bytes := line.take n }] ∧
      ¬ (fault = none ∨ fault = some .rename)) ∨
    (written line call fault = [{ record := some call, bytes := line }] ∧
      (fault = none ∨ fault = some .rename)) := by
  rcases fault with _ | (_ | _ | _ | _ | _ | n)
  · exact Or.inr (Or.inr ⟨rfl, Or.inl rfl⟩)
  · exact absurd rfl halloc
  · exact absurd rfl hstat
  · exact Or.inr (Or.inr ⟨rfl, Or.inr rfl⟩)
  · exact Or.inl ⟨rfl, by simp⟩
  · exact Or.inl ⟨rfl, by simp⟩
  · exact Or.inr (Or.inl ⟨n, rfl, by simp⟩)

theorem text_append (ws vs : List Write) : text (ws ++ vs) = text ws ++ text vs :=
  List.flatMap_append

theorem records_append (ws vs : List Write) : records (ws ++ vs) = records ws ++ records vs :=
  List.filter_append ..

theorem text_written (line : Bytes) (call : ℕ) (fault : Option Fault) :
    ∃ n, text (written line call fault) = line.take n := by
  have hsingle : ∀ w : Write, text [w] = w.bytes := fun w => List.flatMap_singleton ..
  have hwhole : ∃ n, text [{ record := some call, bytes := line }] = line.take n :=
    ⟨line.length, by rw [hsingle, List.take_length]⟩
  rcases fault with _ | (_ | _ | _ | _ | _ | n)
  · exact hwhole
  · exact hwhole
  · exact hwhole
  · exact hwhole
  · exact ⟨0, rfl⟩
  · exact ⟨0, rfl⟩
  · exact ⟨n, hsingle _⟩

/-- What a call writes fits behind what leaves room for it. -/
theorem Fit.append {threshold : ℕ} {ws : List Write} (h : Fit threshold ws) (entry : TurnEnd)
    (hroom : text ws = [] ∨ (text ws).length + (renderLine entry).length ≤ threshold) (call : ℕ)
    (fault : Option Fault) : Fit threshold (ws ++ written (renderLine entry) call fault) where
  whole := by
    intro w hw hrecord
    rcases List.mem_append.mp hw with hold | hnew
    · exact h.whole w hold hrecord
    · rcases fault with _ | (_ | _ | _ | _ | _ | n)
      case some.create | some.length => exact absurd hnew List.not_mem_nil
      case some.write =>
        rw [List.mem_singleton.mp hnew] at hrecord
        cases hrecord
      all_goals
        rw [List.mem_singleton.mp hnew]
        exact ⟨entry, rfl⟩
  single := by
    intro hover
    obtain ⟨n, hn⟩ := text_written (renderLine entry) call fault
    rw [text_append, hn] at hover ⊢
    rcases hroom with hnil | hroom
    · rw [hnil, List.nil_append]
      exact length_lines_renderLine_take entry n
    · rw [List.length_append, List.length_take] at hover
      omega

/-! ## What a call does to the files -/

/-- Something is written at the end of the current file. -/
structure Appends (dir dir' : Dir) (ws : List Write) : Prop where
  current : entries dir' currentFile = entries dir currentFile ++ ws
  others : ∀ name, name ≠ currentFile → dir' name = dir name

theorem appends_append (dir : Dir) (ws : List Write) :
    Appends dir (RotatingLog.append dir currentFile ws) ws where
  current := RotatingLog.entries_append_self ..
  others := fun _ hname => Function.update_of_ne hname ..

theorem Appends.forall {dir dir' : Dir} {ws : List Write} (h : Appends dir dir' ws)
    {P : List Write → Prop} (hP : ∀ name, P (entries dir name))
    (hcurrent : P (entries dir currentFile ++ ws)) (name : Bytes) : P (entries dir' name) := by
  by_cases hname : name = currentFile
  · rw [hname, h.current]
    exact hcurrent
  · rw [entries, h.others name hname]
    exact hP name

/-- The directory in front of `createFile`. -/
def ready (threshold : ℕ) (dir : Dir) (line : Bytes) (ts : ℤ) : Dir :=
  if Overfull threshold dir line then rotate dir ts else dir

/-- **What `record` does to the files**: it fails early and touches nothing, or writes at the end of
the current file, which it may have renamed before. -/
theorem recordLine_cases (threshold : ℕ) (dir : Dir) (call : ℕ) (line : Bytes) (ts : ℤ)
    (fault : Option Fault) :
    (Early threshold dir line fault ∧
      ∃ e, recordLine threshold dir call line ts fault = (.error e, dir)) ∨
    (¬ Early threshold dir line fault ∧ Appends (ready threshold dir line ts)
        (recordLine threshold dir call line ts fault).2 (written line call fault) ∧
      (((recordLine threshold dir call line ts fault).1 = .ok () ∧
          records (written line call fault) = [{ record := some call, bytes := line }]) ∨
        ((∃ e, (recordLine threshold dir call line ts fault).1 = .error e) ∧
          records (written line call fault) = []))) := by
  by_cases hearly : Early threshold dir line fault
  · refine Or.inl ⟨hearly, ?_⟩
    unfold recordLine
    rcases hearly with rfl | rfl | ⟨rfl, hfull⟩
    · exact ⟨_, rfl⟩
    · exact ⟨_, rfl⟩
    · rw [if_neg (by simp), if_neg (by simp), if_pos hfull, if_pos rfl]
      exact ⟨_, rfl⟩
  · refine Or.inr ⟨hearly, ?_⟩
    have heq : recordLine threshold dir call line ts fault =
        appendLine (ready threshold dir line ts) call line fault := by
      have halloc : fault ≠ some .alloc := fun h => hearly (Or.inl h)
      have hstat : fault ≠ some .stat := fun h => hearly (Or.inr (Or.inl h))
      unfold recordLine ready
      rw [if_neg halloc, if_neg hstat]
      split
      · rename_i hfull
        rw [if_neg fun h => hearly (Or.inr (Or.inr ⟨h, hfull⟩))]
      · rfl
    rw [heq]
    rcases fault with _ | (_ | _ | _ | _ | _ | n)
    case some.create =>
      exact ⟨⟨(List.append_nil _).symm, fun _ _ => rfl⟩, Or.inr ⟨⟨_, rfl⟩, rfl⟩⟩
    case some.length => exact ⟨appends_append _ _, Or.inr ⟨⟨_, rfl⟩, rfl⟩⟩
    case some.write => exact ⟨appends_append _ _, Or.inr ⟨⟨_, rfl⟩, rfl⟩⟩
    all_goals exact ⟨appends_append _ _, Or.inl ⟨rfl, rfl⟩⟩

section Record

variable (threshold : ℕ) {s : PreferenceLog} (entry : TurnEnd) (wait : ℕ) (fault : Option Fault)

/-- The state behind `record`: the files and what is stored. -/
theorem record_cases (hopen : s.opened = true) :
    (Early threshold s.auditDir (renderLine entry) fault ∧
      (s.record threshold entry wait fault).2 =
        { s with nowNs := s.nowNs + wait, calls := s.calls + 1 }) ∨
    (¬ Early threshold s.auditDir (renderLine entry) fault ∧
      Appends (ready threshold s.auditDir (renderLine entry) (s.nowNs + wait))
        (s.record threshold entry wait fault).2.auditDir
        (written (renderLine entry) s.calls fault) ∧
      (s.record threshold entry wait fault).2.stored =
        s.stored ++ records (written (renderLine entry) s.calls fault) ∧
      (s.record threshold entry wait fault).2.nowNs = s.nowNs + wait) := by
  unfold PreferenceLog.record
  rw [if_pos hopen]
  rcases recordLine_cases threshold s.auditDir s.calls (renderLine entry) (s.nowNs + wait)
      fault with
    ⟨hearly, e, hrun⟩ | ⟨hearly, happends, hresult⟩
  · refine Or.inl ⟨hearly, ?_⟩
    dsimp only
    rw [hrun]
  · refine Or.inr ⟨hearly, ?_⟩
    dsimp only
    cases hrun : recordLine threshold s.auditDir s.calls (renderLine entry) (s.nowNs + wait)
        fault with
    | mk result dir =>
      rw [hrun] at happends hresult
      rcases hresult with ⟨hok, hrecords⟩ | ⟨⟨e, he⟩, hrecords⟩
      · obtain rfl : result = .ok () := hok
        exact ⟨happends, by rw [hrecords], rfl⟩
      · obtain rfl : result = .error e := he
        exact ⟨happends, by rw [hrecords, List.append_nil], rfl⟩

theorem record_closed (hopen : ¬ s.opened = true) :
    (s.record threshold entry wait fault).2 =
      { s with nowNs := s.nowNs + wait, calls := s.calls + 1 } := by
  unfold PreferenceLog.record
  rw [if_neg hopen]

end Record

/-! ## The order of the files -/

/-- Times in order are known by what they are. -/
theorem sorted_unique {a b : List ℤ} (ha : a.Pairwise (· < ·)) (hb : b.Pairwise (· < ·))
    (h : ∀ t, t ∈ a ↔ t ∈ b) : a = b := by
  have hperm : a.Perm b := by
    rw [List.perm_ext_iff_of_nodup (ha.imp Int.ne_of_lt) (hb.imp Int.ne_of_lt)]
    exact h
  exact hperm.eq_of_pairwise (fun x y _ _ hxy hyx => absurd hxy (Int.lt_asymm hyx)) ha hb

theorem Stamps.unique {dir : Dir} {a b : List ℤ} (ha : Stamps dir a) (hb : Stamps dir b) : a = b :=
  sorted_unique ha.sorted hb.sorted fun t => (ha.mem_iff t).trans (hb.mem_iff t).symm

theorem kept_iff {dir : Dir} {stamps : List ℤ} (h : Stamps dir stamps) (stored : List Write) :
    Kept dir stored ↔ records (rotated dir stamps ++ entries dir currentFile) = stored := by
  refine ⟨?_, fun hrecords => ⟨stamps, h, hrecords⟩⟩
  rintro ⟨stamps', h', hrecords⟩
  rw [h.unique h']
  exact hrecords

section Files

variable {dir dir' : Dir} {ws : List Write}

theorem Appends.stamps (h : Appends dir dir' ws) {stamps : List ℤ} (hs : Stamps dir stamps) :
    Stamps dir' stamps where
  sorted := hs.sorted
  mem_iff := fun ts => by
    rw [h.others _ (currentFile_ne_rotatedFile ts).symm]
    exact hs.mem_iff ts

theorem Appends.rotated (h : Appends dir dir' ws) (stamps : List ℤ) :
    rotated dir' stamps = rotated dir stamps := by
  refine List.flatMap_congr fun ts _ => ?_
  rw [entries, h.others _ (currentFile_ne_rotatedFile ts).symm]
  rfl

/-- What is written is kept behind what was kept before. -/
theorem Appends.kept_iff (h : Appends dir dir' ws) {stamps : List ℤ} (hs : Stamps dir stamps)
    (stored : List Write) : Kept dir' (stored ++ records ws) ↔ Kept dir stored := by
  rw [Preferences.kept_iff (h.stamps hs), Preferences.kept_iff hs, h.rotated, h.current,
    ← List.append_assoc, records_append (_ ++ _), List.append_left_inj]

/-- **What a rotation leaves**: the file of the last time is replaced by the current one. -/
theorem exists_stamps_rotate {stamps : List ℤ} (hs : Stamps dir stamps) {ts : ℤ}
    (hlate : ∀ t ∈ stamps, t ≤ ts) (hcurrent : (dir currentFile).isSome) :
    ∃ earlier,
      rotated dir stamps = rotated dir earlier ++ entries dir (rotatedFile ts) ∧
      rotated (rotate dir ts) (earlier ++ [ts]) =
        rotated dir earlier ++ entries dir currentFile ∧
      Stamps (rotate dir ts) (earlier ++ [ts]) ∧ ∀ t ∈ earlier ++ [ts], t ≤ ts := by
  have hne := currentFile_ne_rotatedFile ts
  have hearlier : ∀ t, t ∈ stamps.filter (· < ts) ↔ t ∈ stamps ∧ t < ts := fun t => by
    rw [List.mem_filter, decide_eq_true_iff]
  have hsorted : (stamps.filter (· < ts) ++ [ts]).Pairwise (· < ·) := by
    rw [List.pairwise_append]
    refine ⟨hs.sorted.filter _, List.pairwise_singleton _ _, fun t ht u hu => ?_⟩
    rw [List.mem_singleton.mp hu]
    exact ((hearlier t).mp ht).2
  have hother : ∀ t, t ≠ ts → rotate dir ts (rotatedFile t) = dir (rotatedFile t) := by
    intro t ht
    have hcur : rotatedFile t ≠ currentFile := (currentFile_ne_rotatedFile t).symm
    have htarget : rotatedFile t ≠ rotatedFile ts := fun h => ht (rotatedFile_inj h)
    rw [rotate, RotatingLog.rename, Function.update_of_ne hcur, Function.update_of_ne htarget]
  have htarget : rotate dir ts (rotatedFile ts) = dir currentFile := by
    rw [rotate, RotatingLog.rename, Function.update_of_ne hne.symm, Function.update_self]
  refine ⟨stamps.filter (· < ts), ?_, ?_, ⟨hsorted, fun t => ?_⟩, fun t ht => ?_⟩
  · by_cases hmem : ts ∈ stamps
    · have hall : stamps = stamps.filter (· < ts) ++ [ts] := by
        refine sorted_unique hs.sorted hsorted fun t => ?_
        rw [List.mem_append, hearlier, List.mem_singleton]
        constructor
        · intro ht
          rcases Int.lt_or_eq_of_le (hlate t ht) with hlt | heq
          · exact Or.inl ⟨ht, hlt⟩
          · exact Or.inr heq
        · rintro (ht | rfl)
          · exact ht.1
          · exact hmem
      calc rotated dir stamps = rotated dir (stamps.filter (· < ts) ++ [ts]) := by rw [← hall]
        _ = _ := by
          rw [rotated, List.flatMap_append, List.flatMap_singleton]
          rfl
    · have hall : stamps.filter (· < ts) = stamps := by
        refine List.filter_eq_self.mpr fun t ht => decide_eq_true ?_
        exact Int.lt_iff_le_and_ne.mpr ⟨hlate t ht, fun heq => hmem (heq ▸ ht)⟩
      have hnone : entries dir (rotatedFile ts) = [] := by
        have habsent := mt (hs.mem_iff ts).mpr hmem
        rw [entries, Option.not_isSome_iff_eq_none.mp habsent]
        rfl
      rw [hall, hnone, List.append_nil]
  · have hbefore : rotated (rotate dir ts) (stamps.filter (· < ts)) =
        rotated dir (stamps.filter (· < ts)) := by
      refine List.flatMap_congr fun t ht => ?_
      rw [entries, hother t (Int.ne_of_lt ((hearlier t).mp ht).2)]
      rfl
    rw [rotated, List.flatMap_append, List.flatMap_singleton, entries, htarget]
    exact congrArg (· ++ entries dir currentFile) hbefore
  · rw [List.mem_append, hearlier, List.mem_singleton]
    by_cases ht : t = ts
    · rw [ht, htarget]
      exact iff_of_true (Or.inr rfl) hcurrent
    · rw [hother t ht, ← hs.mem_iff, or_iff_left ht]
      refine and_iff_left_of_imp fun hmem => ?_
      exact Int.lt_iff_le_and_ne.mpr ⟨hlate t hmem, ht⟩
  · rcases List.mem_append.mp ht with hmem | hmem
    · exact Int.le_of_lt ((hearlier t).mp hmem).2
    · exact Int.le_of_eq (List.mem_singleton.mp hmem)

/-- **A rotation keeps the records** exactly if it replaces none. -/
theorem kept_rotate_iff {stamps : List ℤ} (hs : Stamps dir stamps) {ts : ℤ}
    (hlate : ∀ t ∈ stamps, t ≤ ts) (hcurrent : (dir currentFile).isSome) {stored : List Write}
    (hkept : Kept dir stored) :
    Kept (rotate dir ts) stored ↔ ∀ w ∈ entries dir (rotatedFile ts), w.record = none := by
  obtain ⟨earlier, hbefore, hafter, hstamps, -⟩ := exists_stamps_rotate hs hlate hcurrent
  have hnil : entries (rotate dir ts) currentFile = [] := RotatingLog.entries_rename_source
  have hrecords : records (entries dir (rotatedFile ts)) = [] ↔
      ∀ w ∈ entries dir (rotatedFile ts), w.record = none := by
    simp [records]
  rw [kept_iff hs, hbefore] at hkept
  rw [kept_iff hstamps, hafter, hnil, List.append_nil, ← hkept, ← hrecords]
  simp only [records_append, List.append_assoc, List.append_cancel_left_eq]
  exact List.self_eq_append_left

end Files

/-! ## A call -/

/-- What holds of the log in every state. -/
structure Sound (threshold : ℕ) (s : PreferenceLog) : Prop where
  stamps : ∃ stamps, Stamps s.auditDir stamps ∧ ∀ t ∈ stamps, t ≤ s.nowNs
  fit : ∀ name, Fit threshold (entries s.auditDir name)

theorem sound_start (threshold : ℕ) (nowNs : ℤ) : Sound threshold (start nowNs) where
  stamps := ⟨[], ⟨List.Pairwise.nil, fun _ => iff_of_false List.not_mem_nil Bool.false_ne_true⟩,
    fun _ ht => absurd ht List.not_mem_nil⟩
  fit := fun _ => fit_nil threshold

theorem lines_ne_zero {bytes : Bytes} {threshold : ℕ} (h : threshold < bytes.length) :
    (lines newline bytes).length ≠ 0 := by
  intro hlength
  have hne : bytes ≠ [] := List.ne_nil_of_length_pos (Nat.lt_of_le_of_lt (Nat.zero_le _) h)
  exact Lines.lines_ne_nil hne (List.eq_nil_of_length_eq_zero hlength)

/-- A record is a line of its file exactly if it begins behind a line feed. -/
theorem ownLine_iff {threshold : ℕ} {before after : List Write} {w : Write}
    (h : Fit threshold (before ++ w :: after)) (hw : w.record.isSome) :
    lines newline (text (before ++ w :: after)) =
        lines newline (text before) ++ w.bytes.dropLast :: lines newline (text after) ↔
      Ended newline (text before) := by
  obtain ⟨entry, hentry⟩ := h.whole w (by simp) hw
  have hdrop : w.bytes.dropLast = renderObject entry := by
    rw [hentry, renderLine, List.dropLast_concat]
  have htext : text (before ++ w :: after) =
      text before ++ (renderObject entry ++ [newline]) ++ text after := by
    have hcons : text (w :: after) = w.bytes ++ text after := List.flatMap_cons
    rw [text_append, hcons, hentry, renderLine, ← List.append_assoc]
  rw [hdrop, htext]
  exact Lines.lines_append_line_iff (newline_notMem_renderObject entry) _

/-- **What `Lossless` comes down to.** -/
theorem Sound.lossless_iff {threshold : ℕ} {s : PreferenceLog} (h : Sound threshold s) :
    Lossless threshold s ↔
      Kept s.auditDir s.stored ∧ ∀ name, OwnLines (entries s.auditDir name) := by
  constructor
  · intro hl
    refine ⟨hl.kept, fun name before w after heq hw => ?_⟩
    exact (ownLine_iff (heq ▸ h.fit name) hw).mp (hl.ownLine name before w after heq hw)
  · rintro ⟨hkept, hown⟩
    refine ⟨hkept, fun name before w after heq hw => ?_, fun name hover => ?_⟩
    · exact (ownLine_iff (heq ▸ h.fit name) hw).mpr (hown name before w after heq hw)
    · have hle := (h.fit name).single hover
      have hne := lines_ne_zero hover
      omega

section Ready

variable (threshold : ℕ) {dir : Dir} (line : Bytes) {ts : ℤ}

theorem forall_entries_ready {P : List Write → Prop} (hnil : P [])
    (hP : ∀ name, P (entries dir name)) (name : Bytes) :
    P (entries (ready threshold dir line ts) name) := by
  unfold ready
  split
  · exact RotatingLog.forall_entries_rename (currentFile_ne_rotatedFile ts) hnil hP name
  · exact hP name

/-- There is room for the line then. -/
theorem room_ready (dir : Dir) (ts : ℤ) :
    text (entries (ready threshold dir line ts) currentFile) = [] ∨
      (text (entries (ready threshold dir line ts) currentFile)).length + line.length ≤
        threshold := by
  unfold ready
  split
  · have hnil : entries (rotate dir ts) currentFile = [] := RotatingLog.entries_rename_source
    rw [hnil]
    exact Or.inl rfl
  · rename_i hfull
    rw [Overfull, not_and, Nat.not_lt, List.length_pos_iff] at hfull
    exact (em _).imp_right hfull

variable {threshold line} in
theorem isSome_of_overfull (h : Overfull threshold dir line) : (dir currentFile).isSome := by
  cases hfile : dir currentFile with
  | some ws => rfl
  | none =>
    have hpos := h.1
    rw [entries, hfile] at hpos
    exact absurd hpos (Nat.lt_irrefl 0)

theorem stamps_ready {stamps : List ℤ} (hs : Stamps dir stamps) (hlate : ∀ t ∈ stamps, t ≤ ts) :
    ∃ stamps', Stamps (ready threshold dir line ts) stamps' ∧ ∀ t ∈ stamps', t ≤ ts := by
  unfold ready
  split
  · rename_i hfull
    obtain ⟨earlier, -, -, hstamps, hle⟩ := exists_stamps_rotate hs hlate (isSome_of_overfull hfull)
    exact ⟨_, hstamps, hle⟩
  · exact ⟨stamps, hs, hlate⟩

end Ready

variable {threshold : ℕ}

theorem Sound.late {s : PreferenceLog} (h : Sound threshold s) (wait : ℕ) :
    ∃ stamps, Stamps s.auditDir stamps ∧ ∀ t ∈ stamps, t ≤ s.nowNs + wait := by
  obtain ⟨stamps, hs, hlate⟩ := h.stamps
  refine ⟨stamps, hs, fun t ht => ?_⟩
  have hle := hlate t ht
  omega

/-- A call that touches no file. -/
theorem Sound.later {s : PreferenceLog} (h : Sound threshold s) (wait : ℕ) :
    Sound threshold { s with nowNs := s.nowNs + wait, calls := s.calls + 1 } :=
  ⟨h.late wait, h.fit⟩

/-- **A call keeps the invariant.** -/
theorem Sound.serve {s : PreferenceLog} (h : Sound threshold s) (call : Call) :
    Sound threshold (s.serve threshold call) := by
  cases call with
  | init fails => exact ⟨h.stamps, h.fit⟩
  | deinit => exact ⟨h.stamps, h.fit⟩
  | record entry wait fault =>
    show Sound threshold (s.record threshold entry wait fault).2
    by_cases hopen : s.opened = true
    · rcases record_cases threshold entry wait fault hopen with
        ⟨-, hs'⟩ | ⟨-, happends, -, hnow⟩
      · rw [hs']
        exact h.later wait
      · obtain ⟨stamps, hs, hlate⟩ := h.late wait
        obtain ⟨stamps', hready, hlate'⟩ := stamps_ready threshold (renderLine entry)
          hs hlate
        refine ⟨⟨stamps', happends.stamps hready, hnow ▸ hlate'⟩, ?_⟩
        have hfit : ∀ name, Fit threshold (entries
            (ready threshold s.auditDir (renderLine entry) (s.nowNs + wait)) name) :=
          forall_entries_ready threshold (renderLine entry) (fit_nil threshold) h.fit
        have hroom := room_ready threshold (renderLine entry) s.auditDir (s.nowNs + wait)
        exact happends.forall hfit ((hfit currentFile).append entry hroom s.calls fault)
    · rw [record_closed threshold entry wait fault hopen]
      exact h.later wait

/-- What is written goes on a line of its own, where it has to. -/
theorem ownLines_written_iff {ws : List Write} (hws : OwnLines ws) (line : Bytes) (call : ℕ)
    {fault : Option Fault} (halloc : fault ≠ some .alloc) (hstat : fault ≠ some .stat) :
    OwnLines (ws ++ written line call fault) ↔
      (fault = none ∨ fault = some .rename → Ended newline (text ws)) := by
  rcases written_cases line call halloc hstat with
    ⟨hw, hfails⟩ | ⟨n, hw, hfails⟩ | ⟨hw, hstores⟩
  · rw [hw, List.append_nil]
    exact iff_of_true hws fun h => absurd h hfails
  · rw [hw, ownLines_append_iff]
    exact iff_of_true ⟨hws, fun h => by cases h⟩ fun h => absurd h hfails
  · rw [hw, ownLines_append_iff, and_iff_right hws]
    exact ⟨fun h _ => h rfl, fun h _ => h hstores⟩

/-- **A call keeps the log lossless** exactly if it is careful. -/
theorem lossless_serve_iff {s : PreferenceLog} (h : Sound threshold s) (hl : Lossless threshold s)
    (call : Call) : Lossless threshold (s.serve threshold call) ↔ Careful threshold s call := by
  rw [(h.serve call).lossless_iff]
  obtain ⟨hkept, hown⟩ := h.lossless_iff.mp hl
  cases call with
  | init fails => exact iff_of_true ⟨hkept, hown⟩ trivial
  | deinit => exact iff_of_true ⟨hkept, hown⟩ trivial
  | record entry wait fault =>
    show Kept (s.record threshold entry wait fault).2.auditDir
        (s.record threshold entry wait fault).2.stored ∧
      (∀ name, OwnLines (entries (s.record threshold entry wait fault).2.auditDir name)) ↔ _
    simp only [Careful]
    by_cases hopen : s.opened = true
    swap
    · rw [record_closed threshold entry wait fault hopen]
      exact iff_of_true ⟨hkept, hown⟩ fun hopened => absurd hopened hopen
    rw [forall_prop_of_true hopen]
    rcases record_cases threshold entry wait fault hopen with
      ⟨hearly, hs'⟩ | ⟨hearly, happends, hstored, -⟩
    · rw [hs']
      exact iff_of_true ⟨hkept, hown⟩ fun hnot => absurd hearly hnot
    rw [forall_prop_of_true hearly, hstored]
    obtain ⟨stamps, hs, hlate⟩ := h.late wait
    obtain ⟨stamps', hready, -⟩ := stamps_ready threshold (renderLine entry) hs hlate
    have hready_own : ∀ name, OwnLines (entries
        (ready threshold s.auditDir (renderLine entry) (s.nowNs + wait)) name) :=
      forall_entries_ready threshold (renderLine entry) ownLines_nil hown
    have hlines : (∀ name, OwnLines
        (entries (s.record threshold entry wait fault).2.auditDir name)) ↔
          (fault = none ∨ fault = some .rename → Ended newline (text (entries
            (ready threshold s.auditDir (renderLine entry) (s.nowNs + wait)) currentFile))) := by
      rw [← ownLines_written_iff (hready_own currentFile) (renderLine entry) s.calls
        (fun hf => hearly (Or.inl hf)) (fun hf => hearly (Or.inr (Or.inl hf))), ← happends.current]
      exact ⟨fun hall => hall currentFile, fun hcurrent =>
        happends.forall hready_own (happends.current ▸ hcurrent)⟩
    rw [happends.kept_iff hready, hlines]
    by_cases hfull : Overfull threshold s.auditDir (renderLine entry)
    · have hrotated : ready threshold s.auditDir (renderLine entry) (s.nowNs + wait) =
          rotate s.auditDir (s.nowNs + wait) := if_pos hfull
      have hnil : entries (rotate s.auditDir (s.nowNs + wait)) currentFile = [] :=
        RotatingLog.entries_rename_source
      rw [if_pos hfull, hrotated, hnil, kept_rotate_iff hs hlate (isSome_of_overfull hfull) hkept]
      exact and_iff_left fun _ => Or.inl rfl
    · have hsame : ready threshold s.auditDir (renderLine entry) (s.nowNs + wait) = s.auditDir :=
        if_neg hfull
      rw [if_neg hfull, hsame]
      exact and_iff_right hkept

theorem lossless_start (threshold : ℕ) (nowNs : ℤ) : Lossless threshold (start nowNs) := by
  obtain ⟨stamps, hs, -⟩ := (sound_start threshold nowNs).stamps
  have hrotated : rotated (start nowNs).auditDir stamps = [] :=
    List.flatMap_eq_nil_iff.mpr fun _ _ => rfl
  refine (sound_start threshold nowNs).lossless_iff.mpr
    ⟨(kept_iff hs _).mpr ?_, fun _ => ownLines_nil⟩
  rw [hrotated]
  rfl

/-! ## Runs -/

/-- **The log is lossless all along a run** exactly if none of its rotations replaces a file with
records, and none of its records is written behind what remains of another. -/
theorem run_lossless_iff (threshold : ℕ) (nowNs : ℤ) (calls : List Call) :
    (∀ before, before <+: calls →
      Lossless threshold (before.foldl (PreferenceLog.serve threshold) (start nowNs))) ↔
      StepMachine.Along (fun s call => some (PreferenceLog.serve threshold s call))
        (Careful threshold) (start nowNs) calls :=
  StepMachine.always_iff_along_total (I := Sound threshold) (fun _ call h => h.serve call)
    (fun _ call h hl => lossless_serve_iff h hl call) (sound_start threshold nowNs)
    (lossless_start threshold nowNs) calls

def zeroHash : HashHex where
  text := List.replicate 32 0x30
  length_text := List.length_replicate
  hex := fun b hb => by
    rw [List.eq_of_mem_replicate hb]
    decide

/-- The end of a turn. -/
def turnEnd : TurnEnd where
  turnId := 1
  agentId := ascii "tiger"
  sessionId := ascii "s"
  userInputHash := zeroHash
  outputHash := zeroHash
  model := ascii "m"
  tsNs := 0

/-- Of the first line one byte is written, and the second line follows it. -/
theorem record_behind_a_torn_line : ¬ ∀ before,
    before <+: [.init false, .record turnEnd 0 (some (.write 1)), .record turnEnd 0 none] →
      Lossless (1 + (renderLine turnEnd).length) (before.foldl
        (PreferenceLog.serve (1 + (renderLine turnEnd).length)) (start 0)) := by
  intro hall
  have hsound := (((sound_start (1 + (renderLine turnEnd).length) 0).serve (.init false)).serve
    (.record turnEnd 0 (some (.write 1))))
  have htorn := hall [.init false, .record turnEnd 0 (some (.write 1))] ⟨_, rfl⟩
  have hcareful := (lossless_serve_iff hsound htorn (.record turnEnd 0 none)).mp
    (hall _ (List.prefix_refl _)) rfl (by rintro (h | h | ⟨h, -⟩) <;> cases h)
  rw [if_neg fun hfull => Nat.lt_irrefl _ hfull.2] at hcareful
  rcases hcareful (Or.inl rfl) with hnil | hlast
  · cases hnil
  · cases hlast

end Preferences
end Memory
end TigerClaw
