import TigerClaw.Tools.Schema

/-!
# Replacing a substring in a file

`src/tools/edit.zig`.  What is looked for has to appear once; the second search starts behind the
first occurrence.

* `spliced`, `handler`: the code.
* `OccursAt`: an occurrence, whether or not it overlaps another one.
* `indexOf_eq_some_iff`, `indexOfPos_eq_none_iff`: what the two searches find.
* `Told`, `told_iff`: the searches tell one occurrence from several, except where all
  others overlap the first.
* `handler_iff`: so far the tool keeps its promise.
-/

namespace TigerClaw
namespace Tools
namespace Edit

open Agent (ToolOutcome ToolResult)
open Sandbox (FsPolicy)

structure EditArgs where
  path : Bytes
  find : Bytes
  replace : Bytes

/-- The files of a workspace, and the errors that its paths give when they are looked at, read and
written. -/
structure Workspace where
  files : Bytes → Option Bytes
  stat : Stat
  readError : Bytes → Option Bytes := fun _ => none
  writeError : Bytes → Option Bytes := fun _ => none

namespace Workspace

/-- `readFileAlloc`.  A file over the limit is one of the errors of reading. -/
def readFileAlloc (ws : Workspace) (path : Bytes) : Except Bytes Bytes :=
  match ws.readError path with
  | some e => .error e
  | none =>
    match ws.files path with
    | none => .error (ascii "FileNotFound")
    | some bytes => .ok bytes

/-- The workspace with another file at a path. -/
def put (ws : Workspace) (path bytes : Bytes) : Workspace :=
  { ws with files := fun p => if p = path then some bytes else ws.files p }

/-- `writeAtomic`: all of the file or nothing. -/
def writeAtomic (ws : Workspace) (path bytes : Bytes) : Except Bytes Unit × Workspace :=
  match ws.writeError path with
  | some e => (.error e, ws)
  | none => (.ok (), ws.put path bytes)

end Workspace

/-- `std.mem.indexOfPos(u8, haystack, start, needle)`. -/
def indexOfPos (haystack : Bytes) (start : ℕ) (needle : Bytes) : Option ℕ :=
  (indexOf needle (haystack.drop start)).map (start + ·)

inductive EditError where
  | noMatch
  | ambiguous

/-- The new buffer, after the two searches. -/
def spliced (src find replace : Bytes) : Except EditError Bytes :=
  match indexOf find src with
  | none => .error .noMatch
  | some first =>
    if (indexOfPos src (first + find.length) find).isSome then .error .ambiguous
    else .ok (src.take first ++ replace ++ src.drop (first + find.length))

def EditError.result (callId : Bytes) : EditError → ToolResult
  | .noMatch => errResult callId (ascii "edit.no_match") (ascii "find string not present")
  | .ambiguous =>
    errResult callId (ascii "edit.ambiguous") (ascii "find string appears more than once")

/-- `handler`, from the arguments, if these are valid. -/
def handler (ws : Workspace) (fsPolicy : FsPolicy) (callId : Bytes) (args : Option EditArgs) :
    ToolResult × Workspace :=
  match args with
  | none => (errResult callId (ascii "tool.args") (ascii "invalid json arguments"), ws)
  | some args =>
    match checkWorkspacePath ws.stat fsPolicy callId args.path .write with
    | some errResult => (errResult, ws)
    | none =>
      match ws.readFileAlloc args.path with
      | .error e =>
        if e = ascii "FileNotFound" then (errResult callId (ascii "fs.not_found") args.path, ws)
        else (errResult callId (ascii "fs.error") e, ws)
      | .ok src =>
        match spliced src args.find args.replace with
        | .error e => (e.result callId, ws)
        | .ok newBuf =>
          match ws.writeAtomic args.path newBuf with
          | (.error e, ws) => (errResult callId (ascii "fs.error") e, ws)
          | (.ok (), ws) => (okResult callId (ascii "edited"), ws)

/-! ## Occurrences -/

/-- An occurrence of the string at a position. -/
def OccursAt (find src : Bytes) (i : ℕ) : Prop := find <+: src.drop i

instance decidableOccursAt (find src : Bytes) (i : ℕ) : Decidable (OccursAt find src i) :=
  inferInstanceAs (Decidable (_ <+: _))

theorem occursAt_drop {find src : Bytes} {n i : ℕ} :
    OccursAt find (src.drop n) i ↔ OccursAt find src (n + i) := by
  rw [OccursAt, OccursAt, List.drop_drop]

theorem not_occursAt_nil {find : Bytes} (hfind : find ≠ []) (i : ℕ) : ¬ OccursAt find [] i := by
  rw [OccursAt, List.drop_nil, List.prefix_nil]
  exact hfind

theorem indexOf_eq_none_iff {find src : Bytes} (hfind : find ≠ []) :
    indexOf find src = none ↔ ∀ i, ¬ OccursAt find src i := by
  induction src with
  | nil =>
    rw [indexOf, if_neg hfind]
    exact iff_of_true rfl (not_occursAt_nil hfind)
  | cons b src ih =>
    have hsucc : (∀ i, ¬ OccursAt find (b :: src) (i + 1)) ↔ indexOf find src = none := ih.symm
    rw [indexOf, ← Nat.and_forall_add_one, hsucc, OccursAt, List.drop_zero,
      ← List.isPrefixOf_iff_prefix]
    by_cases hpre : find.isPrefixOf (b :: src) = true
    · rw [if_pos hpre]
      exact iff_of_false (Option.some_ne_none 0) fun h => h.1 hpre
    · rw [if_neg hpre, Option.map_eq_none_iff, and_iff_right hpre]

/-- The search finds the first occurrence. -/
theorem indexOf_eq_some_iff {find src : Bytes} (hfind : find ≠ []) {i : ℕ} :
    indexOf find src = some i ↔ OccursAt find src i ∧ ∀ j < i, ¬ OccursAt find src j := by
  induction src generalizing i with
  | nil =>
    rw [indexOf, if_neg hfind]
    exact iff_of_false (Option.some_ne_none i).symm fun h => not_occursAt_nil hfind i h.1
  | cons b src ih =>
    rw [indexOf]
    by_cases hpre : find.isPrefixOf (b :: src) = true
    · have hzero : OccursAt find (b :: src) 0 := List.isPrefixOf_iff_prefix.mp hpre
      rw [if_pos hpre, Option.some.injEq]
      constructor
      · rintro rfl
        exact ⟨hzero, fun j hj => absurd hj (Nat.not_lt_zero j)⟩
      · rintro ⟨-, hfirst⟩
        by_contra hne
        exact hfirst 0 (Nat.pos_of_ne_zero (Ne.symm hne)) hzero
    · have hzero : ¬ OccursAt find (b :: src) 0 := fun h =>
        hpre (List.isPrefixOf_iff_prefix.mpr h)
      rw [if_neg hpre, Option.map_eq_some_iff]
      cases i with
      | zero =>
        refine iff_of_false ?_ fun h => hzero h.1
        rintro ⟨k, -, hk⟩
        exact Nat.succ_ne_zero k hk
      | succ i =>
        have hstep : (∃ k, indexOf find src = some k ∧ k + 1 = i + 1) ↔
            indexOf find src = some i := by
          constructor
          · rintro ⟨k, hk, hki⟩
            rwa [Nat.succ.inj hki] at hk
          · exact fun h => ⟨i, h, rfl⟩
        rw [hstep, ih]
        refine and_congr Iff.rfl ?_
        constructor
        · intro h j hj
          cases j with
          | zero => exact hzero
          | succ j => exact h j (Nat.lt_of_succ_lt_succ hj)
        · exact fun h j hj => h (j + 1) (Nat.succ_lt_succ hj)

/-- The second search looks at what starts at its position or behind it. -/
theorem indexOfPos_eq_none_iff {find src : Bytes} (hfind : find ≠ []) {start : ℕ} :
    indexOfPos src start find = none ↔ ∀ k, start ≤ k → ¬ OccursAt find src k := by
  rw [indexOfPos, Option.map_eq_none_iff, indexOf_eq_none_iff hfind]
  simp only [occursAt_drop]
  constructor
  · intro h k hk
    obtain ⟨i, rfl⟩ := Nat.exists_eq_add_of_le hk
    exact h i
  · exact fun h i => h (start + i) (Nat.le_add_right start i)

/-! ## One occurrence or several -/

/-- The first occurrence. -/
def FirstAt (find src : Bytes) (i : ℕ) : Prop :=
  OccursAt find src i ∧ ∀ j < i, ¬ OccursAt find src j

/-- The only occurrence. -/
def UniqueAt (find src : Bytes) (i : ℕ) : Prop :=
  OccursAt find src i ∧ ∀ j, OccursAt find src j → j = i

/-- Where another occurrence overlaps the first one, there is also one behind it. -/
def Told (find src : Bytes) : Prop :=
  ∀ i j, FirstAt find src i → OccursAt find src j → i < j → j < i + find.length →
    ∃ k, i + find.length ≤ k ∧ OccursAt find src k

theorem UniqueAt.firstAt {find src : Bytes} {i : ℕ} (h : UniqueAt find src i) :
    FirstAt find src i :=
  ⟨h.1, fun j hj hoccurs => hj.ne (h.2 j hoccurs)⟩

theorem FirstAt.eq {find src : Bytes} {i j : ℕ} (hi : FirstAt find src i)
    (hj : FirstAt find src j) : i = j := by
  rcases Nat.lt_trichotomy i j with hlt | heq | hgt
  · exact absurd hi.1 (hj.2 i hlt)
  · exact heq
  · exact absurd hj.1 (hi.2 j hgt)

/-- What the searches accept: a first occurrence with none behind it. -/
theorem spliced_eq_ok_iff {src find replace new : Bytes} (hfind : find ≠ []) :
    spliced src find replace = .ok new ↔
      ∃ i, FirstAt find src i ∧ (∀ k, i + find.length ≤ k → ¬ OccursAt find src k) ∧
        new = src.take i ++ replace ++ src.drop (i + find.length) := by
  unfold spliced
  cases hfirst : indexOf find src with
  | none =>
    refine iff_of_false (by simp) ?_
    rintro ⟨i, hi, -⟩
    exact (indexOf_eq_none_iff hfind).mp hfirst i hi.1
  | some first =>
    have hat : FirstAt find src first := (indexOf_eq_some_iff hfind).mp hfirst
    dsimp only
    cases hsecond : indexOfPos src (first + find.length) find with
    | some second =>
      rw [if_pos Option.isSome_some]
      refine iff_of_false (by simp) ?_
      rintro ⟨i, hi, hbehind, -⟩
      obtain rfl := hat.eq hi
      have hnone := (indexOfPos_eq_none_iff hfind).mpr hbehind
      rw [hsecond] at hnone
      cases hnone
    | none =>
      rw [if_neg (by decide), Except.ok.injEq]
      constructor
      · rintro rfl
        exact ⟨first, hat, (indexOfPos_eq_none_iff hfind).mp hsecond, rfl⟩
      · rintro ⟨i, hi, -, rfl⟩
        obtain rfl := hat.eq hi
        rfl

theorem UniqueAt.spliced_eq {src find : Bytes} (hfind : find ≠ []) {i : ℕ}
    (h : UniqueAt find src i) (replace : Bytes) :
    spliced src find replace =
      .ok (src.take i ++ replace ++ src.drop (i + find.length)) := by
  refine (spliced_eq_ok_iff hfind).mpr ⟨i, h.firstAt, fun k hk hoccurs => ?_, rfl⟩
  have hlen := List.length_pos_of_ne_nil hfind
  have hki := h.2 k hoccurs
  omega

/-- **The searches tell one occurrence from several** except where all others overlap the first. -/
theorem told_iff {src find : Bytes} (hfind : find ≠ []) (replace : Bytes) :
    Told find src ↔
      ∀ new, spliced src find replace = .ok new → ∃ i, UniqueAt find src i := by
  constructor
  · intro htold new hnew
    obtain ⟨i, hi, hbehind, -⟩ := (spliced_eq_ok_iff hfind).mp hnew
    refine ⟨i, hi.1, fun j hj => ?_⟩
    by_contra hne
    rcases Nat.lt_or_ge j i with hlt | hge
    · exact hi.2 j hlt hj
    · have hlt : i < j := lt_of_le_of_ne hge (Ne.symm hne)
      rcases Nat.lt_or_ge j (i + find.length) with hover | hend
      · obtain ⟨k, hk, hoccurs⟩ := htold i j hi hj hlt hover
        exact hbehind k hk hoccurs
      · exact hbehind j hend hj
  · intro honly i j hi hj hlt _
    by_contra hnone
    have hbehind : ∀ k, i + find.length ≤ k → ¬ OccursAt find src k :=
      fun k hk hoccurs => hnone ⟨k, hk, hoccurs⟩
    obtain ⟨u, hu⟩ := honly _ ((spliced_eq_ok_iff hfind).mpr ⟨i, hi, hbehind, rfl⟩)
    exact hlt.ne ((hu.2 i hi.1).trans (hu.2 j hj).symm)

/-! ## The tool -/

/-- The path is allowed, holds the content, and can be written. -/
structure Ready (ws : Workspace) (fsPolicy : FsPolicy) (callId path src : Bytes) : Prop where
  allowed : checkWorkspacePath ws.stat fsPolicy callId path .write = none
  content : ws.readFileAlloc path = .ok src
  writable : ws.writeError path = none

/-- An error, and nothing changed. -/
def Refused (ws : Workspace) (r : ToolResult × Workspace) : Prop :=
  (∃ id detail, r.1.outcome = .err id detail) ∧ r.2 = ws

/-- What the tool promises for a file: it edits where there is just one occurrence, and there only
that one, and refuses everywhere else. -/
structure Promise (ws : Workspace) (args : EditArgs) (src : Bytes)
    (r : ToolResult × Workspace) : Prop where
  succeeds_iff : (∃ payload, r.1.outcome = .ok payload) ↔ ∃ i, UniqueAt args.find src i
  edited : ∀ i, UniqueAt args.find src i →
    r.2 = ws.put args.path (src.take i ++ args.replace ++ src.drop (i + args.find.length))
  refused : (¬ ∃ i, UniqueAt args.find src i) → Refused ws r

theorem handler_of_ready {ws : Workspace} {fsPolicy : FsPolicy} {callId src : Bytes}
    {args : EditArgs} (h : Ready ws fsPolicy callId args.path src) :
    handler ws fsPolicy callId (some args) =
      match spliced src args.find args.replace with
      | .error e => (e.result callId, ws)
      | .ok newBuf => (okResult callId (ascii "edited"), ws.put args.path newBuf) := by
  unfold handler
  simp only [h.allowed, h.content, Workspace.writeAtomic, h.writable]

/-- What cannot be read or written is not edited. -/
theorem refused_of_not_ready {ws : Workspace} {fsPolicy : FsPolicy} {callId : Bytes}
    {args : EditArgs} (h : ∀ src, ¬ Ready ws fsPolicy callId args.path src) :
    Refused ws (handler ws fsPolicy callId (some args)) := by
  unfold handler
  dsimp only
  cases hpath : checkWorkspacePath ws.stat fsPolicy callId args.path .write with
  | some result =>
    obtain ⟨errId, detail, rfl⟩ := checkWorkspacePath_err hpath
    exact ⟨⟨errId, detail, rfl⟩, rfl⟩
  | none =>
    dsimp only
    cases hread : ws.readFileAlloc args.path with
    | error e =>
      dsimp only
      split_ifs
      · exact ⟨⟨_, _, rfl⟩, rfl⟩
      · exact ⟨⟨_, _, rfl⟩, rfl⟩
    | ok src =>
      dsimp only
      cases hnew : spliced src args.find args.replace with
      | error e =>
        cases e with
        | noMatch => exact ⟨⟨_, _, rfl⟩, rfl⟩
        | ambiguous => exact ⟨⟨_, _, rfl⟩, rfl⟩
      | ok newBuf =>
        dsimp only
        unfold Workspace.writeAtomic
        cases hwrite : ws.writeError args.path with
        | some e => exact ⟨⟨_, _, rfl⟩, rfl⟩
        | none => exact absurd ⟨hpath, hread, hwrite⟩ (h src)

/-- **The tool keeps its promise** exactly where an occurrence that overlaps the first one is not
the last of them; what it cannot read or write it refuses. -/
theorem handler_iff (ws : Workspace) (fsPolicy : FsPolicy) (callId : Bytes) (args : EditArgs)
    (hfind : args.find ≠ []) :
    (∀ src, Ready ws fsPolicy callId args.path src →
      (Promise ws args src (handler ws fsPolicy callId (some args)) ↔ Told args.find src)) ∧
    ((∀ src, ¬ Ready ws fsPolicy callId args.path src) →
      Refused ws (handler ws fsPolicy callId (some args))) := by
  refine ⟨fun src hready => ?_, refused_of_not_ready⟩
  rw [handler_of_ready hready]
  constructor
  · intro hpromise
    refine (told_iff hfind args.replace).mpr fun new hnew => ?_
    refine hpromise.succeeds_iff.mp ⟨ascii "edited", ?_⟩
    rw [hnew]
    rfl
  · intro htold
    have honly := (told_iff hfind args.replace).mp htold
    cases hnew : spliced src args.find args.replace with
    | error e =>
      have hnone : ¬ ∃ i, UniqueAt args.find src i := by
        rintro ⟨i, hi⟩
        rw [hi.spliced_eq hfind] at hnew
        cases hnew
      refine ⟨?_, fun i hi => absurd ⟨i, hi⟩ hnone, fun _ => ⟨?_, rfl⟩⟩
      · refine iff_of_false ?_ hnone
        rintro ⟨payload, hpayload⟩
        cases e <;> cases hpayload
      · cases e with
        | noMatch => exact ⟨_, _, rfl⟩
        | ambiguous => exact ⟨_, _, rfl⟩
    | ok newBuf =>
      have hunique := honly newBuf hnew
      refine ⟨iff_of_true ⟨_, rfl⟩ hunique, fun i hi => ?_, fun hnone => absurd hunique hnone⟩
      rw [hi.spliced_eq hfind] at hnew
      rw [← Except.ok.inj hnew]

/-! ## An overlap -/

/-- A workspace with one file. -/
def oneFile (name bytes : Bytes) : Workspace where
  files p := if p = name then some bytes else none
  stat p := if p = name then .ok .file else .error (ascii "FileNotFound")

def writable : FsPolicy := { allowlist := [ascii "/"], writesAllowed := true }

theorem ready_oneFile (bytes : Bytes) :
    Ready (oneFile (ascii "f.txt") bytes) writable (ascii "c1") (ascii "f.txt") bytes := by
  have hallowed : checkWorkspacePath (oneFile (ascii "f.txt") []).stat writable (ascii "c1")
      (ascii "f.txt") .write = none := by decide
  exact ⟨hallowed, by simp [Workspace.readFileAlloc, oneFile], rfl⟩

theorem handler_iff_world :
    Promise (oneFile (ascii "f.txt") (ascii "hello world"))
        ⟨ascii "f.txt", ascii "world", ascii "zig"⟩ (ascii "hello world")
        (handler (oneFile (ascii "f.txt") (ascii "hello world")) writable (ascii "c1")
          (some ⟨ascii "f.txt", ascii "world", ascii "zig"⟩)) ↔
      Told (ascii "world") (ascii "hello world") :=
  (handler_iff (oneFile (ascii "f.txt") (ascii "hello world")) writable (ascii "c1")
    ⟨ascii "f.txt", ascii "world", ascii "zig"⟩ (by decide)).1 _ (ready_oneFile _)

/-- The string occurs twice in the file, and the tool edits it. -/
theorem overlap_edited :
    Ready (oneFile (ascii "f.txt") (ascii "aaa")) writable (ascii "c1") (ascii "f.txt")
        (ascii "aaa") ∧
      ¬ Promise (oneFile (ascii "f.txt") (ascii "aaa")) ⟨ascii "f.txt", ascii "aa", ascii "b"⟩
        (ascii "aaa")
        (handler (oneFile (ascii "f.txt") (ascii "aaa")) writable (ascii "c1")
          (some ⟨ascii "f.txt", ascii "aa", ascii "b"⟩)) := by
  refine ⟨ready_oneFile _, fun hpromise => ?_⟩
  have hedited : (handler (oneFile (ascii "f.txt") (ascii "aaa")) writable (ascii "c1")
      (some ⟨ascii "f.txt", ascii "aa", ascii "b"⟩)).1 =
        okResult (ascii "c1") (ascii "edited") := by decide
  obtain ⟨i, -, honly⟩ := hpromise.succeeds_iff.mp ⟨ascii "edited", by rw [hedited]; rfl⟩
  have hzero := honly 0 (by decide)
  have hone := honly 1 (by decide)
  omega

end Edit
end Tools
end TigerClaw
