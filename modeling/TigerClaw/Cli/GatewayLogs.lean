import TigerClaw.Basic
import TigerClaw.Library.Lines
import Mathlib.Data.List.Induction

/-!
# The log of the gateway

`gateway logs` of `src/cli/commands/gateway.zig`: the end of the log file is printed, and with
`--follow` what is appended to the file is printed after it, poll by poll.

* `printTail`, `runLogs`: the code.
* `LastLines`: a text is what the last lines of another take up.
* `lastLines_printTail_iff`: the last line counts only if it is ended, so that one line too many is
  printed where it is not, and there are more lines than are asked for.
* `follow_grown`, `follow_full`: what is appended is printed once, until the file has reached the
  limit of a read.
* `logs_exact_iff`: when exactly the right bytes are printed.
-/

namespace TigerClaw
namespace Cli
namespace GatewayLogs

open Lines (lines Ended)

def maxLogBytes : ℕ := 4 * 1024 * 1024

inductive LogsError where
  | fileReadFailed
  | interrupted

inductive PrintTailError where
  | fileMissing
  | fileReadFailed

/-- `readFileAlloc` with `.limited(max_log_bytes)`: a file that reaches the limit is too long. -/
def readFileAlloc : Option Bytes → Except PrintTailError Bytes
  | none => .error .fileMissing
  | some bytes => if bytes.length < maxLogBytes then .ok bytes else .error .fileReadFailed

def newline : UInt8 := 0x0A

/-- The loop of `printTail`, with `i` and `newlines_seen`: the index that is cut at. -/
def cutFrom (bytes : Bytes) (tail : ℕ) : ℕ → ℕ → ℕ
  | 0, _ => 0
  | i + 1, newlinesSeen =>
    if bytes[i]? = some newline then
      if tail < newlinesSeen + 1 then i + 1 else cutFrom bytes tail i (newlinesSeen + 1)
    else cutFrom bytes tail i newlinesSeen

/-- `printTail`: what is written, and how long the file is.  There are fewer newlines than
`newlines_seen` can count, by the limit. -/
def printTail (file : Option Bytes) (tail : UInt32) : Except PrintTailError (Bytes × ℕ) :=
  match readFileAlloc file with
  | .error err => .error err
  | .ok bytes =>
    if tail = 0 then .ok (bytes, bytes.length)
    else .ok (bytes.drop (cutFrom bytes tail.toNat bytes.length 0), bytes.length)

structure LogsRunOptions where
  path : Bytes
  tail : UInt32
  follow : Bool

/-- The loop of `runLogs`, with what has been written.  The file is polled until there is an
interrupt. -/
def follow (lastSize : ℕ) (out : Bytes) : List (Option Bytes) → Bytes × Except LogsError Unit
  | [] => (out, .error .interrupted)
  | file :: polls =>
    match readFileAlloc file with
    | .error .fileMissing => follow lastSize out polls
    | .error .fileReadFailed => (out, .error .fileReadFailed)
    | .ok bytes =>
      if bytes.length < lastSize then follow bytes.length (out ++ bytes) polls
      else if lastSize < bytes.length then follow bytes.length (out ++ bytes.drop lastSize) polls
      else follow lastSize out polls

/-- `runLogs`: what is written, and how it returns. -/
def runLogs (opts : LogsRunOptions) (file : Option Bytes) (polls : List (Option Bytes)) :
    Bytes × Except LogsError Unit :=
  match printTail file opts.tail with
  | .error .fileMissing => (ascii "no log file yet at " ++ opts.path ++ ascii "\n", .ok ())
  | .error .fileReadFailed => ([], .error .fileReadFailed)
  | .ok (written, printed) =>
    if opts.follow then follow printed written polls else (written, .ok ())

/-! ## What is to be written -/

/-- The text of the last lines; a last line that is not ended is one. -/
structure LastLines (bytes : Bytes) (tail : ℕ) (out : Bytes) : Prop where
  suffix : out <:+ bytes
  lines : lines newline out = (lines newline bytes).drop ((lines newline bytes).length - tail)

/-- What the polls find when the file grows by a chunk before each. -/
def grown (bytes : Bytes) : List Bytes → List (Option Bytes)
  | [] => []
  | chunk :: chunks => some (bytes ++ chunk) :: grown (bytes ++ chunk) chunks

/-- The right bytes are written: the last lines at first, and what is appended to a file within the
limit behind them. -/
def Exact (path bytes : Bytes) (tail : UInt32) (chunks : List Bytes) : Prop :=
  ∃ out, printTail (some bytes) tail = .ok (out, bytes.length) ∧ LastLines bytes tail.toNat out ∧
    (bytes.length + chunks.flatten.length ≤ maxLogBytes →
      (runLogs { path, tail, follow := true } (some bytes) (grown bytes chunks)).1 =
        out ++ chunks.flatten)

/-! ## The tail -/

/-- **Where the loop cuts**: in front of everything, or behind the newline that has as many behind
it as are to be skipped. -/
theorem cutFrom_spec {tail : ℕ} (front more : Bytes) {newlinesSeen : ℕ}
    (h : newlinesSeen ≤ tail) :
    (front.count newline + newlinesSeen ≤ tail ∧
      cutFrom (front ++ more) tail front.length newlinesSeen = 0) ∨
    ∃ a b, front = a ++ newline :: b ∧ b.count newline + newlinesSeen = tail ∧
      cutFrom (front ++ more) tail front.length newlinesSeen = a.length + 1 := by
  induction front using List.reverseRecOn generalizing more newlinesSeen with
  | nil => exact Or.inl ⟨by simpa using h, rfl⟩
  | append_singleton front b ih =>
    have hget : (front ++ [b] ++ more)[front.length]? = some b := by simp
    have hmore : front ++ [b] ++ more = front ++ (b :: more) := by simp
    rw [List.length_append, List.length_singleton, cutFrom, hget]
    by_cases hb : b = newline
    · subst hb
      rw [if_pos rfl]
      by_cases hlast : tail < newlinesSeen + 1
      · refine Or.inr ⟨front, [], rfl, ?_, if_pos hlast⟩
        rw [List.count_nil]
        omega
      · rw [if_neg hlast, hmore]
        rcases ih (newline :: more) (Nat.not_lt.mp hlast) with ⟨hle, hcut⟩ | ⟨a, c, rfl, hc, hcut⟩
        · refine Or.inl ⟨?_, hcut⟩
          rw [List.count_append, List.count_singleton_self]
          omega
        · refine Or.inr ⟨a, c ++ [newline], by simp, ?_, hcut⟩
          rw [List.count_append, List.count_singleton_self]
          omega
    · have hnot : ¬ some b = some newline := fun heq => hb (Option.some.inj heq)
      have hcount : [b].count newline = 0 := List.count_singleton.trans (by simp [hb])
      rw [if_neg hnot, hmore]
      rcases ih (b :: more) h with ⟨hle, hcut⟩ | ⟨a, c, rfl, hc, hcut⟩
      · refine Or.inl ⟨?_, hcut⟩
        rw [List.count_append, hcount]
        exact hle
      · refine Or.inr ⟨a, c ++ [b], by simp, ?_, hcut⟩
        rw [List.count_append, hcount]
        exact hc

/-- Of whole lines in front, and what is behind them, the latter are the last lines if they are as
many. -/
theorem lastLines_append_iff {front out : Bytes} (h : Ended newline front) (tail : ℕ) :
    LastLines (front ++ out) tail out ↔
      (lines newline out).length = min tail (lines newline (front ++ out)).length := by
  have hlines := Lines.lines_append_of_ended h out
  have hlength := congrArg List.length hlines
  rw [List.length_append] at hlength
  constructor
  · intro hlast
    have heq := congrArg List.length hlast.lines
    rw [List.length_drop] at heq
    omega
  · intro hout
    refine ⟨List.suffix_append front out, ?_⟩
    have hdrop : (lines newline (front ++ out)).length - tail = (lines newline front).length := by
      omega
    rw [hdrop, hlines, List.drop_left]

/-- The last line is counted as it should. -/
def Counted (bytes : Bytes) (tail : ℕ) : Prop :=
  Ended newline bytes ∨ (lines newline bytes).length ≤ tail

/-- **The loop finds the last lines** exactly if the last line is ended, or all are asked for. -/
theorem lastLines_cutFrom_iff (bytes : Bytes) (tail : ℕ) :
    LastLines bytes tail (bytes.drop (cutFrom bytes tail bytes.length 0)) ↔
      Counted bytes tail := by
  have hspec := cutFrom_spec bytes [] (Nat.zero_le tail)
  rw [List.append_nil] at hspec
  unfold Counted
  rcases hspec with ⟨hcount, hcut⟩ | ⟨a, b, rfl, hcount, hcut⟩
  · have hall := @lastLines_append_iff [] bytes (Or.inl rfl) tail
    have hlength := Lines.length_lines (d := newline) bytes
    rw [List.nil_append] at hall
    rw [hcut, List.drop_zero, hall]
    by_cases hended : Ended newline bytes
    · rw [if_pos hended] at hlength
      exact iff_of_true (by omega) (Or.inl hended)
    · rw [or_iff_right hended]
      omega
  · have hfront : Ended newline (a ++ [newline]) := Or.inr List.getLast?_concat
    have hbytes : a ++ newline :: b = (a ++ [newline]) ++ b := by simp
    have hlines := congrArg List.length (Lines.lines_append_of_ended hfront b)
    have hpos := Lines.length_lines (d := newline) (a ++ [newline])
    have hlength := Lines.length_lines (d := newline) b
    rw [if_pos hfront, List.count_append, List.count_singleton_self] at hpos
    rw [List.length_append, ← hbytes] at hlines
    have hdrop : (a ++ newline :: b).drop (a.length + 1) = b := by
      rw [hbytes, List.drop_left' (by simp)]
    have hlast := @lastLines_append_iff (a ++ [newline]) b hfront tail
    rw [← hbytes] at hlast
    rw [hcut, hdrop, hlast, Lines.ended_append]
    by_cases hended : Ended newline b
    · rw [if_pos hended] at hlength
      exact iff_of_true (by omega) (Or.inl hended)
    · rw [if_neg hended] at hlength
      rw [or_iff_right hended]
      omega

theorem readFileAlloc_of_lt {bytes : Bytes} (h : bytes.length < maxLogBytes) :
    readFileAlloc (some bytes) = .ok bytes := if_pos h

theorem readFileAlloc_of_not_lt {bytes : Bytes} (h : ¬ bytes.length < maxLogBytes) :
    readFileAlloc (some bytes) = .error .fileReadFailed := if_neg h

theorem printTail_of_lt {bytes : Bytes} (h : bytes.length < maxLogBytes) {tail : UInt32}
    (htail : tail ≠ 0) :
    printTail (some bytes) tail =
      .ok (bytes.drop (cutFrom bytes tail.toNat bytes.length 0), bytes.length) := by
  rw [printTail, readFileAlloc_of_lt h]
  exact if_neg htail

/-- **`printTail` writes the last lines** exactly if the file can be read, and the last line is
counted. -/
theorem lastLines_printTail_iff (bytes : Bytes) {tail : UInt32} (htail : tail ≠ 0) :
    (∃ out, printTail (some bytes) tail = .ok (out, bytes.length) ∧
      LastLines bytes tail.toNat out) ↔
      bytes.length < maxLogBytes ∧ Counted bytes tail.toNat := by
  by_cases h : bytes.length < maxLogBytes
  · rw [printTail_of_lt h htail, and_iff_right h, ← lastLines_cutFrom_iff]
    constructor
    · rintro ⟨out, heq, hlast⟩
      obtain ⟨rfl, -⟩ := Prod.mk.inj (Except.ok.inj heq)
      exact hlast
    · exact fun hlast => ⟨_, rfl, hlast⟩
  · refine iff_of_false ?_ fun hboth => h hboth.1
    rintro ⟨out, heq, -⟩
    rw [printTail, readFileAlloc_of_not_lt h] at heq
    cases heq

/-! ## The polls -/

/-- A poll of a file that has grown, and can be read, writes what is new. -/
theorem follow_cons_of_lt {seen chunk : Bytes} (h : (seen ++ chunk).length < maxLogBytes)
    (out : Bytes) (polls : List (Option Bytes)) :
    follow seen.length out (some (seen ++ chunk) :: polls) =
      follow (seen ++ chunk).length (out ++ chunk) polls := by
  rw [follow, readFileAlloc, if_pos h]
  have hle : ¬ (seen ++ chunk).length < seen.length := by
    rw [List.length_append]
    omega
  dsimp only
  rw [if_neg hle, List.drop_left]
  split
  · rfl
  · rename_i hsame
    have hnil : chunk = [] := by
      rw [List.length_append] at hsame
      exact List.eq_nil_of_length_eq_zero (by omega)
    rw [hnil, List.append_nil, List.append_nil]

/-- **A file that stays below the limit** is followed to its end. -/
theorem follow_grown (chunks : List Bytes) {seen : Bytes}
    (h : seen.length + chunks.flatten.length < maxLogBytes) (out : Bytes) :
    follow seen.length out (grown seen chunks) = (out ++ chunks.flatten, .error .interrupted) := by
  induction chunks generalizing seen out with
  | nil => rw [grown, follow, List.flatten_nil, List.append_nil]
  | cons chunk chunks ih =>
    rw [List.flatten_cons, List.length_append] at h
    have hrest : (seen ++ chunk).length + chunks.flatten.length < maxLogBytes := by
      rw [List.length_append]
      omega
    have hhere : (seen ++ chunk).length < maxLogBytes := by omega
    rw [grown, follow_cons_of_lt hhere, ih hrest, List.flatten_cons, List.append_assoc]

/-- **A file that comes to the limit** is not. -/
theorem follow_full (chunks : List Bytes) {seen : Bytes} (hseen : seen.length < maxLogBytes)
    (h : maxLogBytes ≤ seen.length + chunks.flatten.length) (out : Bytes) :
    ∃ more, (follow seen.length out (grown seen chunks)).1 = out ++ more ∧
      more.length < chunks.flatten.length := by
  induction chunks generalizing seen out with
  | nil =>
    rw [List.flatten_nil, List.length_nil] at h
    omega
  | cons chunk chunks ih =>
    rw [List.flatten_cons, List.length_append] at h
    by_cases hhere : (seen ++ chunk).length < maxLogBytes
    · have hrest : maxLogBytes ≤ (seen ++ chunk).length + chunks.flatten.length := by
        rw [List.length_append]
        omega
      obtain ⟨more, hmore, hlt⟩ := ih hhere hrest (out ++ chunk)
      refine ⟨chunk ++ more, ?_, ?_⟩
      · rw [grown, follow_cons_of_lt hhere, hmore, List.append_assoc]
      · rw [List.flatten_cons, List.length_append, List.length_append]
        omega
    · refine ⟨[], ?_, ?_⟩
      · rw [grown, follow, readFileAlloc, if_neg hhere, List.append_nil]
      · rw [List.length_append] at hhere
        rw [List.flatten_cons, List.length_append, List.length_nil]
        omega

theorem runLogs_follow {path bytes : Bytes} (h : bytes.length < maxLogBytes) {tail : UInt32}
    (htail : tail ≠ 0) (polls : List (Option Bytes)) :
    runLogs { path, tail, follow := true } (some bytes) polls =
      follow bytes.length (bytes.drop (cutFrom bytes tail.toNat bytes.length 0)) polls := by
  unfold runLogs
  rw [printTail_of_lt h htail]
  rfl

/-- **The right bytes are written** exactly if the file can be read, its last line is ended unless
all lines are asked for, and it does not come to the limit while it is followed. -/
theorem logs_exact_iff (path bytes : Bytes) {tail : UInt32} (htail : 1 ≤ tail)
    (chunks : List Bytes) :
    Exact path bytes tail chunks ↔
      bytes.length < maxLogBytes ∧ Counted bytes tail.toNat ∧
        bytes.length + chunks.flatten.length ≠ maxLogBytes := by
  have hne : tail ≠ 0 := by
    rintro rfl
    exact absurd htail (by decide)
  constructor
  · rintro ⟨out, hprint, hlast, hfollow⟩
    obtain ⟨hlt, hcounted⟩ := (lastLines_printTail_iff bytes hne).mp ⟨out, hprint, hlast⟩
    refine ⟨hlt, hcounted, fun hfull => ?_⟩
    rw [printTail_of_lt hlt hne] at hprint
    obtain ⟨rfl, -⟩ := Prod.mk.inj (Except.ok.inj hprint)
    obtain ⟨more, hmore, hshort⟩ := follow_full chunks hlt (Nat.le_of_eq hfull.symm)
      (bytes.drop (cutFrom bytes tail.toNat bytes.length 0))
    have heq := hfollow (Nat.le_of_eq hfull)
    rw [runLogs_follow hlt hne, hmore] at heq
    rw [List.append_cancel_left heq] at hshort
    exact Nat.lt_irrefl _ hshort
  · rintro ⟨hlt, hcounted, hfull⟩
    obtain ⟨out, hprint, hlast⟩ := (lastLines_printTail_iff bytes hne).mpr ⟨hlt, hcounted⟩
    refine ⟨out, hprint, hlast, fun hle => ?_⟩
    rw [printTail_of_lt hlt hne] at hprint
    obtain ⟨rfl, -⟩ := Prod.mk.inj (Except.ok.inj hprint)
    rw [runLogs_follow hlt hne, follow_grown chunks (by omega)]

/-- The last line of a file that ends with a line feed is printed, and what is appended. -/
theorem logs_exact_ended : Exact (ascii "gateway.log") (ascii "a\nb\n") 1 [ascii "c\n"] :=
  (logs_exact_iff (ascii "gateway.log") (ascii "a\nb\n") (by decide) [ascii "c\n"]).mpr
    ⟨by decide, Or.inl (Or.inr rfl), by decide⟩

/-- Of two lines, the last of which is not ended, both are printed where one is asked for. -/
theorem two_lines_printed : ¬ Exact (ascii "gateway.log") (ascii "a\nb") 1 [] := by
  rintro ⟨out, hprint, hlast, -⟩
  have hboth : out = ascii "a\nb" := by
    rw [printTail_of_lt (by decide) (by decide)] at hprint
    exact (Prod.mk.inj (Except.ok.inj hprint)).1.symm
  have hlines := hlast.lines
  rw [hboth] at hlines
  exact absurd hlines (by decide)

end GatewayLogs
end Cli
end TigerClaw
