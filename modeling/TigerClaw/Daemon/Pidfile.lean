import Mathlib.Algebra.Group.Int.Defs
import Mathlib.Algebra.Group.Nat.Defs
import Mathlib.Data.List.DropRight
import Mathlib.Data.Nat.Basic
import Mathlib.Logic.Function.Basic
import Mathlib.Tactic.NormNum.Basic
import Mathlib.Tactic.Positivity
import TigerClaw.Basic
import TigerClaw.Library.Digits

/-!
# The pid file

`daemon/pidfile.zig`.  A file that is open is not its name: the name can be unlinked, and who has
the file open goes on writing to it.

* `Dir`: one name, and the files that it has stood for.  `createFile`, `write`, `remove`.
* `read`, `isStale`: what is asked about the file.
* `parsePid_render`: what is written completely is read back.
* `parsePid_take`: what is left of it when the write is torn is the pid of someone else.
-/

namespace TigerClaw
namespace Daemon

namespace Pidfile

open Digits

/-- One name in a directory.  The files themselves are counted. -/
structure Dir where
  link : Option ℕ := none
  data : ℕ → Bytes := fun _ => []
  next : ℕ := 0

namespace Dir

def contents (self : Dir) : Option Bytes := self.link.map self.data

/-- `createFile` with `truncate`: the directory, and the file that is open then. -/
def createFile (self : Dir) : Dir × ℕ :=
  match self.link with
  | some inode => ({ self with data := Function.update self.data inode [] }, inode)
  | none =>
    ({ link := some self.next
       data := Function.update self.data self.next []
       next := self.next + 1 }, self.next)

/-- A write at the beginning of an open file. -/
def write (self : Dir) (inode : ℕ) (bytes : Bytes) : Dir :=
  { self with
    data := Function.update self.data inode (bytes ++ (self.data inode).drop bytes.length) }

/-- `deleteFile`. -/
def remove (self : Dir) : Dir := { self with link := none }

/-- The file that has been created is empty, and it is the one that the name stands for. -/
theorem createFile_spec (self : Dir) :
    self.createFile.1.link = some self.createFile.2 ∧
      self.createFile.1.data self.createFile.2 = [] := by
  rw [createFile]
  split
  · exact ⟨‹_›, Function.update_self ..⟩
  · exact ⟨rfl, Function.update_self ..⟩

theorem contents_write {self : Dir} {inode : ℕ} (hlink : self.link = some inode)
    (hdata : self.data inode = []) (bytes : Bytes) :
    (self.write inode bytes).contents = some bytes := by
  simp [contents, write, hlink, hdata]

end Dir

/-! ## What the file says -/

/-- What is written: the pid and a line feed. -/
def render (pid : ℤ) : Bytes := decimalInt pid ++ [0x0A]

def isBlank (b : UInt8) : Bool := b = 0x20 || b = 0x09 || b = 0x0D || b = 0x0A

/-- `std.mem.trim`. -/
def trim (s : Bytes) : Bytes := (s.dropWhile isBlank).rdropWhile isBlank

/-- An `i32` in the first 32 bytes. -/
def parsePid (content : Bytes) : Option ℤ :=
  let trimmed := trim (content.take 32)
  if trimmed = [] then none
  else (parseInt trimmed).filter fun n => decide (-2 ^ 31 ≤ n ∧ n < 2 ^ 31)

inductive ReadError where
  | fileMissing
  | corrupt
  | ioFailure

def read (dir : Dir) (fault : Bool) : Except ReadError ℤ :=
  if fault then .error .ioFailure
  else
    match dir.contents with
    | none => .error .fileMissing
    | some content =>
      match parsePid content with
      | none => .error .corrupt
      | some pid => .ok pid

/-- What `kill` can answer. -/
inductive KillError where
  | processNotFound
  | permissionDenied

/-- The file is read again, and the pid is asked for. -/
def isStale (dir : Dir) (kill : ℤ → Except KillError Unit) (fault : Bool) : Bool :=
  match read dir fault with
  | .error _ => true
  | .ok pid =>
    match kill pid with
    | .error .processNotFound => true
    | _ => false

theorem read_eq {dir : Dir} {content : Bytes} (h : dir.contents = some content) :
    read dir false = match parsePid content with
      | none => .error .corrupt
      | some pid => .ok pid := by
  rw [read, if_neg Bool.false_ne_true, h]

/-- A pid that is read is in the file. -/
theorem parsePid_of_read {dir : Dir} {fault : Bool} {content : Bytes} {pid : ℤ}
    (hdir : dir.contents = some content) (h : read dir fault = .ok pid) :
    parsePid content = some pid := by
  cases fault with
  | true => cases h
  | false =>
    rw [read_eq hdir] at h
    split at h
    · cases h
    · rename_i n hn
      rw [hn, Except.ok.inj h]

theorem not_isBlank {b : UInt8} (h : isDigit b = true ∨ b = 0x2D) : ¬ isBlank b = true := by
  intro hblank
  simp only [isBlank, Bool.or_eq_true, decide_eq_true_eq] at hblank
  rcases hblank with ((rfl | rfl) | rfl) | rfl <;> exact absurd h (by decide)

theorem decimalInt_ne_nil (n : ℤ) : decimalInt n ≠ [] := by
  cases n with
  | ofNat n =>
    obtain ⟨d, ds, heq, -⟩ := decimal_eq_cons n
    rw [decimalInt, heq]
    exact List.cons_ne_nil _ _
  | negSucc n => exact List.cons_ne_nil _ _

theorem rdropWhile_append_blanks (s : Bytes) {blanks : Bytes}
    (h : ∀ b ∈ blanks, isBlank b = true) :
    (s ++ blanks).rdropWhile isBlank = s.rdropWhile isBlank := by
  induction blanks using List.reverseRecOn with
  | nil => rw [List.append_nil]
  | append_singleton bs b ih =>
    rw [← List.append_assoc, List.rdropWhile_concat_pos _ _ _ (h b (by simp))]
    exact ih fun b hb => h b (List.mem_append_left _ hb)

/-- Blanks behind a number are trimmed. -/
theorem trim_decimalInt (n : ℤ) {blanks : Bytes} (h : ∀ b ∈ blanks, isBlank b = true) :
    trim (decimalInt n ++ blanks) = decimalInt n := by
  have hdrop : (decimalInt n ++ blanks).dropWhile isBlank = decimalInt n ++ blanks := by
    obtain ⟨b, bs, hbytes⟩ := List.exists_cons_of_ne_nil (decimalInt_ne_nil n)
    have hb : ¬ isBlank b = true :=
      not_isBlank (isDigit_or_minus_of_mem_decimalInt (hbytes ▸ List.mem_cons_self))
    rw [hbytes, List.cons_append, List.dropWhile_cons_of_neg hb]
  rw [trim, hdrop, rdropWhile_append_blanks _ h]
  exact List.rdropWhile_eq_self_iff.mpr fun hne =>
    not_isBlank (isDigit_or_minus_of_mem_decimalInt (List.getLast_mem hne))

theorem length_decimal_le {n k : ℕ} (h : n < 10 ^ (k + 1)) : (decimal n).length ≤ k + 1 := by
  induction k generalizing n with
  | zero => rw [decimal, if_pos (by omega), List.length_singleton]
  | succ k ih =>
    rw [decimal]
    split
    · rw [List.length_singleton]
      omega
    · rw [List.length_append, List.length_singleton]
      have := ih (n := n / 10) (by rw [pow_succ] at h; omega)
      omega

theorem length_decimalInt_le {n : ℤ} (h : -2 ^ 31 ≤ n ∧ n < 2 ^ 31) :
    (decimalInt n).length ≤ 11 := by
  cases n with
  | ofNat n =>
    have := length_decimal_le (n := n) (k := 9) (by simp at h; omega)
    rw [decimalInt]
    omega
  | negSucc n =>
    have := length_decimal_le (n := n + 1) (k := 9) (by omega)
    rw [decimalInt, List.length_cons]
    omega

/-- A number with a few blanks behind it is read. -/
theorem parsePid_decimalInt {n : ℤ} (h : -2 ^ 31 ≤ n ∧ n < 2 ^ 31) {blanks : Bytes}
    (hblanks : ∀ b ∈ blanks, isBlank b = true) (hlength : blanks.length ≤ 21) :
    parsePid (decimalInt n ++ blanks) = some n := by
  have hfits : (decimalInt n ++ blanks).length ≤ 32 := by
    have := length_decimalInt_le h
    rw [List.length_append]
    omega
  rw [parsePid, List.take_of_length_le hfits, trim_decimalInt n hblanks,
    if_neg (decimalInt_ne_nil n), parseInt_decimalInt, Option.filter_some, if_pos]
  exact decide_eq_true h

/-- **What is written completely is read back.** -/
theorem parsePid_render {n : ℤ} (h : -2 ^ 31 ≤ n ∧ n < 2 ^ 31) : parsePid (render n) = some n :=
  parsePid_decimalInt h (by simp [isBlank]) (by simp)

theorem take_decimal {n k : ℕ} (hpos : 0 < k) (hk : k ≤ (decimal n).length) :
    (decimal n).take k = decimal (n / 10 ^ ((decimal n).length - k)) := by
  induction n using decimal.induct generalizing k with
  | case1 n hn =>
    have hlength : (decimal n).length = 1 := by rw [decimal, if_pos hn, List.length_singleton]
    rw [List.take_of_length_le (by omega), show (decimal n).length - k = 0 by omega, pow_zero,
      Nat.div_one]
  | case2 n hn ih =>
    have heq : decimal n = decimal (n / 10) ++ [digit (n % 10)] := by
      conv_lhs => rw [decimal, if_neg hn]
    have hlength : (decimal n).length = (decimal (n / 10)).length + 1 := by
      rw [heq, List.length_append, List.length_singleton]
    by_cases hall : k ≤ (decimal (n / 10)).length
    · rw [heq, List.take_append_of_le_length hall, ih hpos hall, ← heq, hlength,
        show (decimal (n / 10)).length + 1 - k = (decimal (n / 10)).length - k + 1 by omega,
        pow_succ', Nat.div_div_eq_div_mul]
    · rw [List.take_of_length_le (by omega), show (decimal n).length - k = 0 by omega, pow_zero,
        Nat.div_one]

/-- **A write that is torn between two digits** leaves the pid of someone else. -/
theorem parsePid_take {p k : ℕ} (hp : p < 2 ^ 31) (hpos : 0 < k) (hk : k ≤ (decimal p).length) :
    parsePid ((render p).take k) = some ((p / 10 ^ ((decimal p).length - k) : ℕ) : ℤ) := by
  obtain ⟨m, hm⟩ : ∃ m, m = p / 10 ^ ((decimal p).length - k) := ⟨_, rfl⟩
  have hle : m ≤ p := hm ▸ Nat.div_le_self _ _
  have htake : (render p).take k = decimalInt m ++ [] := by
    have hp : decimalInt p = decimal p := rfl
    rw [List.append_nil, render, hp, List.take_append_of_le_length hk, take_decimal hpos hk, ← hm]
    rfl
  rw [htake, ← hm]
  exact parsePid_decimalInt (by omega) (by simp) (by simp)

end Pidfile

end Daemon
end TigerClaw
