import TigerClaw.Basic
import TigerClaw.Library.Digits
import TigerClaw.Library.RotatingLog
import TigerClaw.Library.StepMachine

/-!
# The builtin memory provider

`src/memory/builtin.zig`, a provider that has been initialized.  Every turn is appended to
`MEMORY.md`, which is renamed before when it would grow past a threshold; its content goes into the
system prompt, through a cache.  Any operation on a file may fail, and then the call does.

* `Write`: what has been written to a file in one go.  A file is the list of its writes.
* `Builtin.syncTurn`, `Builtin.systemPromptBlock`: the code.
* `Coherent`: the system prompt has the current content, and the turns that were reported as stored
  stand in one of the files each.
* `Careful`: a rotation does not meet with a file that has turns, and a call that fails does not
  leave a cache of what it has changed.
* `coherent_iff`: the first holds all along a run exactly if its calls do the second.
-/

namespace TigerClaw
namespace Memory

open RotatingLog (Files entries Held Unique)

/-! ## The provider -/

inductive MemoryError where
  | backendFailure
  | outOfMemory
  | invalidQuery

structure TurnPair where
  user : Bytes
  assistant : Bytes

/-- What has been written to a file in one go; `turn` is the number of the call of `syncTurn` whose
whole text it is.  That number is for statements only. -/
structure Write where
  turn : Option ℕ := none
  bytes : Bytes
  deriving DecidableEq

abbrev Dir : Type := Files Bytes Write

def contents (dir : Dir) (name : Bytes) : Bytes := (entries dir name).flatMap Write.bytes

def currentFile : Bytes := ascii "MEMORY.md"

/-- The name that `rotate` gives the file. -/
def rotatedFile (ts : ℤ) : Bytes := currentFile ++ ascii "." ++ Digits.decimalInt ts

/-- The text of a turn. -/
def turnText (ts : ℤ) (pair : TurnPair) : Bytes :=
  ascii "## turn @ " ++ Digits.decimalInt ts ++ ascii "\n- user: " ++ pair.user ++
    ascii "\n- assistant: " ++ pair.assistant ++ ascii "\n\n"

/-- The operation of a `syncTurn` that fails, if the call comes to it. -/
inductive Fault where
  | store
  | alloc
  | stat
  | rename
  | create
  | length
  /-- After some bytes have been written. -/
  | write (n : ℕ)
  deriving DecidableEq

structure Builtin where
  dir : Dir
  cachedBlock : Option Bytes := none
  /-- How often `syncTurn` has been called, and what it has reported as stored; both are for
  statements only. -/
  calls : ℕ := 0
  stored : List Write := []

/-- The file would grow past the threshold. -/
def Overfull (threshold : ℕ) (dir : Dir) (ts : ℤ) (pair : TurnPair) : Prop :=
  0 < (contents dir currentFile).length ∧
    threshold < (contents dir currentFile).length + (turnText ts pair).length

instance (threshold : ℕ) (dir : Dir) (ts : ℤ) (pair : TurnPair) :
    Decidable (Overfull threshold dir ts pair) := inferInstanceAs (Decidable (_ ∧ _))

/-- `rotate`, where it does not fail. -/
def rotate (dir : Dir) (ts : ℤ) : Dir := RotatingLog.rename dir currentFile (rotatedFile ts)

/-- `appendToMemoryFile` from `createFile` on. -/
def appendLine (dir : Dir) (call : ℕ) (line : Bytes) (fault : Option Fault) :
    Except MemoryError Unit × Dir :=
  match fault with
  | some .create => (.error .backendFailure, dir)
  | some .length => (.error .backendFailure, RotatingLog.append dir currentFile [])
  | some (.write n) =>
    (.error .backendFailure, RotatingLog.append dir currentFile [{ bytes := line.take n }])
  | _ => (.ok (), RotatingLog.append dir currentFile [{ turn := some call, bytes := line }])

/-- `appendToMemoryFile`; `call` is the number of the call. -/
def appendToMemoryFile (threshold : ℕ) (dir : Dir) (call : ℕ) (ts : ℤ) (pair : TurnPair)
    (fault : Option Fault) : Except MemoryError Unit × Dir :=
  let line := turnText ts pair
  if fault = some .alloc then (.error .outOfMemory, dir)
  else if fault = some .stat then (.error .backendFailure, dir)
  else if Overfull threshold dir ts pair then
    if fault = some .rename then (.error .backendFailure, dir)
    else appendLine (rotate dir ts) call line fault
  else appendLine dir call line fault

namespace Builtin

def syncTurn (threshold : ℕ) (self : Builtin) (ts : ℤ) (pair : TurnPair) (fault : Option Fault) :
    Except MemoryError Unit × Builtin :=
  if fault = some .store then
    (.error .backendFailure, { self with calls := self.calls + 1 })
  else
    match appendToMemoryFile threshold self.dir self.calls ts pair fault with
    | (.error e, dir) => (.error e, { self with dir, calls := self.calls + 1 })
    | (.ok (), dir) =>
      (.ok (), { dir
                 cachedBlock := none
                 calls := self.calls + 1
                 stored := self.stored ++
                   [{ turn := some self.calls, bytes := turnText ts pair }] })

/-- `systemPromptBlock`; `fault` is how the file cannot be read. -/
def systemPromptBlock (self : Builtin) (fault : Option MemoryError) :
    Except MemoryError Bytes × Builtin :=
  match self.cachedBlock with
  | some block => (.ok block, self)
  | none =>
    match fault with
    | some e => (.error e, self)
    | none =>
      let block := contents self.dir currentFile
      (.ok block, { self with cachedBlock := some block })

end Builtin

/-- A call of the provider. -/
inductive Call where
  | syncTurn (ts : ℤ) (pair : TurnPair) (fault : Option Fault)
  | systemPromptBlock (fault : Option MemoryError)

def Builtin.serve (threshold : ℕ) (self : Builtin) : Call → Builtin
  | .syncTurn ts pair fault => (self.syncTurn threshold ts pair fault).2
  | .systemPromptBlock fault => (self.systemPromptBlock fault).2

def step (threshold : ℕ) (self : Builtin) (call : Call) : Option Builtin :=
  some (self.serve threshold call)

/-- A provider in front of its first call, on a directory that has some files. -/
def start (files : Bytes → Option Bytes) : Builtin where
  dir := fun name => (files name).map fun bytes => [{ bytes }]

/-! ## The property and the condition -/

/-- `MEMORY.md` and what it is renamed to. -/
def IsMemoryFile (name : Bytes) : Prop := name = currentFile ∨ ∃ ts, name = rotatedFile ts

structure Coherent (b : Builtin) : Prop where
  /-- What `systemPromptBlock` returns is the content of `MEMORY.md`. -/
  prompt : ∀ fault block, (b.systemPromptBlock fault).1 = .ok block →
    block = contents b.dir currentFile
  /-- What has been reported as stored is in exactly one of the files. -/
  turns : ∀ w ∈ b.stored, ∃! name, IsMemoryFile name ∧ w ∈ entries b.dir name

/-- The call does not come to `createFile`, if it comes to the operation that fails. -/
def Fault.early : Fault → Bool
  | .store | .alloc | .stat | .rename => true
  | .create | .length | .write _ => false

/-- A rotation renames the file. -/
def Rotates (threshold : ℕ) (self : Builtin) (ts : ℤ) (pair : TurnPair) (fault : Option Fault) :
    Prop :=
  Overfull threshold self.dir ts pair ∧ ¬ fault.any Fault.early = true

/-- The call does not fail after it has changed what `MEMORY.md` says. -/
def Harmless (threshold : ℕ) (self : Builtin) (ts : ℤ) (pair : TurnPair) : Option Fault → Prop
  | some .create | some .length => ¬ Overfull threshold self.dir ts pair
  | some (.write n) =>
    if Overfull threshold self.dir ts pair then
      contents self.dir currentFile = (turnText ts pair).take n
    else n = 0
  | _ => True

/-- **What keeps the provider coherent.** -/
def Careful (threshold : ℕ) (self : Builtin) : Call → Prop
  | .syncTurn ts pair fault =>
    (Rotates threshold self ts pair fault →
      ∀ w ∈ self.stored, w ∉ entries self.dir (rotatedFile ts)) ∧
    (self.cachedBlock = none ∨ Harmless threshold self ts pair fault)
  | .systemPromptBlock _ => True

/-! ## What holds of the files in every state -/

theorem currentFile_ne_rotatedFile (ts : ℤ) : currentFile ≠ rotatedFile ts := by
  intro h
  have hlength := congrArg List.length h
  rw [rotatedFile, List.append_assoc, List.length_append, List.length_append] at hlength
  have hdot : (ascii ".").length = 1 := rfl
  omega

/-- The text of a turn stands in one of the files of the memory, and only there. -/
structure Tidy (calls : ℕ) (dir : Dir) : Prop where
  numbered : ∀ name, ∀ w ∈ entries dir name, ∀ t, w.turn = some t → t < calls
  unique : ∀ w : Write, w.turn ≠ none → Unique dir w
  placed : ∀ name, ∀ w ∈ entries dir name, w.turn ≠ none → IsMemoryFile name

variable {calls : ℕ} {dir : Dir}

theorem Tidy.succ (h : Tidy calls dir) : Tidy (calls + 1) dir :=
  ⟨fun name w hw t ht => Nat.lt_succ_of_lt (h.numbered name w hw t ht), h.unique, h.placed⟩

theorem Tidy.rotate (h : Tidy calls dir) (ts : ℤ) : Tidy calls (rotate dir ts) where
  numbered name w hw t ht := by
    rcases (RotatingLog.mem_entries_rename (currentFile_ne_rotatedFile ts)).mp hw with
      ⟨-, hmem⟩ | ⟨-, -, hmem⟩
    · exact h.numbered _ w hmem t ht
    · exact h.numbered _ w hmem t ht
  unique w hw := (h.unique w hw).rename (currentFile_ne_rotatedFile ts)
  placed name w hw hturn := by
    rcases (RotatingLog.mem_entries_rename (currentFile_ne_rotatedFile ts)).mp hw with
      ⟨hname, -⟩ | ⟨-, -, hmem⟩
    · exact .inr ⟨ts, hname⟩
    · exact h.placed name w hmem hturn

/-- Something else than the text of a turn is appended. -/
theorem Tidy.append (h : Tidy calls dir) {ws : List Write} (hws : ∀ w ∈ ws, w.turn = none) :
    Tidy calls (RotatingLog.append dir currentFile ws) where
  numbered name w hw t ht := by
    rcases RotatingLog.mem_entries_append.mp hw with hmem | ⟨-, hmem⟩
    · exact h.numbered name w hmem t ht
    · exact absurd (ht.symm.trans (hws w hmem)) (Option.some_ne_none t)
  unique w hw := (h.unique w hw).append fun hmem => hw (hws w hmem)
  placed name w hw hturn := by
    rcases RotatingLog.mem_entries_append.mp hw with hmem | ⟨-, hmem⟩
    · exact h.placed name w hmem hturn
    · exact absurd (hws w hmem) hturn

/-- The text of the turn of the call is appended. -/
theorem Tidy.appendTurn (h : Tidy calls dir) (line : Bytes) :
    Tidy (calls + 1)
      (RotatingLog.append dir currentFile [{ turn := some calls, bytes := line }]) where
  numbered name w hw t ht := by
    rcases RotatingLog.mem_entries_append.mp hw with hmem | ⟨-, hmem⟩
    · exact Nat.lt_succ_of_lt (h.numbered name w hmem t ht)
    · rw [List.mem_singleton.mp hmem] at ht
      exact Nat.lt_succ_of_le (Nat.le_of_eq (Option.some.inj ht).symm)
  unique w hw := by
    by_cases hnew : w ∈ [{ turn := some calls, bytes := line }]
    · rw [List.mem_singleton.mp hnew]
      refine RotatingLog.unique_append_of_not_held ?_
      rintro ⟨name, hmem⟩
      exact Nat.lt_irrefl calls (h.numbered name _ hmem calls rfl)
    · exact (h.unique w hw).append hnew
  placed name w hw hturn := by
    rcases RotatingLog.mem_entries_append.mp hw with hmem | ⟨hname, -⟩
    · exact h.placed name w hmem hturn
    · exact .inl hname

/-- What holds of the provider in every state. -/
structure Sound (b : Builtin) : Prop where
  tidy : Tidy b.calls b.dir
  stored : ∀ w ∈ b.stored, ∃ t, w.turn = some t ∧ t < b.calls

theorem sound_start (files : Bytes → Option Bytes) : Sound (start files) := by
  have hplain : ∀ name, ∀ w ∈ entries (start files).dir name, w.turn = none := by
    intro name w hw
    have hentries : entries (start files).dir name =
        ((files name).map fun bytes => [({ bytes } : Write)]).getD [] := rfl
    rw [hentries] at hw
    cases hfile : files name with
    | none =>
      rw [hfile] at hw
      exact absurd hw List.not_mem_nil
    | some bytes =>
      rw [hfile] at hw
      rw [List.mem_singleton.mp hw]
  refine ⟨⟨fun name w hw t ht => ?_, fun w hturn a b ha _ => absurd (hplain a w ha) hturn,
    fun name w hw hturn => absurd (hplain name w hw) hturn⟩, fun w hw => absurd hw List.not_mem_nil⟩
  exact absurd (ht.symm.trans (hplain name w hw)) (Option.some_ne_none t)

theorem Sound.turn_ne_none {b : Builtin} (h : Sound b) {w : Write} (hw : w ∈ b.stored) :
    w.turn ≠ none := by
  obtain ⟨t, ht, -⟩ := h.stored w hw
  rw [ht]
  exact Option.some_ne_none t

/-- The cache, if there is one, has the current content. -/
def Fresh (b : Builtin) : Prop :=
  ∀ block, b.cachedBlock = some block → block = contents b.dir currentFile

/-- **Coherence**, by the cache and by what the files hold. -/
theorem Sound.coherent_iff_fresh {b : Builtin} (h : Sound b) :
    Coherent b ↔ Fresh b ∧ ∀ w ∈ b.stored, Held b.dir w := by
  have hturns : (∀ w ∈ b.stored, ∃! name, IsMemoryFile name ∧ w ∈ entries b.dir name) ↔
      ∀ w ∈ b.stored, Held b.dir w := by
    refine forall₂_congr fun w hw => ?_
    have hturn := h.turn_ne_none hw
    exact (h.tidy.unique w hturn).existsUnique_iff fun name hmem =>
      h.tidy.placed name w hmem hturn
  have hprompt : (∀ fault block, (b.systemPromptBlock fault).1 = .ok block →
      block = contents b.dir currentFile) ↔ Fresh b := by
    rw [Fresh]
    simp only [Builtin.systemPromptBlock]
    cases b.cachedBlock with
    | none =>
      refine iff_of_true (fun fault block hblock => ?_) fun block hblock => nomatch hblock
      cases fault with
      | none => exact (Except.ok.inj hblock).symm
      | some e => cases hblock
    | some cached =>
      exact ⟨fun hall block hblock => hall none block (congrArg Except.ok (Option.some.inj hblock)),
        fun hall _ block hblock => hall block (congrArg some (Except.ok.inj hblock))⟩
  exact ⟨fun hc => ⟨hprompt.mp hc.prompt, hturns.mp hc.turns⟩,
    fun hboth => ⟨hprompt.mpr hboth.1, hturns.mpr hboth.2⟩⟩

/-! ## What a `syncTurn` does -/

/-- The directory in front of `createFile`. -/
def ready (threshold : ℕ) (b : Builtin) (ts : ℤ) (pair : TurnPair) : Dir :=
  if Overfull threshold b.dir ts pair then rotate b.dir ts else b.dir

/-- What a call that fails at `createFile` or later has appended. -/
def leftover (line : Bytes) : Fault → Option (List Write)
  | .create => some []
  | .length => some []
  | .write n => some [{ bytes := line.take n }]
  | _ => none

/-- **What a `syncTurn` does**: it fails early and touches nothing, fails late and leaves something
behind, or stores its turn. -/
theorem syncTurn_cases (threshold : ℕ) (b : Builtin) (ts : ℤ) (pair : TurnPair)
    (fault : Option Fault) :
    (¬ Rotates threshold b ts pair fault ∧ fault.any Fault.early = true ∧
        (b.syncTurn threshold ts pair fault).2 = { b with calls := b.calls + 1 }) ∨
      (Rotates threshold b ts pair fault ↔ Overfull threshold b.dir ts pair) ∧
        ((fault = some .create ∧ (b.syncTurn threshold ts pair fault).2 =
            { b with dir := ready threshold b ts pair, calls := b.calls + 1 }) ∨
          (∃ f ws, fault = some f ∧ f ≠ .create ∧ leftover (turnText ts pair) f = some ws ∧
            (b.syncTurn threshold ts pair fault).2 = { b with
              dir := RotatingLog.append (ready threshold b ts pair) currentFile ws
              calls := b.calls + 1 }) ∨
          (∀ f, fault = some f → leftover (turnText ts pair) f = none) ∧
            (b.syncTurn threshold ts pair fault).2 = {
              dir := RotatingLog.append (ready threshold b ts pair) currentFile
                [{ turn := some b.calls, bytes := turnText ts pair }]
              cachedBlock := none
              calls := b.calls + 1
              stored := b.stored ++ [{ turn := some b.calls, bytes := turnText ts pair }] }) := by
  by_cases hfull : Overfull threshold b.dir ts pair <;>
    rcases fault with _ | (_ | _ | _ | _ | _ | _ | n) <;>
    simp [Rotates, Fault.early, leftover, ready, Builtin.syncTurn, appendToMemoryFile, appendLine,
      hfull]

theorem leftover_turn {line : Bytes} {f : Fault} {ws : List Write} (h : leftover line f = some ws) :
    ∀ w ∈ ws, w.turn = none := by
  cases f with
  | create | length =>
    obtain rfl := Option.some.inj h
    exact fun w hw => absurd hw List.not_mem_nil
  | write n =>
    obtain rfl := Option.some.inj h
    exact fun w hw => by rw [List.mem_singleton.mp hw]
  | _ => cases h

theorem Tidy.ready {b : Builtin} (h : Tidy b.calls b.dir) (threshold : ℕ) (ts : ℤ)
    (pair : TurnPair) : Tidy b.calls (ready threshold b ts pair) := by
  unfold Memory.ready
  split
  · exact h.rotate ts
  · exact h

/-- **A `syncTurn` keeps the invariant.** -/
theorem Sound.syncTurn {b : Builtin} (h : Sound b) (threshold : ℕ) (ts : ℤ) (pair : TurnPair)
    (fault : Option Fault) : Sound (b.syncTurn threshold ts pair fault).2 := by
  have hready := h.tidy.ready threshold ts pair
  have hstored : ∀ w ∈ b.stored, ∃ t, w.turn = some t ∧ t < b.calls + 1 := fun w hw =>
    (h.stored w hw).imp fun t ht => ⟨ht.1, Nat.lt_succ_of_lt ht.2⟩
  rcases syncTurn_cases threshold b ts pair fault with
    ⟨-, -, hb⟩ | ⟨-, ⟨-, hb⟩ | ⟨f, ws, -, -, hws, hb⟩ | ⟨-, hb⟩⟩
  · rw [hb]
    exact ⟨h.tidy.succ, hstored⟩
  · rw [hb]
    exact ⟨hready.succ, hstored⟩
  · rw [hb]
    exact ⟨(hready.append (leftover_turn hws)).succ, hstored⟩
  · rw [hb]
    refine ⟨hready.appendTurn _, List.forall_mem_append.mpr ⟨hstored, ?_⟩⟩
    exact List.forall_mem_singleton.mpr ⟨b.calls, rfl, Nat.lt_succ_self _⟩

theorem Sound.serve {b : Builtin} (h : Sound b) (threshold : ℕ) (call : Call) :
    Sound (b.serve threshold call) := by
  cases call with
  | syncTurn ts pair fault => exact h.syncTurn threshold ts pair fault
  | systemPromptBlock fault =>
    unfold Builtin.serve Builtin.systemPromptBlock
    dsimp only
    split
    · exact h
    · split
      · exact h
      · exact ⟨h.tidy, h.stored⟩

/-! ## What a `syncTurn` spoils -/

section Spoils

variable (threshold : ℕ) {b : Builtin} (ts : ℤ) (pair : TurnPair) {fault : Option Fault}

theorem contents_append (dir : Dir) (ws : List Write) :
    contents (RotatingLog.append dir currentFile ws) currentFile =
      contents dir currentFile ++ ws.flatMap Write.bytes := by
  rw [contents, RotatingLog.entries_append_self, List.flatMap_append]
  rfl

theorem contents_ready : contents (ready threshold b ts pair) currentFile =
    if Overfull threshold b.dir ts pair then [] else contents b.dir currentFile := by
  unfold ready
  split
  · rw [contents, rotate, RotatingLog.entries_rename_source]
    rfl
  · rfl

/-- **A rotation loses exactly the turns of the file that it meets with.** -/
theorem Sound.held_ready_iff (h : Sound b) (hheld : ∀ w ∈ b.stored, Held b.dir w) :
    (∀ w ∈ b.stored, Held (ready threshold b ts pair) w) ↔
      (Overfull threshold b.dir ts pair →
        ∀ w ∈ b.stored, w ∉ entries b.dir (rotatedFile ts)) := by
  unfold ready
  by_cases hfull : Overfull threshold b.dir ts pair
  · rw [if_pos hfull, imp_iff_right hfull]
    exact forall₂_congr fun w hw => RotatingLog.held_rename_iff (currentFile_ne_rotatedFile ts)
      (h.tidy.unique w (h.turn_ne_none hw)) (hheld w hw)
  · rw [if_neg hfull]
    exact iff_of_true hheld fun hdoes => absurd hdoes hfull

/-- A cache that had the content in front of a change has it afterwards if nothing has changed. -/
theorem Fresh.after_iff (h : Fresh b) (content : Bytes) :
    (∀ block, b.cachedBlock = some block → block = content) ↔
      b.cachedBlock = none ∨ contents b.dir currentFile = content := by
  cases hcached : b.cachedBlock with
  | none => exact iff_of_true (fun block hblock => nomatch hblock) (.inl rfl)
  | some cached =>
    rw [or_iff_right (Option.some_ne_none _), ← h cached hcached]
    simp only [Option.some.injEq, forall_eq']

theorem turnText_ne_nil : turnText ts pair ≠ [] := by
  intro h
  have hend := (List.append_eq_nil_iff.mp h).2
  exact absurd hend (by decide)

/-- **What a late failure changes of the content.** -/
theorem leftover_unchanged_iff {f : Fault} {ws : List Write}
    (hws : leftover (turnText ts pair) f = some ws) :
    contents b.dir currentFile =
        (if Overfull threshold b.dir ts pair then [] else contents b.dir currentFile) ++
          ws.flatMap Write.bytes ↔
      Harmless threshold b ts pair (some f) := by
  have hempty : contents b.dir currentFile = (if Overfull threshold b.dir ts pair then []
      else contents b.dir currentFile) ++ [] ↔ ¬ Overfull threshold b.dir ts pair := by
    by_cases hfull : Overfull threshold b.dir ts pair
    · rw [if_pos hfull]
      refine iff_of_false (fun hnil => ?_) (not_not.mpr hfull)
      have hpos := hfull.1
      rw [hnil] at hpos
      exact absurd hpos (Nat.lt_irrefl 0)
    · rw [if_neg hfull, List.append_nil]
      exact iff_of_true rfl hfull
  cases f with
  | create | length =>
    obtain rfl := Option.some.inj hws
    exact hempty
  | write n =>
    obtain rfl := Option.some.inj hws
    rw [List.flatMap_singleton, Harmless]
    by_cases hfull : Overfull threshold b.dir ts pair
    · rw [if_pos hfull, if_pos hfull, List.nil_append]
    · rw [if_neg hfull, if_neg hfull, List.self_eq_append_right, List.take_eq_nil_iff,
        or_iff_left (turnText_ne_nil ts pair)]
  | _ => cases hws

/-- A call that does not fail late is harmless. -/
theorem harmless_of_leftover
    (h : ∀ f, fault = some f → leftover (turnText ts pair) f = none) :
    Harmless threshold b ts pair fault := by
  rcases fault with _ | f
  · trivial
  · have hnone := h f rfl
    cases f with
    | create | length | write n => cases hnone
    | _ => trivial

theorem harmless_of_early (h : fault.any Fault.early = true) :
    Harmless threshold b ts pair fault := by
  rcases fault with _ | f
  · trivial
  · cases f with
    | create | length | write n => cases h
    | _ => trivial

/-- **A `syncTurn` keeps the provider coherent exactly if it is careful.** -/
theorem Sound.coherent_syncTurn_iff (h : Sound b) (hcoherent : Coherent b) :
    Coherent (b.syncTurn threshold ts pair fault).2 ↔
      Careful threshold b (.syncTurn ts pair fault) := by
  obtain ⟨hfresh, hheld⟩ := h.coherent_iff_fresh.mp hcoherent
  have hready := h.held_ready_iff threshold ts pair hheld
  rw [(h.syncTurn threshold ts pair fault).coherent_iff_fresh, Careful]
  rcases syncTurn_cases threshold b ts pair fault with
    ⟨hnot, hearly, hb⟩ | ⟨hrotates, ⟨rfl, hb⟩ | ⟨f, ws, rfl, -, hws, hb⟩ | ⟨hnone, hb⟩⟩
  · rw [hb]
    exact iff_of_true ⟨hfresh, hheld⟩
      ⟨fun hdoes => absurd hdoes hnot, .inr (harmless_of_early threshold ts pair hearly)⟩
  · rw [hb, hrotates, ← hready, and_comm]
    have hchange := leftover_unchanged_iff threshold (b := b) ts pair (f := .create) rfl
    rw [← contents_ready, List.flatMap_nil, List.append_nil] at hchange
    exact and_congr_right fun _ => (hfresh.after_iff _).trans (or_congr_right hchange)
  · rw [hb, hrotates, ← hready, and_comm]
    have hchange := leftover_unchanged_iff threshold (b := b) ts pair hws
    rw [← contents_ready, ← contents_append] at hchange
    refine and_congr ?_ ((hfresh.after_iff _).trans (or_congr_right hchange))
    exact forall₂_congr fun w hw =>
      RotatingLog.held_append_iff fun hmem => h.turn_ne_none hw (leftover_turn hws w hmem)
  · rw [hb, hrotates, ← hready]
    have hnew : Held (RotatingLog.append (ready threshold b ts pair) currentFile
        [{ turn := some b.calls, bytes := turnText ts pair }])
        { turn := some b.calls, bytes := turnText ts pair } :=
      ⟨currentFile, RotatingLog.mem_entries_append.mpr (.inr ⟨rfl, List.mem_singleton_self _⟩)⟩
    have hold : ∀ w ∈ b.stored, w ∉ [{ turn := some b.calls, bytes := turnText ts pair }] := by
      intro w hw hmem
      obtain ⟨t, ht, hlt⟩ := h.stored w hw
      rw [List.mem_singleton.mp hmem] at ht
      exact absurd hlt (Nat.not_lt.mpr (Nat.le_of_eq (Option.some.inj ht)))
    rw [and_iff_left (Or.inr (harmless_of_leftover threshold ts pair hnone))]
    refine (and_iff_right fun block hblock => nomatch hblock).trans ?_
    refine List.forall_mem_append.trans ?_
    rw [List.forall_mem_singleton, and_iff_left hnew]
    exact forall₂_congr fun w hw => RotatingLog.held_append_iff (hold w hw)

end Spoils

/-! ## Runs -/

theorem coherent_start (files : Bytes → Option Bytes) : Coherent (start files) :=
  (sound_start files).coherent_iff_fresh.mpr
    ⟨fun _ hblock => (nomatch hblock), fun _ hw => absurd hw List.not_mem_nil⟩

/-- Asking for the block keeps the provider coherent. -/
theorem Sound.coherent_systemPromptBlock {b : Builtin} (h : Sound b) (hcoherent : Coherent b)
    (threshold : ℕ) (fault : Option MemoryError) :
    Coherent (b.serve threshold (.systemPromptBlock fault)) := by
  obtain ⟨hfresh, hheld⟩ := h.coherent_iff_fresh.mp hcoherent
  rw [(h.serve threshold (.systemPromptBlock fault)).coherent_iff_fresh]
  unfold Builtin.serve Builtin.systemPromptBlock
  dsimp only
  split
  · exact ⟨hfresh, hheld⟩
  · split
    · exact ⟨hfresh, hheld⟩
    · exact ⟨fun block hblock => (Option.some.inj hblock).symm, hheld⟩

/-- **When the memory is coherent**: in every state of a run exactly if every call is careful. -/
theorem coherent_iff (threshold : ℕ) (files : Bytes → Option Bytes) (calls : List Call) :
    (∀ before, before <+: calls →
      Coherent (before.foldl (Builtin.serve threshold) (start files))) ↔
      StepMachine.Along (step threshold) (Careful threshold) (start files) calls := by
  refine StepMachine.always_iff_along_total (I := Sound)
    (fun b call h => h.serve threshold call) (fun b call h hcoherent => ?_) (sound_start files)
    (coherent_start files) calls
  cases call with
  | syncTurn ts pair fault => exact h.coherent_syncTurn_iff threshold ts pair hcoherent
  | systemPromptBlock fault =>
    exact iff_of_true (h.coherent_systemPromptBlock hcoherent threshold fault) trivial

/-- A turn at an instant, with nothing said, and nothing that fails. -/
def silentTurn : Call := .syncTurn 7 ⟨[], []⟩ none

/-- A memory with a threshold of one byte after some turns at the same instant. -/
def afterTurns (n : ℕ) : Builtin :=
  (List.replicate n silentTurn).foldl (Builtin.serve 1) (start fun _ => none)

/-- **Two runs that are not coherent.**  In the first the clock stands still: the second rotation
has the name of the first, and the turn in the file of that name is gone.  In the second an append
breaks off after one byte, and the block from before it stays in the cache. -/
theorem not_coherent :
    (¬ ∀ n, Coherent (afterTurns n)) ∧
    ¬ Coherent ([Call.systemPromptBlock none, .syncTurn 7 ⟨[], []⟩ (some (.write 1))].foldl
      (Builtin.serve 1) (start fun _ => none)) := by
  constructor
  · intro h
    have hsound : Sound (afterTurns 2) :=
      ((sound_start fun _ => none).serve 1 silentTurn).serve 1 silentTurn
    obtain ⟨hkept, -⟩ := (hsound.coherent_syncTurn_iff 1 7 ⟨[], []⟩ (h 2)).mp (h 3)
    have hrotates : Rotates 1 (afterTurns 2) 7 ⟨[], []⟩ none := ⟨by decide, by decide⟩
    exact hkept hrotates { turn := some 0, bytes := turnText 7 ⟨[], []⟩ } (by decide +kernel)
      (by decide +kernel)
  · intro h
    have hblock := h.prompt none [] rfl
    revert hblock
    decide

end Memory
end TigerClaw
