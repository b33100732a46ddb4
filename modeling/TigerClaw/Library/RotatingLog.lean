import Mathlib.Data.List.Basic
import Mathlib.Logic.Function.Basic
import Mathlib.Logic.ExistsUnique

/-!
# Files that are appended to and renamed

A directory stores a list of entries under some of its names.  A log is kept in one of the files:
entries are appended to it, and when it has grown too long it is renamed and begun anew.

* `append`, `rename`: the two operations.
* `Unique`: an entry stands under one name at most.  Both operations keep it.
* `Held`: an entry stands under some name.  `held_rename_iff`: renaming loses exactly what the file
  of the new name held.
-/

namespace RotatingLog

universe u v

variable {ν : Type u} {ε : Type v}

/-- What is stored under the names of a directory. -/
abbrev Files (ν : Type u) (ε : Type v) : Type (max u v) := ν → Option (List ε)

/-- The entries of a file; none if it is not there. -/
def entries (files : Files ν ε) (name : ν) : List ε := (files name).getD []

/-- An entry stands under some name. -/
def Held (files : Files ν ε) (e : ε) : Prop := ∃ name, e ∈ entries files name

/-- An entry stands under one name at most. -/
def Unique (files : Files ν ε) (e : ε) : Prop :=
  ∀ a b, e ∈ entries files a → e ∈ entries files b → a = b

theorem Unique.existsUnique_iff {files : Files ν ε} {e : ε} (h : Unique files e) {P : ν → Prop}
    (hP : ∀ name, e ∈ entries files name → P name) :
    (∃! name, P name ∧ e ∈ entries files name) ↔ Held files e := by
  constructor
  · rintro ⟨name, ⟨-, hmem⟩, -⟩
    exact ⟨name, hmem⟩
  · rintro ⟨name, hmem⟩
    exact ⟨name, ⟨hP name hmem, hmem⟩, fun other hother => h _ _ hother.2 hmem⟩

variable [DecidableEq ν]

/-- Append to a file, which is made if it is not there. -/
def append (files : Files ν ε) (name : ν) (es : List ε) : Files ν ε :=
  Function.update files name (some (entries files name ++ es))

/-- Give a file another name, whatever was stored under that. -/
def rename (files : Files ν ε) (source target : ν) : Files ν ε :=
  Function.update (Function.update files target (files source)) source none

section Append

variable (files : Files ν ε) (name : ν) (es : List ε)

@[simp] theorem entries_append_self : entries (append files name es) name =
    entries files name ++ es := by
  rw [entries, append, Function.update_self]
  rfl

theorem entries_append_of_ne {other : ν} (h : other ≠ name) :
    entries (append files name es) other = entries files other := by
  rw [entries, append, Function.update_of_ne h]
  rfl

variable {files name es}

theorem mem_entries_append {e : ε} {other : ν} : e ∈ entries (append files name es) other ↔
    e ∈ entries files other ∨ other = name ∧ e ∈ es := by
  by_cases h : other = name
  · subst h
    rw [entries_append_self, List.mem_append, and_iff_right rfl]
  · rw [entries_append_of_ne _ _ _ h, or_iff_left fun hboth => h hboth.1]

theorem held_append_iff {e : ε} (h : e ∉ es) :
    Held (RotatingLog.append files name es) e ↔ Held files e :=
  exists_congr fun _ => mem_entries_append.trans (or_iff_left fun hboth => h hboth.2)

theorem Unique.append {e : ε} (h : Unique files e) (hnew : e ∉ es) :
    Unique (append files name es) e := by
  intro a b ha hb
  rw [mem_entries_append, or_iff_left fun hboth => hnew hboth.2] at ha hb
  exact h a b ha hb

/-- What is appended for the first time stands under that name only. -/
theorem unique_append_of_not_held {e : ε} (h : ¬ Held files e) :
    Unique (RotatingLog.append files name es) e := by
  have hself : ∀ a, e ∈ entries (RotatingLog.append files name es) a → a = name := fun a ha =>
    ((mem_entries_append.mp ha).resolve_left fun hmem => h ⟨a, hmem⟩).1
  exact fun a b ha hb => (hself a ha).trans (hself b hb).symm

end Append

section Rename

variable {files : Files ν ε} {source target : ν}

theorem entries_rename_source : entries (rename files source target) source = [] := by
  rw [entries, rename, Function.update_self]
  rfl

theorem entries_rename_target (h : source ≠ target) :
    entries (rename files source target) target = entries files source := by
  rw [entries, rename, Function.update_of_ne h.symm, Function.update_self]
  rfl

theorem entries_rename_of_ne {name : ν} (hsource : name ≠ source) (htarget : name ≠ target) :
    entries (rename files source target) name = entries files name := by
  rw [entries, rename, Function.update_of_ne hsource, Function.update_of_ne htarget]
  rfl

/-- What holds of every file, and of one without entries, holds of every file after a renaming. -/
theorem forall_entries_rename (h : source ≠ target) {P : List ε → Prop} (hnil : P [])
    (hP : ∀ name, P (entries files name)) (name : ν) :
    P (entries (rename files source target) name) := by
  by_cases hsource : name = source
  · rw [hsource, entries_rename_source]
    exact hnil
  · by_cases htarget : name = target
    · rw [htarget, entries_rename_target h]
      exact hP source
    · rw [entries_rename_of_ne hsource htarget]
      exact hP name

/-- Where an entry stands after a renaming. -/
theorem mem_entries_rename (h : source ≠ target) {e : ε} {name : ν} :
    e ∈ entries (rename files source target) name ↔
      name = target ∧ e ∈ entries files source ∨
        name ≠ source ∧ name ≠ target ∧ e ∈ entries files name := by
  by_cases hsource : name = source
  · subst hsource
    rw [entries_rename_source]
    simp [h]
  · by_cases htarget : name = target
    · subst htarget
      rw [entries_rename_target h]
      simp
    · rw [entries_rename_of_ne hsource htarget]
      simp [hsource, htarget]

theorem Unique.rename (h : source ≠ target) {e : ε} (hunique : Unique files e) :
    Unique (rename files source target) e := by
  intro a b ha hb
  rw [mem_entries_rename h] at ha hb
  rcases ha with ⟨rfl, ha⟩ | ⟨hsource, -, ha⟩
  · rcases hb with ⟨rfl, -⟩ | ⟨hsource, -, hb⟩
    · rfl
    · exact absurd (hunique _ _ hb ha) hsource
  · rcases hb with ⟨rfl, hb⟩ | ⟨-, -, hb⟩
    · exact absurd (hunique _ _ ha hb) hsource
    · exact hunique _ _ ha hb

/-- **Renaming loses exactly what the file of the new name held.** -/
theorem held_rename_iff (h : source ≠ target) {e : ε} (hunique : Unique files e)
    (hheld : Held files e) :
    Held (RotatingLog.rename files source target) e ↔ e ∉ entries files target := by
  constructor
  · rintro ⟨name, hname⟩ htarget
    rcases (mem_entries_rename h).mp hname with ⟨-, hsource⟩ | ⟨-, hne, hmem⟩
    · exact h (hunique _ _ hsource htarget)
    · exact hne (hunique _ _ hmem htarget)
  · intro htarget
    obtain ⟨name, hname⟩ := hheld
    by_cases hsource : name = source
    · exact ⟨target, (mem_entries_rename h).mpr (.inl ⟨rfl, hsource ▸ hname⟩)⟩
    · refine ⟨name, (mem_entries_rename h).mpr (.inr ⟨hsource, ?_, hname⟩)⟩
      rintro rfl
      exact htarget hname

end Rename

end RotatingLog
