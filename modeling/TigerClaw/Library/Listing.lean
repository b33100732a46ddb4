import Mathlib.Data.List.Nodup
import TigerClaw.Library.FileTree

/-!
# What is below a directory

A tree in which every directory lists its names, in some order, and the walk through a directory
that enters some of the directories below.

* `Listing`: the orders, and a bound on the depth.
* `below`: the entries below a directory that are no directories, in the order of the walk.
* `pathOf`: the path of some names.  `walk_of_entry`: the names of an entry lead to it.
* `mem_below_iff`: they are those behind entered directories.  `nodup_below`: each is met once.
-/

namespace FileTree

/-- The names in every directory, each once, and how deep the tree is. -/
structure Listing (t : FileTree) where
  names : Location → List Name
  nodup : ∀ dir, (names dir).Nodup
  mem_names : ∀ dir name, name ∈ names dir ↔ t.entry (dir ++ [name]) ≠ none
  depth : ℕ
  length_le : ∀ loc, t.entry loc ≠ none → loc.length ≤ depth

namespace Listing

variable {t : FileTree} (l : Listing t) (enter : Name → Bool)

/-- What a name stands for: an entered directory for what is behind it. -/
def behind (name : Name) (rest : List Location) : Option Entry → List Location
  | some .dir => if enter name then rest.map (name :: ·) else []
  | some _ => [[name]]
  | none => []

/-- The entries below a directory, by their names from there. -/
def belowWithin : ℕ → Location → List Location
  | 0, _ => []
  | left + 1, dir => (l.names dir).flatMap fun name =>
    behind enter name (belowWithin left (dir ++ [name])) (t.entry (dir ++ [name]))

def below (dir : Location) : List Location := l.belowWithin enter l.depth dir

variable {l enter}

theorem mem_behind_iff {name : Name} {rest : List Location} {e : Option Entry} {rel : Location} :
    rel ∈ behind enter name rest e ↔
      (rel = [name] ∧ e ≠ none ∧ e ≠ some .dir) ∨
      (e = some .dir ∧ enter name = true ∧ ∃ tail ∈ rest, rel = name :: tail) := by
  cases e with
  | none => simp [behind]
  | some e =>
    cases e with
    | dir =>
      by_cases henter : enter name = true
      · simp [behind, henter, eq_comm]
      · simp [behind, henter]
    | file content => simp [behind]
    | link target => simp [behind]

theorem head?_of_mem_behind {name : Name} {rest : List Location} {e : Option Entry} {rel : Location}
    (h : rel ∈ behind enter name rest e) : rel.head? = some name := by
  rcases mem_behind_iff.mp h with ⟨rfl, -⟩ | ⟨-, -, tail, -, rfl⟩
  · rfl
  · rfl

theorem ne_nil_of_mem_belowWithin {left : ℕ} {dir rel : Location}
    (h : rel ∈ l.belowWithin enter left dir) : rel ≠ [] := by
  cases left with
  | zero => cases h
  | succ left =>
    obtain ⟨name, -, hname⟩ := List.mem_flatMap.mp h
    rintro rfl
    cases head?_of_mem_behind hname

/-- The first name leads to an entry that is met, or through a directory that is entered. -/
theorem mem_belowWithin_cons {left : ℕ} {dir rel : Location} {name : Name} :
    name :: rel ∈ l.belowWithin enter (left + 1) dir ↔
      (rel = [] ∧ t.entry (dir ++ [name]) ≠ none ∧ t.entry (dir ++ [name]) ≠ some .dir) ∨
      (t.entry (dir ++ [name]) = some .dir ∧ enter name = true ∧
        rel ∈ l.belowWithin enter left (dir ++ [name])) := by
  rw [belowWithin, List.mem_flatMap]
  constructor
  · rintro ⟨first, -, hfirst⟩
    rcases mem_behind_iff.mp hfirst with ⟨heq, hmet⟩ | ⟨hdir, henter, tail, htail, heq⟩
    · obtain ⟨rfl, rfl⟩ := List.cons.inj heq
      exact .inl ⟨rfl, hmet⟩
    · obtain ⟨rfl, rfl⟩ := List.cons.inj heq
      exact .inr ⟨hdir, henter, htail⟩
  · rintro (⟨rfl, hentry, hdir⟩ | ⟨hdir, henter, hrest⟩)
    · exact ⟨name, (l.mem_names dir name).mpr hentry,
        mem_behind_iff.mpr (.inl ⟨rfl, hentry, hdir⟩)⟩
    · have hentry : t.entry (dir ++ [name]) ≠ none := by
        rw [hdir]
        exact Option.some_ne_none _
      exact ⟨name, (l.mem_names dir name).mpr hentry,
        mem_behind_iff.mpr (.inr ⟨hdir, henter, rel, hrest, rfl⟩)⟩

end Listing

/-- What is behind a location makes it a directory. -/
theorem dir_of_entry_append {t : FileTree} {loc rest : Location} (hrest : rest ≠ [])
    (h : t.entry (loc ++ rest) ≠ none) : t.entry loc = some .dir := by
  induction rest using List.reverseRecOn with
  | nil => exact absurd rfl hrest
  | append_singleton rest name ih =>
    rw [← List.append_assoc] at h
    have hdir := t.parent _ _ h
    by_cases hnil : rest = []
    · rwa [hnil, List.append_nil] at hdir
    · exact ih hnil (by rw [hdir]; exact Option.some_ne_none _)

theorem entry_put_of_fits {t : FileTree} {loc : Location} (e : Entry) (h : t.Fits loc) :
    (t.put loc e).entry = Function.update t.entry loc (some e) := by
  rw [put, dif_pos h]

/-- The path of the names from a directory. -/
def pathOf : Location → List UInt8
  | [] => []
  | name :: rest => name ++ rest.flatMap fun name => slash :: name

theorem components_pathOf {rel : Location} (hne : rel ≠ []) (hrel : ∀ name ∈ rel, Proper name) :
    components (pathOf rel) = rel := by
  cases rel with
  | nil => exact absurd rfl hne
  | cons name rest =>
    rw [List.forall_mem_cons] at hrel
    exact components_names hrel.1.2.2.2 fun name hname => (hrel.2 name hname).2.2.2

/-- Such a path does not start at the root. -/
theorem find_pathOf {t : FileTree} {limit : ℕ} {loc rel : Location} (hne : rel ≠ [])
    (hrel : ∀ name ∈ rel, Proper name) :
    t.find limit loc (pathOf rel) = t.walk limit loc rel := by
  cases rel with
  | nil => exact absurd rfl hne
  | cons name rest =>
    obtain ⟨hname, -, -, hslash⟩ := hrel name List.mem_cons_self
    obtain ⟨b, bs, rfl⟩ := List.exists_cons_of_ne_nil hname
    have hhead : (pathOf ((b :: bs) :: rest)).head? ≠ some slash := by
      rintro heq
      obtain rfl := Option.some.inj heq
      exact hslash List.mem_cons_self
    have hpath : pathOf ((b :: bs) :: rest) ≠ [] := List.cons_ne_nil _ _
    rw [find, if_neg hpath, components_pathOf hne hrel, start, if_neg hhead]

/-- An entry that is no link is where its names lead to. -/
theorem walk_of_entry {t : FileTree} {n : ℕ} {loc rel : Location} {e : Entry}
    (hloc : t.entry loc = some .dir) (h : t.entry (loc ++ rel) = some e)
    (hlink : ∀ target, e ≠ .link target) : t.walk n loc rel = .reached (loc ++ rel) := by
  obtain ⟨follow, hwalk⟩ := exists_walkWith t n
  rw [hwalk]
  induction rel generalizing loc with
  | nil => rw [walkWith, List.append_nil]
  | cons name rest ih =>
    have hassoc : loc ++ name :: rest = (loc ++ [name]) ++ rest := by simp
    rw [hassoc] at h ⊢
    obtain ⟨hne, hdot, hup, -⟩ : Proper name := by
      refine proper_of_entry (h.trans_ne (Option.some_ne_none e)) name ?_
      simp
    have hmove : t.move loc name = .goes (loc ++ [name]) := by
      rw [move, if_neg (not_not.mpr hloc), if_neg (not_or.mpr ⟨hne, hdot⟩), if_neg hup]
      by_cases hnil : rest = []
      · rw [hnil, List.append_nil] at h
        rw [h]
        cases e with
        | link target => exact absurd rfl (hlink target)
        | dir => rfl
        | file content => rfl
      · rw [dir_of_entry_append hnil (h.trans_ne (Option.some_ne_none e))]
    rw [walkWith, hmove]
    by_cases hnil : rest = []
    · rw [hnil, List.append_nil]
      rfl
    · exact ih (dir_of_entry_append hnil (h.trans_ne (Option.some_ne_none e))) h

namespace Listing

variable {t : FileTree} {l : Listing t} {enter : Name → Bool}

theorem mem_belowWithin_iff {left : ℕ} {dir rel : Location} :
    rel ∈ l.belowWithin enter left dir ↔
      rel ≠ [] ∧ rel.length ≤ left ∧ t.entry (dir ++ rel) ≠ none ∧
        t.entry (dir ++ rel) ≠ some .dir ∧ ∀ name ∈ rel.dropLast, enter name = true := by
  induction left generalizing dir rel with
  | zero =>
    refine iff_of_false List.not_mem_nil ?_
    rintro ⟨hne, hlength, -⟩
    exact hne (List.length_eq_zero_iff.mp (Nat.le_zero.mp hlength))
  | succ left ih =>
    cases rel with
    | nil => exact iff_of_false (fun h => ne_nil_of_mem_belowWithin h rfl) fun h => h.1 rfl
    | cons name rest =>
      rw [mem_belowWithin_cons]
      cases rest with
      | nil =>
        constructor
        · rintro (⟨-, hentry, hdir⟩ | ⟨-, -, hrest⟩)
          · exact ⟨List.cons_ne_nil _ _, Nat.le_add_left _ _, hentry, hdir, by simp⟩
          · exact absurd rfl (ne_nil_of_mem_belowWithin hrest)
        · rintro ⟨-, -, hentry, hdir, -⟩
          exact .inl ⟨rfl, hentry, hdir⟩
      | cons next rest =>
        have hassoc : dir ++ name :: next :: rest = (dir ++ [name]) ++ next :: rest := by simp
        rw [ih, hassoc, List.dropLast_cons_cons, List.forall_mem_cons]
        constructor
        · rintro (⟨hnil, -⟩ | ⟨-, henter, hne, hlength, hentry, hdir, hnames⟩)
          · cases hnil
          · exact ⟨List.cons_ne_nil _ _, Nat.succ_le_succ hlength, hentry, hdir, henter, hnames⟩
        · rintro ⟨-, hlength, hentry, hdir, henter, hnames⟩
          exact .inr ⟨dir_of_entry_append (List.cons_ne_nil _ _) hentry, henter,
            List.cons_ne_nil _ _, Nat.le_of_succ_le_succ hlength, hentry, hdir, hnames⟩

/-- **The walk meets what is below**, and behind entered directories only. -/
theorem mem_below_iff {dir rel : Location} :
    rel ∈ l.below enter dir ↔
      rel ≠ [] ∧ t.entry (dir ++ rel) ≠ none ∧ t.entry (dir ++ rel) ≠ some .dir ∧
        ∀ name ∈ rel.dropLast, enter name = true := by
  rw [below, mem_belowWithin_iff]
  constructor
  · rintro ⟨hne, -, hmet⟩
    exact ⟨hne, hmet⟩
  · rintro ⟨hne, hentry, hmet⟩
    have hlength := l.length_le _ hentry
    rw [List.length_append] at hlength
    exact ⟨hne, by omega, hentry, hmet⟩

theorem nodup_behind {name : Name} {rest : List Location} {e : Option Entry} (hrest : rest.Nodup) :
    (behind enter name rest e).Nodup := by
  unfold behind
  split
  · split_ifs
    · exact hrest.map fun _ _ h => (List.cons.inj h).2
    · exact List.nodup_nil
  · exact List.nodup_singleton _
  · exact List.nodup_nil

theorem nodup_belowWithin (left : ℕ) (dir : Location) :
    (l.belowWithin enter left dir).Nodup := by
  induction left generalizing dir with
  | zero => exact List.nodup_nil
  | succ left ih =>
    rw [belowWithin, List.nodup_flatMap]
    refine ⟨fun name _ => nodup_behind (ih _), (l.nodup dir).imp fun {a b} hab rel ha hb => ?_⟩
    -- two names of the directory stand for entries that begin with them
    exact hab (Option.some.inj ((head?_of_mem_behind ha).symm.trans (head?_of_mem_behind hb)))

/-- **Each entry is met once.** -/
theorem nodup_below (dir : Location) : (l.below enter dir).Nodup := nodup_belowWithin _ _

/-! ### Trees that are built -/

/-- There is nothing below the root. -/
def bare : Listing FileTree.bare where
  names _ := []
  nodup _ := List.nodup_nil
  mem_names dir name := by simp [FileTree.bare]
  depth := 0
  length_le loc h := by
    by_cases hloc : loc = []
    · rw [hloc]
      exact Nat.le_refl 0
    · exact absurd (if_neg hloc) h

/-- A new entry comes behind the names of its directory. -/
def put (l : Listing t) (dir : Location) (name : Name) (e : Entry) (hfits : t.Fits (dir ++ [name]))
    (hnew : t.entry (dir ++ [name]) = none) : Listing (t.put (dir ++ [name]) e) where
  names dir' := if dir' = dir then l.names dir' ++ [name] else l.names dir'
  nodup dir' := by
    split_ifs with hdir
    · subst hdir
      have hname : name ∉ l.names dir' := fun h => (l.mem_names dir' name).mp h hnew
      rw [List.nodup_append_comm, List.singleton_append, List.nodup_cons]
      exact ⟨hname, l.nodup dir'⟩
    · exact l.nodup dir'
  mem_names dir' name' := by
    rw [entry_put_of_fits e hfits]
    by_cases hloc : dir' ++ [name'] = dir ++ [name]
    · obtain ⟨rfl, hname⟩ := List.append_inj' hloc rfl
      rw [hloc, Function.update_self, if_pos rfl, (List.cons.inj hname).1]
      exact iff_of_true (by simp) (Option.some_ne_none e)
    · rw [Function.update_of_ne hloc, ← l.mem_names]
      split_ifs with hdir
      · subst hdir
        have hname : name' ≠ name := fun h => hloc (by rw [h])
        simp [hname]
      · exact Iff.rfl
  depth := max l.depth (dir.length + 1)
  length_le loc h := by
    rw [entry_put_of_fits e hfits] at h
    by_cases hloc : loc = dir ++ [name]
    · rw [hloc, List.length_append]
      exact Nat.le_max_right _ _
    · rw [Function.update_of_ne hloc] at h
      exact (l.length_le loc h).trans (Nat.le_max_left _ _)

end Listing
end FileTree
