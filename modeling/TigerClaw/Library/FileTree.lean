import Mathlib.Data.List.DropRight
import Mathlib.Logic.Function.Basic

/-!
# Files and symbolic links

A tree of directories, files and symbolic links, and the calls that find, make and write what a path
names.  A location is the list of names from the root, through directories only; a path is text, and
may pass through links, `.` and `..`.

* `FileTree`, `put`: the tree, and a new entry.
* `walk`, `find`: where a path leads, following at most so many links.
* `createDirPath`, `writeFile`, `readFile`, `openDir`, `realpath`: the calls.
* `walk_append`: a path can be walked in two parts.
* `plain`: no link and no `..` on the way.  `walk_of_plain`: such a path leads where it says.
* `MoreDirs`: what making directories does.  `writeFile_spec`: what writing a file does.
-/

namespace FileTree

abbrev Name : Type := List UInt8

/-- The names from the root. -/
abbrev Location : Type := List Name

def slash : UInt8 := 0x2F

def dot : Name := [0x2E]

def dotdot : Name := [0x2E, 0x2E]

inductive Entry where
  | dir
  | file (content : List UInt8)
  | link (target : List UInt8)
  deriving DecidableEq

/-- What an entry can be called. -/
def Proper (name : Name) : Prop := name ≠ [] ∧ name ≠ dot ∧ name ≠ dotdot ∧ slash ∉ name

instance decidableProper (name : Name) : Decidable (Proper name) :=
  inferInstanceAs (Decidable (_ ∧ _ ∧ _ ∧ _))

end FileTree

open FileTree in
structure FileTree where
  entry : Location → Option Entry
  root : entry [] = some .dir
  parent : ∀ dir name, entry (dir ++ [name]) ≠ none → entry dir = some .dir
  proper : ∀ dir name, entry (dir ++ [name]) ≠ none → Proper name

namespace FileTree

variable (t : FileTree)

/-- Only the root. -/
def bare : FileTree where
  entry loc := if loc = [] then some .dir else none
  root := if_pos rfl
  parent dir name hentry := by
    rw [if_neg (by simp)] at hentry
    exact absurd rfl hentry
  proper dir name hentry := by
    rw [if_neg (by simp)] at hentry
    exact absurd rfl hentry

/-- There can be an entry other than a directory. -/
def Fits (loc : Location) : Prop :=
  t.entry loc ≠ some .dir ∧ t.entry loc.dropLast = some .dir ∧ ∀ name ∈ loc.getLast?, Proper name

instance decidableFits (loc : Location) : Decidable (t.Fits loc) :=
  inferInstanceAs (Decidable (_ ∧ _ ∧ _))

/-- An entry where there is none, or one that is no directory, and in a directory. -/
def put (loc : Location) (e : Entry) : FileTree :=
  if h : t.Fits loc then
    { entry := Function.update t.entry loc (some e)
      root := by
        have hne : [] ≠ loc := fun hnil => h.1 (hnil ▸ t.root)
        rw [Function.update_of_ne hne, t.root]
      parent := by
        intro dir name hentry
        by_cases hloc : dir ++ [name] = loc
        · have hdir : t.entry dir = some .dir := by
            have hparent := h.2.1
            rwa [← hloc, List.dropLast_concat] at hparent
          have hne : dir ≠ loc := fun heq => h.1 (heq ▸ hdir)
          rw [Function.update_of_ne hne, hdir]
        · rw [Function.update_of_ne hloc] at hentry
          have hdir := t.parent dir name hentry
          have hne : dir ≠ loc := fun heq => h.1 (heq ▸ hdir)
          rw [Function.update_of_ne hne, hdir]
      proper := by
        intro dir name hentry
        by_cases hloc : dir ++ [name] = loc
        · exact h.2.2 name (by rw [← hloc, List.getLast?_concat]; rfl)
        · rw [Function.update_of_ne hloc] at hentry
          exact t.proper dir name hentry }
  else t

theorem entry_put_of_ne {loc loc' : Location} (e : Entry) (hne : loc' ≠ loc) :
    (t.put loc e).entry loc' = t.entry loc' := by
  rw [put]
  split
  · exact Function.update_of_ne hne _ _
  · rfl

theorem entry_put_self (loc : Location) (e : Entry) :
    (t.put loc e).entry loc = some e ∨ (t.put loc e).entry loc = t.entry loc := by
  rw [put]
  split
  · exact .inl (Function.update_self ..)
  · exact .inr rfl

/-- The content of a file. -/
def fileAt (loc : Location) : Option (List UInt8) :=
  match t.entry loc with
  | some (.file content) => some content
  | _ => none

theorem fileAt_congr {t t' : FileTree} {loc : Location} (h : t'.entry loc = t.entry loc) :
    t'.fileAt loc = t.fileAt loc := by
  rw [fileAt, h, fileAt]

/-! ## Paths -/

def components (path : List UInt8) : List Name := path.splitOn slash

/-- Two paths, with one slash between them. -/
def join (a b : List UInt8) : List UInt8 :=
  if a = [] then b
  else if b = [] then a
  else
    match decide (a.getLast? = some slash), decide (b.head? = some slash) with
    | true, true => a ++ b.tail
    | false, false => a ++ slash :: b
    | _, _ => a ++ b

/-- Where a path is walked from. -/
def start (base : Location) (path : List UInt8) : Location :=
  if path.head? = some slash then [] else base

inductive PathError where
  | fileNotFound
  | notDir
  | symLinkLoop
  deriving DecidableEq

inductive Found where
  | reached (loc : Location)
  /-- Only the last name of the path is not there. -/
  | missing (loc : Location)
  | broken (e : PathError)
  deriving DecidableEq

/-- What a name does to a walk. -/
inductive Move where
  | goes (loc : Location)
  | link (target : List UInt8)
  | missing
  | notDir

def move (loc : Location) (name : Name) : Move :=
  if t.entry loc ≠ some .dir then .notDir
  else if name = [] ∨ name = dot then .goes loc
  else if name = dotdot then .goes loc.dropLast
  else
    match t.entry (loc ++ [name]) with
    | some (.link target) => .link target
    | some _ => .goes (loc ++ [name])
    | none => .missing

/-- From a location; `follow` goes on behind a link. -/
def walkWith (follow : Location → List Name → Found) : Location → List Name → Found
  | loc, [] => .reached loc
  | loc, name :: rest =>
    match t.move loc name with
    | .goes loc' => walkWith follow loc' rest
    | .link target => follow (start loc target) (components target ++ rest)
    | .missing => if rest = [] then .missing (loc ++ [name]) else .broken .fileNotFound
    | .notDir => .broken .notDir

/-- Through at most `n` links. -/
def walk : ℕ → Location → List Name → Found
  | 0 => t.walkWith fun _ _ => .broken .symLinkLoop
  | n + 1 => t.walkWith (walk n)

/-! ## Calls -/

section

-- how many links a call follows
variable (limit : ℕ)

def find (base : Location) (path : List UInt8) : Found :=
  if path = [] then .broken .fileNotFound
  else t.walk limit (start base path) (components path)

/-- The text of a location. -/
def render (loc : Location) : List UInt8 :=
  if loc = [] then [slash] else loc.flatMap fun name => slash :: name

def realpath (base : Location) (path : List UInt8) : Option (List UInt8) :=
  match t.find limit base path with
  | .reached loc => some (render loc)
  | _ => none

def openDir (base : Location) (path : List UInt8) : Except PathError Location :=
  match t.find limit base path with
  | .reached loc => if t.entry loc = some .dir then .ok loc else .error .notDir
  | .missing _ => .error .fileNotFound
  | .broken e => .error e

/-- One directory of a path, which may be there already. -/
def makeDir (origin : Location) (before : List Name) (name : Name) : Option FileTree :=
  match t.walk limit origin before with
  | .reached dir =>
    if t.entry dir = some .dir ∧ Proper name ∧ t.entry (dir ++ [name]) = none then
      some (t.put (dir ++ [name]) .dir)
    else
      match t.walk limit origin (before ++ [name]) with
      | .reached loc => if t.entry loc = some .dir then some t else none
      | _ => none
  | _ => none

/-- One directory after the other; what was made before an error stays. -/
def makeDirs (origin : Location) : FileTree → List Name → List Name → FileTree × Bool
  | t, _, [] => (t, true)
  | t, before, name :: rest =>
    match t.makeDir limit origin before name with
    | some t' => makeDirs origin t' (before ++ [name]) rest
    | none => (t, false)

/-- `createDirPath`, and whether it succeeds. -/
def createDirPath (base : Location) (path : List UInt8) : FileTree × Bool :=
  let names := (components path).filter fun name => name ≠ []
  if names = [] then (t, false) else makeDirs limit (start base path) t [] names

/-- A new file, or new content. -/
def writeFile (base : Location) (path data : List UInt8) : Option FileTree :=
  match t.find limit base path with
  | .reached loc => if (t.fileAt loc).isSome then some (t.put loc (.file data)) else none
  | .missing loc => some (t.put loc (.file data))
  | .broken _ => none

/-- The content, or whether there is nothing. -/
def readFile (base : Location) (path : List UInt8) : Except PathError (Option (List UInt8)) :=
  match t.find limit base path with
  | .reached loc => .ok (t.fileAt loc)
  | .missing _ => .error .fileNotFound
  | .broken e => .error e

end

variable {t}

/-! ## Making directories -/

/-- What was there is still there, and what is new are directories. -/
structure MoreDirs (t t' : FileTree) : Prop where
  keep : ∀ loc, t.entry loc ≠ none → t'.entry loc = t.entry loc
  new : ∀ loc, t.entry loc = none → t'.entry loc = none ∨ t'.entry loc = some .dir

theorem MoreDirs.refl (t : FileTree) : MoreDirs t t := ⟨fun _ _ => rfl, fun _ h => .inl h⟩

theorem MoreDirs.trans {t₁ t₂ t₃ : FileTree} (h : MoreDirs t₁ t₂) (h' : MoreDirs t₂ t₃) :
    MoreDirs t₁ t₃ := by
  constructor
  · intro loc hloc
    have hkeep := h.keep loc hloc
    rw [h'.keep loc (hkeep.symm ▸ hloc), hkeep]
  · intro loc hloc
    rcases h.new loc hloc with hnone | hdir
    · exact h'.new loc hnone
    · refine .inr ?_
      rw [h'.keep loc (by rw [hdir]; exact Option.some_ne_none _), hdir]

/-- **No file changes.** -/
theorem MoreDirs.fileAt {t' : FileTree} (h : MoreDirs t t') (loc : Location) :
    t'.fileAt loc = t.fileAt loc := by
  rw [FileTree.fileAt, FileTree.fileAt]
  by_cases hloc : t.entry loc = none
  · rcases h.new loc hloc with hnone | hdir
    · rw [hnone, hloc]
    · rw [hdir, hloc]
  · rw [h.keep loc hloc]

theorem moreDirs_put {loc : Location} (h : t.entry loc = none) : MoreDirs t (t.put loc .dir) := by
  constructor
  · intro loc' hloc'
    refine t.entry_put_of_ne _ ?_
    rintro rfl
    exact hloc' h
  · intro loc' hloc'
    by_cases heq : loc' = loc
    · subst heq
      rcases t.entry_put_self loc' .dir with hdir | hsame
      · exact .inr hdir
      · exact .inl (hsame.trans h)
    · exact .inl ((t.entry_put_of_ne _ heq).trans hloc')

theorem moreDirs_makeDir {limit : ℕ} {origin : Location} {before : List Name} {name : Name}
    {t' : FileTree} (h : t.makeDir limit origin before name = some t') : MoreDirs t t' := by
  rw [makeDir] at h
  split at h
  · rename_i dir _
    split at h
    · rename_i hnew
      obtain rfl := Option.some.inj h
      exact moreDirs_put hnew.2.2
    · split at h
      · split at h
        · obtain rfl := Option.some.inj h
          exact .refl t
        · cases h
      · cases h
  · cases h

theorem moreDirs_makeDirs (limit : ℕ) (origin : Location) (t : FileTree)
    (before names : List Name) :
    MoreDirs t (makeDirs limit origin t before names).1 := by
  induction names generalizing t before with
  | nil => exact .refl t
  | cons name rest ih =>
    rw [makeDirs]
    split
    · rename_i t' hmake
      exact (moreDirs_makeDir hmake).trans (ih t' (before ++ [name]))
    · exact .refl t

theorem moreDirs_createDirPath (t : FileTree) (limit : ℕ) (base : Location) (path : List UInt8) :
    MoreDirs t (t.createDirPath limit base path).1 := by
  rw [createDirPath]
  split
  · exact .refl t
  · exact moreDirs_makeDirs limit _ t [] _

/-! ## Walking -/

theorem move_mono {t' : FileTree} (h : MoreDirs t t') {loc : Location} {name : Name}
    (hmissing : t.move loc name ≠ .missing) (hnotDir : t.move loc name ≠ .notDir) :
    t'.move loc name = t.move loc name := by
  rw [move] at hmissing hnotDir
  rw [move, move]
  by_cases hdir : t.entry loc = some .dir
  · have hdir' : t'.entry loc = some .dir := by
      rw [h.keep loc (by rw [hdir]; exact Option.some_ne_none _), hdir]
    rw [if_neg (not_not.mpr hdir)] at hmissing
    rw [if_neg (not_not.mpr hdir), if_neg (not_not.mpr hdir')]
    by_cases hstay : name = [] ∨ name = dot
    · rw [if_pos hstay, if_pos hstay]
    · by_cases hup : name = dotdot
      · rw [if_neg hstay, if_pos hup, if_neg hstay, if_pos hup]
      · rw [if_neg hstay, if_neg hup] at hmissing ⊢
        rw [if_neg hstay, if_neg hup]
        by_cases hentry : t.entry (loc ++ [name]) = none
        · rw [hentry] at hmissing
          exact absurd rfl hmissing
        · rw [h.keep _ hentry]
  · rw [if_pos hdir] at hnotDir
    exact absurd rfl hnotDir

theorem walkWith_mono {t' : FileTree} (h : MoreDirs t t')
    {follow follow' : Location → List Name → Found} {l : Location}
    (hfollow : ∀ loc cs, follow loc cs = .reached l → follow' loc cs = .reached l) {loc : Location}
    {cs : List Name} (hw : t.walkWith follow loc cs = .reached l) :
    t'.walkWith follow' loc cs = .reached l := by
  induction cs generalizing loc with
  | nil => exact hw
  | cons name rest ih =>
    rw [walkWith] at hw ⊢
    cases hmove : t.move loc name with
    | goes loc' =>
      rw [hmove] at hw
      rw [move_mono h (by simp [hmove]) (by simp [hmove]), hmove]
      exact ih hw
    | link target =>
      rw [hmove] at hw
      rw [move_mono h (by simp [hmove]) (by simp [hmove]), hmove]
      exact hfollow _ _ hw
    | missing =>
      rw [hmove] at hw
      dsimp only at hw
      split at hw <;> cases hw
    | notDir =>
      rw [hmove] at hw
      cases hw

/-- With more directories, and more links allowed, a path leads where it did. -/
theorem walk_mono {t' : FileTree} (h : MoreDirs t t') {n m : ℕ} (hnm : n ≤ m) {loc l : Location}
    {cs : List Name} (hw : t.walk n loc cs = .reached l) : t'.walk m loc cs = .reached l := by
  induction n generalizing m loc cs with
  | zero =>
    cases m with
    | zero => exact walkWith_mono h (fun _ _ hbroken => by cases hbroken) hw
    | succ m => exact walkWith_mono h (fun _ _ hbroken => by cases hbroken) hw
  | succ n ih =>
    cases m with
    | zero => exact absurd hnm (Nat.not_succ_le_zero n)
    | succ m =>
      exact walkWith_mono h (fun _ _ hfollow => ih (Nat.le_of_succ_le_succ hnm) hfollow) hw

theorem walkWith_append {n : ℕ} {follow : Location → List Name → Found} {l : Location}
    {bs : List Name}
    (hfollow : ∀ loc cs, follow loc (cs ++ bs) = .reached l →
      ∃ mid, follow loc cs = .reached mid ∧ t.walk n mid bs = .reached l)
    (hlast : ∀ loc, t.walkWith follow loc bs = .reached l → t.walk n loc bs = .reached l)
    {loc : Location} {as : List Name} (hw : t.walkWith follow loc (as ++ bs) = .reached l) :
    ∃ mid, t.walkWith follow loc as = .reached mid ∧ t.walk n mid bs = .reached l := by
  induction as generalizing loc with
  | nil => exact ⟨loc, rfl, hlast loc hw⟩
  | cons name rest ih =>
    rw [List.cons_append, walkWith] at hw
    rw [walkWith]
    cases hmove : t.move loc name with
    | goes loc' =>
      rw [hmove] at hw
      exact ih hw
    | link target =>
      rw [hmove] at hw
      dsimp only at hw
      rw [← List.append_assoc] at hw
      exact hfollow _ _ hw
    | missing =>
      rw [hmove] at hw
      dsimp only at hw
      split at hw <;> cases hw
    | notDir =>
      rw [hmove] at hw
      cases hw

/-- **A path can be walked in two parts.** -/
theorem walk_append {n : ℕ} {loc l : Location} {as bs : List Name}
    (h : t.walk n loc (as ++ bs) = .reached l) :
    ∃ mid, t.walk n loc as = .reached mid ∧ t.walk n mid bs = .reached l := by
  induction n generalizing loc as with
  | zero =>
    have hbroken : ∀ (loc : Location) (cs : List Name),
        Found.broken .symLinkLoop = .reached l → ∃ mid, Found.broken .symLinkLoop = .reached mid ∧
          t.walk 0 mid bs = .reached l := fun _ _ h => by cases h
    refine walkWith_append (n := 0) ?_ ?_ h
    · exact hbroken
    · exact fun _ hw => hw
  | succ n ih =>
    refine walkWith_append (n := n + 1) ?_ ?_ h
    · intro loc cs hfollow
      obtain ⟨mid, hmid, hlast⟩ := ih hfollow
      exact ⟨mid, hmid, walk_mono (.refl t) (Nat.le_succ n) hlast⟩
    · exact fun _ hw => hw

/-! ## What is reached -/

theorem exists_walkWith (t : FileTree) (n : ℕ) : ∃ follow, t.walk n = t.walkWith follow := by
  cases n with
  | zero => exact ⟨_, rfl⟩
  | succ n => exact ⟨_, rfl⟩

theorem entry_of_move {loc loc' : Location} {name : Name} (h : t.move loc name = .goes loc') :
    t.entry loc' ≠ none := by
  rw [move] at h
  by_cases hdir : t.entry loc = some .dir
  · rw [if_neg (not_not.mpr hdir)] at h
    split at h
    · obtain rfl := Move.goes.inj h
      rw [hdir]
      exact Option.some_ne_none _
    · split at h
      · obtain rfl := Move.goes.inj h
        rcases List.eq_nil_or_concat loc with rfl | ⟨dir, last, rfl⟩
        · rw [List.dropLast_nil, hdir]
          exact Option.some_ne_none _
        · rw [List.concat_eq_append] at hdir ⊢
          rw [List.dropLast_concat, t.parent dir last (by rw [hdir]; exact Option.some_ne_none _)]
          exact Option.some_ne_none _
      · split at h
        · cases h
        · rename_i e _ hentry
          obtain rfl := Move.goes.inj h
          rw [hentry]
          exact Option.some_ne_none _
        · cases h
  · rw [if_pos hdir] at h
    cases h

theorem entry_of_walkWith {follow : Location → List Name → Found} {l : Location}
    (hfollow : ∀ loc cs, t.entry loc ≠ none → follow loc cs = .reached l → t.entry l ≠ none)
    {loc : Location} {cs : List Name} (hloc : t.entry loc ≠ none)
    (h : t.walkWith follow loc cs = .reached l) : t.entry l ≠ none := by
  induction cs generalizing loc with
  | nil =>
    obtain rfl := Found.reached.inj h
    exact hloc
  | cons name rest ih =>
    rw [walkWith] at h
    cases hmove : t.move loc name with
    | goes loc' =>
      rw [hmove] at h
      exact ih (entry_of_move hmove) h
    | link target =>
      rw [hmove] at h
      refine hfollow _ _ ?_ h
      rw [start]
      split
      · rw [t.root]
        exact Option.some_ne_none _
      · exact hloc
    | missing =>
      rw [hmove] at h
      dsimp only at h
      split at h <;> cases h
    | notDir =>
      rw [hmove] at h
      cases h

/-- **What is reached is there.** -/
theorem entry_of_walk {n : ℕ} {loc l : Location} {cs : List Name} (hloc : t.entry loc ≠ none)
    (h : t.walk n loc cs = .reached l) : t.entry l ≠ none := by
  induction n generalizing loc cs with
  | zero => exact entry_of_walkWith (fun _ _ _ hbroken => by cases hbroken) hloc h
  | succ n ih => exact entry_of_walkWith (fun _ _ hloc hfollow => ih hloc hfollow) hloc h

/-- A walk of at least one name begins in a directory. -/
theorem entry_of_walk_cons {n : ℕ} {loc l : Location} {name : Name} {rest : List Name}
    (h : t.walk n loc (name :: rest) = .reached l) : t.entry loc = some .dir := by
  obtain ⟨follow, hwalk⟩ := exists_walkWith t n
  by_contra hdir
  rw [hwalk, walkWith, move, if_pos hdir] at h
  cases h

theorem entry_of_find {limit : ℕ} {base loc : Location} {path : List UInt8}
    (h : t.find limit base path = .reached loc) : t.entry loc ≠ none := by
  rw [find] at h
  split at h
  · cases h
  · obtain ⟨name, rest, hcs⟩ := List.exists_cons_of_ne_nil (List.splitOn_ne_nil slash path)
    have hwalk : t.walk limit (start base path) (name :: rest) = .reached loc := hcs ▸ h
    refine entry_of_walk ?_ hwalk
    rw [entry_of_walk_cons hwalk]
    exact Option.some_ne_none _

/-- Every name on the way to an entry is proper. -/
theorem proper_of_entry {loc : Location} (h : t.entry loc ≠ none) : ∀ name ∈ loc, Proper name := by
  induction loc using List.reverseRecOn with
  | nil => simp
  | append_singleton dir last ih =>
    intro name hname
    rcases List.mem_append.mp hname with hname | hname
    · exact ih (by rw [t.parent dir last h]; exact Option.some_ne_none _) name hname
    · obtain rfl := List.mem_singleton.mp hname
      exact t.proper dir name h

/-! ## Making directories again -/

theorem walkWith_goes {follow : Location → List Name → Found} {name : Name} {mid l : Location}
    (hfollow : ∀ loc cs, follow loc cs = .reached mid → follow loc (cs ++ [name]) = .reached l)
    (hgoes : t.move mid name = .goes l) {loc : Location} {as : List Name}
    (h : t.walkWith follow loc as = .reached mid) :
    t.walkWith follow loc (as ++ [name]) = .reached l := by
  induction as generalizing loc with
  | nil =>
    obtain rfl := Found.reached.inj h
    rw [List.nil_append, walkWith, hgoes]
    rfl
  | cons name' rest ih =>
    rw [walkWith] at h
    rw [List.cons_append, walkWith]
    cases hmove : t.move loc name' with
    | goes loc' =>
      rw [hmove] at h
      exact ih h
    | link target =>
      rw [hmove] at h
      dsimp only
      rw [← List.append_assoc]
      exact hfollow _ _ h
    | missing =>
      rw [hmove] at h
      dsimp only at h
      split at h <;> cases h
    | notDir =>
      rw [hmove] at h
      cases h

/-- A walk goes on by a name that is no link. -/
theorem walk_goes {n : ℕ} {name : Name} {loc mid l : Location} {as : List Name}
    (h : t.walk n loc as = .reached mid) (hgoes : t.move mid name = .goes l) :
    t.walk n loc (as ++ [name]) = .reached l := by
  induction n generalizing loc as with
  | zero => exact walkWith_goes (fun _ _ hbroken => by cases hbroken) hgoes h
  | succ n ih => exact walkWith_goes (fun _ _ hmid => ih hmid) hgoes h

/-- A name that leads somewhere cannot be made. -/
theorem not_new_of_walk {n : ℕ} {name : Name} {dir l : Location}
    (h : t.walk n dir [name] = .reached l) :
    ¬ (t.entry dir = some .dir ∧ Proper name ∧ t.entry (dir ++ [name]) = none) := by
  rintro ⟨hdir, ⟨hne, hdot, hdotdot, -⟩, hnone⟩
  have hmissing : t.move dir name = .missing := by
    rw [move, if_neg (not_not.mpr hdir), if_neg (not_or.mpr ⟨hne, hdot⟩), if_neg hdotdot, hnone]
  obtain ⟨follow, hwalk⟩ := exists_walkWith t n
  rw [hwalk, walkWith, hmissing] at h
  cases h

/-- Where a directory was made, or found, one can walk. -/
theorem walk_of_makeDir {t₁ : FileTree} {limit : ℕ} {origin : Location} {before : List Name}
    {name : Name} (h : t.makeDir limit origin before name = some t₁) :
    ∃ loc, t₁.walk limit origin (before ++ [name]) = .reached loc ∧ t₁.entry loc = some .dir := by
  have hmore := moreDirs_makeDir h
  rw [makeDir] at h
  split at h
  · rename_i dir hwalk
    split at h
    · rename_i hnew
      obtain ⟨hdir, hproper, hnone⟩ := hnew
      obtain rfl := Option.some.inj h
      have hfits : t.Fits (dir ++ [name]) := by
        refine ⟨by rw [hnone]; exact Option.some_ne_none _ |>.symm, ?_, ?_⟩
        · rw [List.dropLast_concat, hdir]
        · intro name' hname'
          rw [List.getLast?_concat] at hname'
          exact Option.some.inj hname' ▸ hproper
      have hentry : (t.put (dir ++ [name]) .dir).entry (dir ++ [name]) = some .dir := by
        rw [put, dif_pos hfits]
        exact Function.update_self ..
      have hdir' : (t.put (dir ++ [name]) .dir).entry dir = some .dir :=
        (hmore.keep dir (by rw [hdir]; exact Option.some_ne_none _)).trans hdir
      obtain ⟨hne, hdot, hdotdot, -⟩ := hproper
      refine ⟨dir ++ [name], walk_goes (walk_mono hmore (Nat.le_refl _) hwalk) ?_, hentry⟩
      rw [move, if_neg (not_not.mpr hdir'), if_neg (not_or.mpr ⟨hne, hdot⟩), if_neg hdotdot, hentry]
    · split at h
      · rename_i loc hloc
        split at h
        · rename_i hentry
          obtain rfl := Option.some.inj h
          exact ⟨loc, hloc, hentry⟩
        · cases h
      · cases h
  · cases h

/-- **A directory that was made** is not made again. -/
theorem makeDir_again {t₁ t' : FileTree} {limit : ℕ} {origin : Location} {before : List Name}
    {name : Name} (h : t.makeDir limit origin before name = some t₁) (hmore : MoreDirs t₁ t') :
    t'.makeDir limit origin before name = some t' := by
  obtain ⟨loc, hloc, hentry⟩ := walk_of_makeDir h
  have hloc' := walk_mono hmore (Nat.le_refl limit) hloc
  have hentry' : t'.entry loc = some .dir :=
    (hmore.keep loc (by rw [hentry]; exact Option.some_ne_none _)).trans hentry
  obtain ⟨mid, hmid, hlast⟩ := walk_append hloc'
  rw [makeDir, hmid]
  dsimp only
  rw [if_neg (not_new_of_walk hlast), hloc']
  exact if_pos hentry'

theorem makeDirs_again (limit : ℕ) (origin : Location) (t : FileTree) (before names : List Name) :
    (makeDirs limit origin (makeDirs limit origin t before names).1 before names).1 =
      (makeDirs limit origin t before names).1 := by
  induction names generalizing t before with
  | nil => rfl
  | cons name rest ih =>
    cases hmake : t.makeDir limit origin before name with
    | none =>
      have hnone : makeDirs limit origin t before (name :: rest) = (t, false) := by
        rw [makeDirs, hmake]
      rw [hnone, hnone]
    | some t₁ =>
      have hsome : makeDirs limit origin t before (name :: rest) =
          makeDirs limit origin t₁ (before ++ [name]) rest := by
        rw [makeDirs, hmake]
      have hmore := moreDirs_makeDirs limit origin t₁ (before ++ [name]) rest
      rw [hsome, makeDirs, makeDir_again hmake hmore]
      exact ih t₁ (before ++ [name])

/-- **Directories that were made**, as far as they could be, are not made again. -/
theorem createDirPath_again (t : FileTree) (limit : ℕ) (base : Location) (path : List UInt8) :
    ((t.createDirPath limit base path).1.createDirPath limit base path).1 =
      (t.createDirPath limit base path).1 := by
  simp only [createDirPath]
  split
  · rfl
  · exact makeDirs_again limit _ t [] _

/-! ## Plain paths -/

variable (t) in
/-- No link and no `..` on the way. -/
def plain : Location → List Name → Bool
  | _, [] => true
  | loc, name :: rest =>
    if name = [] ∨ name = dot then plain loc rest
    else if name = dotdot then false
    else
      match t.entry (loc ++ [name]) with
      | some (.link _) => false
      | _ => plain (loc ++ [name]) rest

/-- The names that lead down. -/
def lexical (cs : List Name) : List Name := cs.filter fun name => ¬ (name = [] ∨ name = dot)

theorem lexical_cons_stay {name : Name} (h : name = [] ∨ name = dot) (rest : List Name) :
    lexical (name :: rest) = lexical rest :=
  List.filter_cons_of_neg (by rwa [decide_not, Bool.not_eq_true', decide_eq_false_iff_not, not_not])

theorem lexical_cons_down {name : Name} (h : ¬ (name = [] ∨ name = dot)) (rest : List Name) :
    lexical (name :: rest) = name :: lexical rest :=
  List.filter_cons_of_pos (by simpa using h)

theorem lexical_append (as bs : List Name) : lexical (as ++ bs) = lexical as ++ lexical bs :=
  List.filter_append ..

/-- **A plain path leads where it says.** -/
theorem walk_of_plain {n : ℕ} {loc : Location} {cs : List Name} (h : t.plain loc cs = true) :
    t.walk n loc cs = .reached (loc ++ lexical cs) ∨
      t.walk n loc cs = .missing (loc ++ lexical cs) ∨ ∃ e, t.walk n loc cs = .broken e := by
  obtain ⟨follow, hwalk⟩ := exists_walkWith t n
  rw [hwalk]
  induction cs generalizing loc with
  | nil => exact .inl (by rw [walkWith]; simp [lexical])
  | cons name rest ih =>
    rw [walkWith, move]
    rw [plain] at h
    by_cases hdir : t.entry loc = some .dir
    · rw [if_neg (not_not.mpr hdir)]
      by_cases hstay : name = [] ∨ name = dot
      · rw [if_pos hstay] at h ⊢
        rw [lexical_cons_stay hstay]
        exact ih h
      · rw [if_neg hstay] at h ⊢
        rw [lexical_cons_down hstay]
        by_cases hup : name = dotdot
        · rw [if_pos hup] at h
          cases h
        · rw [if_neg hup] at h ⊢
          cases hentry : t.entry (loc ++ [name]) with
          | none =>
            dsimp only
            split
            · rename_i hrest
              subst hrest
              exact .inr (.inl rfl)
            · exact .inr (.inr ⟨_, rfl⟩)
          | some e =>
            rw [hentry] at h
            have happend : loc ++ name :: lexical rest = (loc ++ [name]) ++ lexical rest := by simp
            rw [happend]
            cases e with
            | link target => cases h
            | dir => exact ih h
            | file content => exact ih h
    · rw [if_pos hdir]
      exact .inr (.inr ⟨_, rfl⟩)

theorem plain_append {loc : Location} (as bs : List Name) :
    t.plain loc (as ++ bs) = (t.plain loc as && t.plain (loc ++ lexical as) bs) := by
  induction as generalizing loc with
  | nil => simp [plain, lexical]
  | cons name rest ih =>
    rw [List.cons_append, plain, plain]
    by_cases hstay : name = [] ∨ name = dot
    · rw [if_pos hstay, if_pos hstay, lexical_cons_stay hstay, ih]
    · rw [if_neg hstay, if_neg hstay, lexical_cons_down hstay]
      by_cases hup : name = dotdot
      · rw [if_pos hup, if_pos hup, Bool.false_and]
      · rw [if_neg hup, if_neg hup]
        cases hentry : t.entry (loc ++ [name]) with
        | none =>
          dsimp only
          rw [ih, List.append_assoc]
          rfl
        | some e =>
          cases e with
          | link target => rfl
          | dir =>
            dsimp only
            rw [ih, List.append_assoc]
            rfl
          | file content =>
            dsimp only
            rw [ih, List.append_assoc]
            rfl

theorem plain_mono {t' : FileTree} (h : MoreDirs t t') {loc : Location} {cs : List Name}
    (hplain : t.plain loc cs = true) : t'.plain loc cs = true := by
  induction cs generalizing loc with
  | nil => rfl
  | cons name rest ih =>
    rw [plain] at hplain ⊢
    by_cases hstay : name = [] ∨ name = dot
    · rw [if_pos hstay] at hplain ⊢
      exact ih hplain
    · rw [if_neg hstay] at hplain ⊢
      by_cases hup : name = dotdot
      · rw [if_pos hup] at hplain
        cases hplain
      · rw [if_neg hup] at hplain ⊢
        cases hentry : t.entry (loc ++ [name]) with
        | none =>
          rw [hentry] at hplain
          rcases h.new _ hentry with hnone | hdir
          · rw [hnone]
            exact ih hplain
          · rw [hdir]
            exact ih hplain
        | some e =>
          rw [h.keep _ (by rw [hentry]; exact Option.some_ne_none e), hentry]
          rw [hentry] at hplain
          cases e with
          | link target => cases hplain
          | dir => exact ih hplain
          | file content => exact ih hplain

/-! ## Writing -/

/-- **Writing changes what the path leads to, and nothing else.** -/
theorem writeFile_spec {t' : FileTree} {limit : ℕ} {base : Location} {path data : List UInt8}
    (h : t.writeFile limit base path data = some t') :
    ∃ loc, (t.find limit base path = .reached loc ∨ t.find limit base path = .missing loc) ∧
      ∀ loc' ≠ loc, t'.entry loc' = t.entry loc' := by
  rw [writeFile] at h
  split at h
  · rename_i loc hfound
    split at h
    · obtain rfl := Option.some.inj h
      exact ⟨loc, .inl hfound, fun loc' hne => t.entry_put_of_ne _ hne⟩
    · cases h
  · rename_i loc hfound
    obtain rfl := Option.some.inj h
    exact ⟨loc, .inr hfound, fun loc' hne => t.entry_put_of_ne _ hne⟩
  · cases h

/-! ## Joined paths -/

theorem components_append (as bs : List UInt8) :
    components (as ++ slash :: bs) = components as ++ components bs :=
  List.splitOn_append_cons_self as bs

/-- The names of both paths, but for an empty one between them. -/
theorem components_join {a b : List UInt8} (ha : a ≠ []) (hb : b ≠ [])
    (hrel : b.head? ≠ some slash) :
    ∃ front, components (join a b) = front ++ components b ∧
      (components a = front ∨ components a = front ++ [[]]) := by
  rw [join, if_neg ha, if_neg hb, decide_eq_false hrel]
  by_cases hlast : a.getLast? = some slash
  · obtain ⟨front, rfl⟩ := List.getLast?_eq_some_iff.mp hlast
    rw [decide_eq_true hlast]
    refine ⟨components front, ?_, .inr (components_append front [])⟩
    show components (front ++ [slash] ++ b) = _
    rw [← components_append, List.append_assoc, List.singleton_append]
  · rw [decide_eq_false hlast]
    exact ⟨components a, components_append a b, .inl rfl⟩

theorem head?_join {a b : List UInt8} (ha : a ≠ []) : (join a b).head? = a.head? := by
  obtain ⟨x, xs, rfl⟩ := List.exists_cons_of_ne_nil ha
  rw [join, if_neg ha]
  split
  · rfl
  · split <;> rfl

/-- An empty name is passed over, if another one follows. -/
theorem walkWith_insert {follow : Location → List Name → Found} {bs : List Name} (hbs : bs ≠ [])
    (hfollow : ∀ loc cs, follow loc (cs ++ [] :: bs) = follow loc (cs ++ bs)) (loc : Location)
    (as : List Name) :
    t.walkWith follow loc (as ++ [] :: bs) = t.walkWith follow loc (as ++ bs) := by
  induction as generalizing loc with
  | nil =>
    obtain ⟨c, cs, rfl⟩ := List.exists_cons_of_ne_nil hbs
    rw [List.nil_append, List.nil_append, walkWith, move]
    by_cases hdir : t.entry loc = some .dir
    · rw [if_neg (not_not.mpr hdir), if_pos (.inl rfl)]
    · rw [if_pos hdir, walkWith, move, if_pos hdir]
  | cons name rest ih =>
    rw [List.cons_append, List.cons_append, walkWith, walkWith]
    cases t.move loc name with
    | goes loc' => exact ih loc'
    | link target =>
      dsimp only
      rw [← List.append_assoc, ← List.append_assoc]
      exact hfollow _ _
    | missing =>
      dsimp only
      rw [if_neg (by simp), if_neg (by simp [hbs])]
    | notDir => rfl

theorem walk_insert {n : ℕ} {bs : List Name} (hbs : bs ≠ []) (loc : Location) (as : List Name) :
    t.walk n loc (as ++ [] :: bs) = t.walk n loc (as ++ bs) := by
  induction n generalizing loc as with
  | zero => exact walkWith_insert hbs (fun _ _ => rfl) loc as
  | succ n ih => exact walkWith_insert hbs ih loc as

/-- **A joined path leads where its second part leads from the end of its first.** -/
theorem walk_join {n : ℕ} {loc l : Location} {a b : List UInt8} (ha : a ≠ []) (hb : b ≠ [])
    (hrel : b.head? ≠ some slash) (h : t.walk n loc (components (join a b)) = .reached l) :
    ∃ mid, t.walk n loc (components a) = .reached mid ∧
      t.walk n mid (components b) = .reached l := by
  obtain ⟨front, hjoin, rfl | hfront⟩ := components_join ha hb hrel
  · exact walk_append (hjoin ▸ h)
  · have hne : components b ≠ [] := List.splitOn_ne_nil _ _
    rw [hjoin, ← walk_insert hne, List.append_cons, ← hfront] at h
    exact walk_append h

/-- **A joined path that is plain is plain in both parts.** -/
theorem plain_join {loc : Location} {a b : List UInt8} (ha : a ≠ []) (hb : b ≠ [])
    (hrel : b.head? ≠ some slash) (h : t.plain loc (components (join a b)) = true) :
    t.plain loc (components a) = true ∧
      t.plain (loc ++ lexical (components a)) (components b) = true ∧
      lexical (components (join a b)) = lexical (components a) ++ lexical (components b) := by
  obtain ⟨front, hjoin, hfront⟩ := components_join ha hb hrel
  rw [hjoin, plain_append, Bool.and_eq_true] at h
  rw [hjoin, lexical_append]
  rcases hfront with hfront | hfront
  · rw [hfront]
    exact ⟨h.1, h.2, rfl⟩
  · have hstay : lexical (components a) = lexical front := by
      rw [hfront, lexical_append, lexical_cons_stay (.inl rfl)]
      exact List.append_nil _
    rw [hstay, hfront, plain_append]
    exact ⟨by rw [h.1]; rfl, h.2, rfl⟩

/-! ## Under a location -/

theorem components_names {name : Name} {names : List Name} (hname : slash ∉ name)
    (hnames : ∀ name ∈ names, slash ∉ name) :
    components (name ++ names.flatMap fun name => slash :: name) = name :: names := by
  induction names generalizing name with
  | nil =>
    rw [List.flatMap_nil, List.append_nil]
    exact List.splitOn_eq_singleton hname
  | cons name' names ih =>
    rw [List.forall_mem_cons] at hnames
    rw [List.flatMap_cons, List.cons_append, components_append, ih hnames.1 hnames.2]
    rw [components, List.splitOn_eq_singleton hname]
    rfl

theorem components_render {loc : Location} (hne : loc ≠ []) (hloc : ∀ name ∈ loc, slash ∉ name) :
    components (render loc) = [] :: loc := by
  rw [render, if_neg hne]
  exact components_names List.not_mem_nil hloc

theorem lexical_of_proper {loc : Location} (h : ∀ name ∈ loc, Proper name) : lexical loc = loc := by
  refine List.filter_eq_self.mpr fun name hname => ?_
  obtain ⟨hne, hdot, -, -⟩ := h name hname
  rw [decide_eq_true_eq, not_or]
  exact ⟨hne, hdot⟩

theorem head?_render (loc : Location) : (render loc).head? = some slash := by
  rw [render]
  split
  · rfl
  · rename_i hne
    obtain ⟨name, names, rfl⟩ := List.exists_cons_of_ne_nil hne
    rfl

end FileTree
