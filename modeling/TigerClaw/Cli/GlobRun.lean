import Mathlib.Algebra.Group.Int.Defs
import TigerClaw.Cli.GlobMatch
import TigerClaw.Library.Listing

/-!
# The files that a pattern finds

`run` of `src/cli/commands/tool_glob.zig` opens a search root, walks it, and returns the paths that
one of the expanded patterns matches, the latest first.

* `openSearchRoot`, `search`, `run`: the code.  The search path is opened from the directory of the
  process, whatever the workspace is.
* `RightResult`: what is asked of the result, for a workspace and a directory in it.
* `search_spec`: what the walk of a directory returns, relative to that directory.
* `runs_right`: the result is right where the directory that is opened is the workspace.
-/

namespace TigerClaw
namespace Cli
namespace GlobRun

open FileTree (Location Name Listing pathOf components Proper)
open GlobBraces (expandBraces)
open GlobMatch (matchFullPath)

/-! ## The code -/

structure GlobOptions where
  pattern : Bytes
  path : Option Bytes := none

structure GlobMatch where
  path : Bytes
  mtimeNs : ℤ
  deriving DecidableEq

structure GlobResult where
  found : List GlobMatch
  truncated : Bool

inductive GlobError where
  | invalidPattern
  | openFailed

def maxMatches : ℕ := 500

def maxExpandedPatterns : ℕ := 64

def ignoreDirNames : List Bytes :=
  [ascii ".git", ascii ".zig-cache", ascii "zig-out", ascii "node_modules", ascii "target",
    ascii "dist", ascii "build", ascii ".venv", ascii "venv", ascii "__pycache__", ascii ".next",
    ascii ".cache"]

def isIgnoredDir (name : Bytes) : Bool := ignoreDirNames.any fun ignored => ignored = name

def hidden (name : Bytes) : Bool := name.head? = some 0x2E

def patternAllowsHidden (patterns : List Bytes) : Bool := patterns.any hidden

/-- The files that a process sees: how many links a call follows, and when what an entry leads to
was changed, if it can be opened. -/
structure Disk where
  tree : FileTree
  listing : Listing tree
  limit : ℕ
  mtime : Location → Option ℤ

/-- `std.Io.Dir`: the directory of the process has no handle of its own. -/
inductive Handle where
  | cwd
  | opened (dir : Location)
  deriving DecidableEq

/-- `close`, which must not be given the directory of the process. -/
def Handle.close : Handle → Option Unit
  | .cwd => none
  | .opened _ => some ()

variable (disk : Disk)

def openDir (cwd : Location) (path : Bytes) : Except FileTree.PathError Handle :=
  (disk.tree.openDir disk.limit cwd path).map .opened

/-- `openSearchRoot`; nothing comes back where a handle is not used as it may be. -/
def openSearchRoot (cwd : Location) (workspaceRoot sub : Bytes) :
    Option (Except FileTree.PathError Handle) :=
  match if workspaceRoot.length = 0 then .ok .cwd else openDir disk cwd workspaceRoot with
  | .error e => some (.error e)
  | .ok root =>
    if sub.length = 0 ∨ sub = ascii "." then
      if workspaceRoot.length = 0 then some (.ok root)
      else root.close.map fun _ => openDir disk cwd workspaceRoot
    else root.close.map fun _ => openDir disk cwd (if workspaceRoot.length = 0 then sub else sub)

/-- The directories that the walker enters. -/
def enters (patterns : List Bytes) (basename : Name) : Bool :=
  !(isIgnoredDir basename || (hidden basename && !patternAllowsHidden patterns))

/-- The entries that are returned. -/
def accepts (patterns : List Bytes) (rel : Location) : Bool :=
  !(rel.getLast?.any hidden && !patternAllowsHidden patterns) &&
    patterns.any fun pat => matchFullPath pat (pathOf rel)

/-- The path and the time that are returned for an entry. -/
def matchOf (dir rel : Location) : GlobMatch :=
  { path := pathOf rel
    mtimeNs := (disk.mtime (dir ++ rel)).getD 0 }

/-- The loop over the entries that are no directories, with the matches so far. -/
def collect (patterns : List Bytes) (dir : Location) (found : List GlobMatch) :
    List Location → List GlobMatch × Bool
  | [] => (found, false)
  | rel :: rest =>
    if ¬ accepts patterns rel then collect patterns dir found rest
    else if maxMatches ≤ found.length then (found, true)
    else collect patterns dir (found ++ [matchOf disk dir rel]) rest

def mtimeDescLess (a b : GlobMatch) : Bool := a.mtimeNs > b.mtimeNs

/-- The walk, and the stable sort behind it. -/
def search (patterns : List Bytes) (dir : Location) : GlobResult :=
  let collected := collect disk patterns dir [] (disk.listing.below (enters patterns) dir)
  { found := collected.1.mergeSort fun a b => !mtimeDescLess b a
    truncated := collected.2 }

/-- The walk from what has been opened; the directory of the process must not be iterated either. -/
def searchFrom (patterns : List Bytes) :
    Option (Except FileTree.PathError Handle) → Option (Except GlobError GlobResult)
  | none => none
  | some (.error _) => some (.error .openFailed)
  | some (.ok .cwd) => none
  | some (.ok (.opened dir)) => some (.ok (search disk patterns dir))

def run (cwd : Location) (workspaceRoot : Bytes) (opts : GlobOptions) :
    Option (Except GlobError GlobResult) :=
  let sub := opts.path.getD []
  match expandBraces opts.pattern with
  | .error _ => some (.error .invalidPattern)
  | .ok patterns =>
    if patterns.length = 0 then some (.error .invalidPattern)
    else if patterns.length > maxExpandedPatterns then some (.error .invalidPattern)
    else searchFrom disk patterns (openSearchRoot disk cwd workspaceRoot sub)

/-! ## What is asked for -/

/-- The path leads from the directory to a file, or is that of a link. -/
def NamesFile (dir : Location) (path : Bytes) : Prop :=
  (∃ loc, disk.tree.find disk.limit dir path = .reached loc ∧ (disk.tree.fileAt loc).isSome) ∨
    ∃ target, disk.tree.entry (dir ++ components path) = some (.link target)

/-- A file or a link below a directory that is not hidden, and behind no hidden or pruned
directory. -/
def Visible (searched rel : Location) : Prop :=
  rel ≠ [] ∧ disk.tree.entry (searched ++ rel) ≠ none ∧
    disk.tree.entry (searched ++ rel) ≠ some .dir ∧ (∀ name ∈ rel, hidden name = false) ∧
    ∀ name ∈ rel.dropLast, isIgnoredDir name = false

/-- What the result should be, for the workspace and the directory that is to be searched: every
path names a file from the workspace, in that directory; and every visible file there that a pattern
matches is returned once, unless the result is truncated. -/
def RightResult (patterns : List Bytes) (root searched : Location) (r : GlobResult) : Prop :=
  (∀ m ∈ r.found, NamesFile disk root m.path ∧
    ∃ rel, rel ≠ [] ∧ root ++ components m.path = searched ++ rel) ∧
  (r.truncated = false → ∀ rel, Visible disk searched rel →
    (∃ pat ∈ patterns, matchFullPath pat (pathOf rel) = true) →
      (r.found.countP fun m => root ++ components m.path = searched ++ rel) = 1)

/-- The directory of the workspace. -/
def workspaceAt (cwd : Location) (workspaceRoot : Bytes) : Except FileTree.PathError Location :=
  if workspaceRoot = [] then .ok cwd else disk.tree.openDir disk.limit cwd workspaceRoot

/-- The directory that a search path names in the workspace. -/
def requested (root : Location) (sub : Bytes) : Except FileTree.PathError Location :=
  if sub = [] then .ok root else disk.tree.openDir disk.limit root sub

/-- The call comes to an end, and a result is right for the workspace. -/
def RunsRight (cwd : Location) (workspaceRoot : Bytes) (opts : GlobOptions) : Prop :=
  ∃ r, run disk cwd workspaceRoot opts = some r ∧ ∀ result, r = .ok result →
    ∃ patterns root searched, expandBraces opts.pattern = .ok patterns ∧
      workspaceAt disk cwd workspaceRoot = .ok root ∧
      requested disk root (opts.path.getD []) = .ok searched ∧
      RightResult disk patterns root searched result

/-- The pattern is refused. -/
def Refused (pattern : Bytes) : Prop :=
  ∀ patterns, expandBraces pattern = .ok patterns →
    patterns.length = 0 ∨ maxExpandedPatterns < patterns.length

/-- The search path leads to the workspace itself, from there and from the process. -/
def Aligned (cwd : Location) (workspaceRoot sub : Bytes) : Prop :=
  workspaceRoot ≠ [] ∧ (sub = [] ∨ sub = ascii "." ∨
    ∀ root dir, disk.tree.openDir disk.limit cwd workspaceRoot = .ok root →
      disk.tree.openDir disk.limit cwd sub = .ok dir →
        dir = root ∧ disk.tree.openDir disk.limit root sub = .ok root)

variable {disk}

/-! ## The walk -/

/-- The matches so far, and those that are still to come, up to the cap. -/
theorem collect_eq (patterns : List Bytes) (dir : Location) {found : List GlobMatch}
    (h : found.length ≤ maxMatches) (walked : List Location) :
    collect disk patterns dir found walked =
      ((found ++ (walked.filter (accepts patterns)).map (matchOf disk dir)).take maxMatches,
        decide (maxMatches <
          (found ++ (walked.filter (accepts patterns)).map (matchOf disk dir)).length)) := by
  induction walked generalizing found with
  | nil =>
    rw [collect, List.filter_nil, List.map_nil, List.append_nil, List.take_of_length_le h,
      decide_eq_false (Nat.not_lt.mpr h)]
  | cons rel rest ih =>
    rw [collect]
    by_cases haccepts : accepts patterns rel = true
    · rw [if_neg (not_not.mpr haccepts), List.filter_cons_of_pos haccepts, List.map_cons]
      by_cases hcap : maxMatches ≤ found.length
      · have hfull : found.length = maxMatches := Nat.le_antisymm h hcap
        have hmore : maxMatches < (found ++ matchOf disk dir rel ::
            (rest.filter (accepts patterns)).map (matchOf disk dir)).length := by
          rw [List.length_append, hfull, List.length_cons]
          omega
        rw [if_pos hcap, decide_eq_true hmore, ← hfull, List.take_left']
        rfl
      · have hroom : (found ++ [matchOf disk dir rel]).length ≤ maxMatches := by
          rw [List.length_append, List.length_singleton]
          omega
        rw [if_neg hcap, ih hroom, List.append_assoc, List.singleton_append]
    · rw [if_pos haccepts, List.filter_cons_of_neg haccepts, ih h]

/-- The entries below a directory that are returned, unless there are too many. -/
def wanted (disk : Disk) (patterns : List Bytes) (dir : Location) : List Location :=
  (disk.listing.below (enters patterns) dir).filter (accepts patterns)

/-- **What a search returns**: what it wants, up to the cap. -/
theorem search_spec (patterns : List Bytes) (dir : Location) :
    (search disk patterns dir).found.Perm
        (((wanted disk patterns dir).map (matchOf disk dir)).take maxMatches) ∧
      ((search disk patterns dir).truncated = false →
        (search disk patterns dir).found.Perm
          ((wanted disk patterns dir).map (matchOf disk dir))) := by
  have hcollect := @collect_eq disk patterns dir [] (Nat.zero_le _)
    (disk.listing.below (enters patterns) dir)
  rw [List.nil_append, ← wanted] at hcollect
  have hfound : (search disk patterns dir).found.Perm
      (((wanted disk patterns dir).map (matchOf disk dir)).take maxMatches) := by
    rw [search, hcollect]
    exact List.mergeSort_perm _ _
  refine ⟨hfound, fun htruncated => ?_⟩
  rw [search, hcollect] at htruncated
  have hle := Nat.not_lt.mp (of_decide_eq_false htruncated)
  rwa [List.take_of_length_le hle] at hfound

theorem mem_wanted_iff {patterns : List Bytes} {dir rel : Location} :
    rel ∈ wanted disk patterns dir ↔
      (rel ≠ [] ∧ disk.tree.entry (dir ++ rel) ≠ none ∧ disk.tree.entry (dir ++ rel) ≠ some .dir ∧
        ∀ name ∈ rel.dropLast, enters patterns name = true) ∧ accepts patterns rel = true := by
  rw [wanted, List.mem_filter, FileTree.Listing.mem_below_iff]

theorem nodup_wanted (patterns : List Bytes) (dir : Location) :
    (wanted disk patterns dir).Nodup := (FileTree.Listing.nodup_below dir).filter _

/-- What is visible, and matched, is wanted. -/
theorem mem_wanted_of_visible {patterns : List Bytes} {dir rel : Location}
    (h : Visible disk dir rel) (hpat : ∃ pat ∈ patterns, matchFullPath pat (pathOf rel) = true) :
    rel ∈ wanted disk patterns dir := by
  obtain ⟨hne, hentry, hdir, hhidden, hignored⟩ := h
  have hlast : rel.getLast?.any hidden = false := by
    rw [Option.any_eq_false]
    intro name hname
    rw [hhidden name (List.mem_of_getLast? hname)]
  refine mem_wanted_iff.mpr ⟨⟨hne, hentry, hdir, fun name hname => ?_⟩, ?_⟩
  · rw [enters, hignored name hname, hhidden name (List.mem_of_mem_dropLast hname)]
    rfl
  · rw [accepts, hlast, Bool.false_and, Bool.not_false, Bool.true_and, List.any_eq_true]
    exact hpat

theorem components_of_wanted {patterns : List Bytes} {dir rel : Location}
    (h : rel ∈ wanted disk patterns dir) : components (pathOf rel) = rel := by
  obtain ⟨⟨hne, hentry, -⟩, -⟩ := mem_wanted_iff.mp h
  exact FileTree.components_pathOf hne fun name hname =>
    FileTree.proper_of_entry hentry name (List.mem_append_right _ hname)

/-- What is wanted names a file from the directory that was walked. -/
theorem namesFile_of_wanted {patterns : List Bytes} {dir rel : Location}
    (hroot : disk.tree.entry dir = some .dir) (h : rel ∈ wanted disk patterns dir) :
    NamesFile disk dir (pathOf rel) := by
  obtain ⟨⟨hne, hentry, hdir, -⟩, -⟩ := mem_wanted_iff.mp h
  have hproper : ∀ name ∈ rel, Proper name := fun name hname =>
    FileTree.proper_of_entry hentry name (List.mem_append_right _ hname)
  obtain ⟨e, he⟩ := Option.ne_none_iff_exists'.mp hentry
  cases e with
  | dir => exact absurd he hdir
  | file content =>
    refine .inl ⟨dir ++ rel, ?_, ?_⟩
    · rw [FileTree.find_pathOf hne hproper]
      exact FileTree.walk_of_entry hroot he fun target htarget => by cases htarget
    · rw [FileTree.fileAt, he]
      rfl
  | link target =>
    refine .inr ⟨target, ?_⟩
    rw [components_of_wanted h]
    exact he

/-- **A search of a directory is right for that directory.** -/
theorem search_right (patterns : List Bytes) {dir : Location}
    (hroot : disk.tree.entry dir = some .dir) :
    RightResult disk patterns dir dir (search disk patterns dir) := by
  obtain ⟨hfound, hall⟩ := @search_spec disk patterns dir
  constructor
  · intro m hm
    obtain ⟨rel, hrel, rfl⟩ := List.mem_map.mp (List.mem_of_mem_take (hfound.mem_iff.mp hm))
    refine ⟨namesFile_of_wanted hroot hrel, rel, (mem_wanted_iff.mp hrel).1.1, ?_⟩
    rw [matchOf, components_of_wanted hrel]
  · intro htruncated rel hvisible hpat
    have hrel := mem_wanted_of_visible hvisible hpat
    rw [(hall htruncated).countP_eq, List.countP_map,
      ← List.count_eq_one_of_mem (nodup_wanted patterns dir) hrel, List.count]
    refine List.countP_congr fun rel' hrel' => ?_
    have hpath : components (matchOf disk dir rel').path = rel' := components_of_wanted hrel'
    rw [Function.comp_apply, decide_eq_true_iff, hpath, List.append_cancel_left_eq, beq_iff_eq]

/-! ## The root of the search -/

/-- What is opened is a directory. -/
theorem entry_of_openDir {cwd dir : Location} {path : Bytes}
    (h : disk.tree.openDir disk.limit cwd path = .ok dir) :
    disk.tree.entry dir = some .dir := by
  unfold FileTree.openDir at h
  split at h
  · split_ifs at h with hdir
    obtain rfl := Except.ok.inj h
    exact hdir
  · cases h
  · cases h

/-- From a directory, `.` leads to it. -/
theorem openDir_dot {root : Location} (h : disk.tree.entry root = some .dir) :
    disk.tree.openDir disk.limit root (ascii ".") = .ok root := by
  have hcomponents : components (ascii ".") = [FileTree.dot] := by decide
  have hmove : disk.tree.move root FileTree.dot = .goes root := by
    rw [FileTree.move, if_neg (not_not.mpr h), if_pos (.inr rfl)]
  obtain ⟨follow, hwalk⟩ := FileTree.exists_walkWith disk.tree disk.limit
  have hfind : disk.tree.find disk.limit root (ascii ".") = .reached root := by
    rw [FileTree.find, if_neg (by decide), hcomponents, FileTree.start, if_neg (by decide), hwalk,
      FileTree.walkWith, hmove]
    rfl
  rw [FileTree.openDir, hfind]
  exact if_pos h

/-- A root that is not empty is opened; then the search path is, from the same place. -/
theorem openSearchRoot_eq {cwd : Location} {workspaceRoot sub : Bytes}
    (hroot : workspaceRoot ≠ []) :
    openSearchRoot disk cwd workspaceRoot sub =
      some (disk.tree.openDir disk.limit cwd workspaceRoot >>= fun root =>
        if sub.length = 0 ∨ sub = ascii "." then .ok (.opened root)
        else openDir disk cwd sub) := by
  have hlength : workspaceRoot.length ≠ 0 := fun h => hroot (List.length_eq_zero_iff.mp h)
  unfold openSearchRoot openDir
  rw [if_neg hlength]
  cases hopen : disk.tree.openDir disk.limit cwd workspaceRoot with
  | error e => rfl
  | ok root =>
    dsimp only [Except.map, Handle.close]
    rw [if_neg hlength]
    split_ifs <;> rfl

theorem run_of_refused {cwd : Location} {workspaceRoot : Bytes} {opts : GlobOptions}
    (h : Refused opts.pattern) :
    run disk cwd workspaceRoot opts = some (.error .invalidPattern) := by
  unfold run
  cases hpatterns : expandBraces opts.pattern with
  | error e => rfl
  | ok patterns =>
    dsimp only
    rcases h patterns hpatterns with hnil | hmany
    · rw [if_pos hnil]
    · rw [if_pos hmany, ite_self]

theorem exists_run_eq {opts : GlobOptions} (h : ¬ Refused opts.pattern) :
    ∃ patterns, expandBraces opts.pattern = .ok patterns ∧ ∀ cwd workspaceRoot,
      run disk cwd workspaceRoot opts =
        searchFrom disk patterns (openSearchRoot disk cwd workspaceRoot (opts.path.getD [])) := by
  simp only [Refused, not_forall, not_or] at h
  obtain ⟨patterns, hpatterns, hne, hle⟩ := h
  refine ⟨patterns, hpatterns, fun cwd workspaceRoot => ?_⟩
  unfold run
  rw [hpatterns]
  dsimp only
  rw [if_neg hne, if_neg hle]

/-- With an empty root, a handle is used as it must not be. -/
theorem searchFrom_of_root_nil {cwd : Location} {sub : Bytes} (patterns : List Bytes) :
    searchFrom disk patterns (openSearchRoot disk cwd [] sub) = none := by
  unfold openSearchRoot
  rw [if_pos List.length_nil]
  dsimp only [Handle.close]
  rw [if_pos List.length_nil]
  split_ifs <;> rfl

/-- The directory of the workspace is the one that is opened, and asked for. -/
theorem runsRight_of_aligned {cwd : Location} {workspaceRoot : Bytes} {opts : GlobOptions}
    (hrefused : ¬ Refused opts.pattern)
    (h : Aligned disk cwd workspaceRoot (opts.path.getD [])) :
    RunsRight disk cwd workspaceRoot opts := by
  obtain ⟨hroot, haligned⟩ := h
  obtain ⟨patterns, hpatterns, hrun⟩ := @exists_run_eq disk _ hrefused
  unfold RunsRight
  rw [hrun, openSearchRoot_eq hroot]
  cases hopen : disk.tree.openDir disk.limit cwd workspaceRoot with
  | error e => exact ⟨_, rfl, fun result hresult => by cases hresult⟩
  | ok root =>
    have hentry := entry_of_openDir hopen
    have hworkspace : workspaceAt disk cwd workspaceRoot = .ok root := by
      rw [workspaceAt, if_neg hroot, hopen]
    have hright : requested disk root (opts.path.getD []) = .ok root →
        ∀ result, Except.ok (search disk patterns root) = (.ok result : Except GlobError _) →
          ∃ patterns root searched, expandBraces opts.pattern = .ok patterns ∧
            workspaceAt disk cwd workspaceRoot = .ok root ∧
            requested disk root (opts.path.getD []) = .ok searched ∧
            RightResult disk patterns root searched result := by
      rintro hrequested result hresult
      obtain rfl := Except.ok.inj hresult
      exact ⟨patterns, root, root, hpatterns, hworkspace, hrequested, search_right patterns hentry⟩
    by_cases htrivial : (opts.path.getD []).length = 0 ∨ opts.path.getD [] = ascii "."
    · have hrequested : requested disk root (opts.path.getD []) = .ok root := by
        unfold requested
        split_ifs with hnil
        · rfl
        · rw [htrivial.resolve_left fun h => hnil (List.length_eq_zero_iff.mp h)]
          exact openDir_dot hentry
      refine ⟨.ok (search disk patterns root), ?_, hright hrequested⟩
      dsimp only [bind, Except.bind]
      rw [if_pos htrivial]
      rfl
    · dsimp only [bind, Except.bind]
      rw [if_neg htrivial, openDir]
      cases hsub : disk.tree.openDir disk.limit cwd (opts.path.getD []) with
      | error e => exact ⟨_, rfl, fun result hresult => by cases hresult⟩
      | ok dir =>
        rw [List.length_eq_zero_iff, not_or] at htrivial
        have hsame := (haligned.resolve_left htrivial.1).resolve_left htrivial.2
        obtain ⟨rfl, hrequested⟩ := hsame root dir hopen hsub
        refine ⟨.ok (search disk patterns dir), rfl, hright ?_⟩
        rw [requested, if_neg htrivial.1]
        exact hrequested

/-! ## When the result is right -/

/-- The tree with the one file `/ws/src/a.zig`. -/
def sourceTree : FileTree :=
  ((FileTree.bare.put [ascii "ws"] .dir).put [ascii "ws", ascii "src"] .dir).put
    [ascii "ws", ascii "src", ascii "a.zig"] (.file [])

def sourceDisk : Disk where
  tree := sourceTree
  listing :=
    ((Listing.bare.put [] (ascii "ws") .dir (by decide) (by decide)).put [ascii "ws"] (ascii "src")
      .dir (by decide) (by decide)).put [ascii "ws", ascii "src"] (ascii "a.zig") (.file [])
      (by decide) (by decide)
  limit := 40
  mtime _ := none

end GlobRun
end Cli
end TigerClaw
