import TigerClaw.Cli.FileTools
import TigerClaw.Library.StepMachine

/-!
# The path lock

In locked mode a tool may write where the check has looked: at what the path resolves to, or, if
that does not exist, at the path as it is spelled.

* `Effect`: what a tool that writes can do to the files.
* `Careful`: a path that does not resolve passes through no link, and has no `..`.
* `confined`: such calls change no file outside the lock, and in plan mode no file changes.
-/

namespace TigerClaw
namespace Cli
namespace FileTools

open FileTree (Location MoreDirs Proper components lexical render slash start)

/-! ## What the tools do -/

/-- Directories are made; then there may be a file that is written. -/
inductive Effect (env : Env) (t : FileTree) (argumentsJson : Bytes) : FileTree → Prop
  | dirs {t' : FileTree} (h : MoreDirs t t') : Effect env t argumentsJson t'
  | written {t₁ t₂ t' : FileTree} {path data : Bytes} {root : Location}
      (hpath : pathOf env.floatInt argumentsJson = some path) (hne : path ≠ [])
      (hsafe : ensureSafeRelPath path env.sandboxUnlocked = .ok path) (hopen : MoreDirs t t₁)
      (hroot : t₁.openDir env.limit env.cwd env.workspaceRoot = .ok root)
      (hparents : MoreDirs t₁ t₂) (hwrite : t₂.writeFile env.limit root path data = some t') :
    Effect env t argumentsJson t'

theorem openWorkspaceDir_spec {env : Env} {t t₁ : FileTree} {found : Option Location}
    (h : env.openWorkspaceDir t = (found, t₁)) :
    MoreDirs t t₁ ∧ ∀ root, found = some root →
      t₁.openDir env.limit env.cwd env.workspaceRoot = .ok root := by
  have hmore := FileTree.moreDirs_createDirPath t env.limit env.cwd env.workspaceRoot
  rw [Env.openWorkspaceDir] at h
  cases hmade : t.createDirPath env.limit env.cwd env.workspaceRoot with
  | mk made ok =>
    rw [hmade] at h hmore
    cases ok with
    | false =>
      obtain ⟨rfl, rfl⟩ := Prod.mk.inj h
      exact ⟨hmore, fun root hroot => by cases hroot⟩
    | true =>
      dsimp only at h
      cases hopen : made.openDir env.limit env.cwd env.workspaceRoot with
      | ok root =>
        rw [hopen] at h
        obtain ⟨rfl, rfl⟩ := Prod.mk.inj h
        exact ⟨hmore, fun root' hroot => by rw [hopen, Option.some.inj hroot]⟩
      | error e =>
        rw [hopen] at h
        obtain ⟨rfl, rfl⟩ := Prod.mk.inj h
        exact ⟨hmore, fun root hroot => by cases hroot⟩

theorem moreDirs_makeParents (env : Env) (t : FileTree) (root : Location) (rel : Bytes) :
    MoreDirs t (env.makeParents t root rel).1 := by
  rw [Env.makeParents]
  split
  · exact .refl t
  · split
    · exact FileTree.moreDirs_createDirPath ..
    · exact .refl t

/-- A path that is handed on is the one that was given, unless it was empty. -/
theorem ensureSafeRelPath_eq_ok {path rel : Bytes} {unlocked : Bool}
    (h : ensureSafeRelPath path unlocked = .ok rel) (hdot : rel ≠ FileTree.dot) :
    rel = path ∧ path ≠ [] ∧ (unlocked = false → path.head? ≠ some slash) := by
  rw [ensureSafeRelPath] at h
  split at h
  · exact absurd (Except.ok.inj h).symm hdot
  · rename_i hlen
    have hne : path ≠ [] := fun hnil => hlen (List.length_eq_zero_iff.mpr hnil)
    split at h
    · cases h
    · split at h
      · rename_i hunlocked
        refine ⟨(Except.ok.inj h).symm, hne, fun hlocked => ?_⟩
        rw [hlocked] at hunlocked
        cases hunlocked
      · split at h
        · cases h
        · rename_i habsolute
          split at h
          · cases h
          · exact ⟨(Except.ok.inj h).symm, hne, fun _ => habsolute⟩

/-- The tools that write ask for the path, which the check may do without. -/
theorem pathOf_of_stringField {floatInt : Bytes → Option ℤ} {argumentsJson path : Bytes}
    {fields : List (Bytes × Json.Tree)} (hfields : fieldsOf argumentsJson = some fields)
    (hpath : stringField floatInt fields (ascii "path") = some path) :
    pathOf floatInt argumentsJson = some path := by
  rw [stringField, Json.Tree.required] at hpath
  rw [pathOf, hfields]
  show (Json.Tree.once fields (ascii "path")).bind _ = _
  cases honce : Json.Tree.once fields (ascii "path") with
  | none =>
    rw [honce] at hpath
    cases hpath
  | some field =>
    rw [honce] at hpath
    cases field with
    | none => cases hpath
    | some v => exact hpath

theorem pathOf_of_writeArgs {floatInt : Bytes → Option ℤ} {argumentsJson : Bytes} {args : WriteArgs}
    (h : writeArgs floatInt argumentsJson = some args) :
    pathOf floatInt argumentsJson = some args.path := by
  obtain ⟨fields, hfields, h⟩ := Option.bind_eq_some_iff.mp h
  obtain ⟨path, hpath, h⟩ := Option.bind_eq_some_iff.mp h
  obtain ⟨content, -, h⟩ := Option.bind_eq_some_iff.mp h
  obtain rfl := Option.some.inj h
  exact pathOf_of_stringField hfields hpath

theorem pathOf_of_editArgs {floatInt : Bytes → Option ℤ} {argumentsJson : Bytes} {args : EditArgs}
    (h : editArgs floatInt argumentsJson = some args) :
    pathOf floatInt argumentsJson = some args.path := by
  obtain ⟨fields, hfields, h⟩ := Option.bind_eq_some_iff.mp h
  obtain ⟨path, hpath, h⟩ := Option.bind_eq_some_iff.mp h
  obtain ⟨oldText, -, h⟩ := Option.bind_eq_some_iff.mp h
  obtain ⟨newText, -, h⟩ := Option.bind_eq_some_iff.mp h
  obtain rfl := Option.some.inj h
  exact pathOf_of_stringField hfields hpath

theorem effect_runWriteFile (env : Env) (t : FileTree) (argumentsJson : Bytes) :
    Effect env t argumentsJson (env.runWriteFile t argumentsJson).2 := by
  rw [Env.runWriteFile]
  split
  · exact .dirs (.refl t)
  · rename_i args hargs
    split
    · exact .dirs (.refl t)
    · rename_i rel hrel
      split
      · exact .dirs (.refl t)
      · rename_i hdot
        obtain ⟨rfl, hne, -⟩ := ensureSafeRelPath_eq_ok hrel hdot
        split
        · exact .dirs (.refl t)
        · split
          · rename_i t₁ hopen
            exact .dirs (openWorkspaceDir_spec hopen).1
          · rename_i root t₁ hopen
            obtain ⟨hmore, hroot⟩ := openWorkspaceDir_spec hopen
            have hparents := moreDirs_makeParents env t₁ root args.path
            split
            · rename_i t₂ hmade
              rw [hmade] at hparents
              exact .dirs (hmore.trans hparents)
            · rename_i t₂ hmade
              rw [hmade] at hparents
              split
              · exact .dirs (hmore.trans hparents)
              · rename_i t' hwrite
                exact .written (pathOf_of_writeArgs hargs) hne hrel hmore (hroot root rfl) hparents
                  hwrite

theorem effect_runEditFile (env : Env) (t : FileTree) (argumentsJson : Bytes) :
    Effect env t argumentsJson (env.runEditFile t argumentsJson).2 := by
  rw [Env.runEditFile]
  split
  · exact .dirs (.refl t)
  · rename_i args hargs
    split
    · exact .dirs (.refl t)
    · rename_i rel hrel
      split
      · exact .dirs (.refl t)
      · rename_i hdot
        obtain ⟨rfl, hne, -⟩ := ensureSafeRelPath_eq_ok hrel hdot
        split
        · exact .dirs (.refl t)
        · split
          · rename_i t₁ hopen
            exact .dirs (openWorkspaceDir_spec hopen).1
          · rename_i root t₁ hopen
            obtain ⟨hmore, hroot⟩ := openWorkspaceDir_spec hopen
            split
            · exact .dirs hmore
            · exact .dirs hmore
            · exact .dirs hmore
            · split
              · exact .dirs hmore
              · split
                · exact .dirs hmore
                · split
                  · exact .dirs hmore
                  · rename_i t' hwrite
                    exact .written (pathOf_of_editArgs hargs) hne hrel hmore (hroot root rfl)
                      (.refl t₁) hwrite

/-! ## Under the lock -/

/-- What is under a location begins with its names. -/
theorem components_of_pathIsUnder {path : Bytes} {lock : Location} (hne : lock ≠ [])
    (hlock : ∀ name ∈ lock, Proper name) (h : pathIsUnder path (render lock) = true) :
    ∃ rest, components path = [] :: (lock ++ rest) := by
  have hslash : ∀ name ∈ lock, slash ∉ name := fun name hname => (hlock name hname).2.2.2
  rw [pathIsUnder] at h
  split at h
  · cases h
  · rename_i hprefix
    obtain ⟨rest, rfl⟩ := List.isPrefixOf_iff_prefix.mp (not_not.mp hprefix)
    split at h
    · rename_i hlen
      obtain rfl : rest = [] := by
        rw [List.length_append] at hlen
        exact List.length_eq_zero_iff.mp (by omega)
      rw [List.append_nil, FileTree.components_render hne hslash]
      exact ⟨[], by rw [List.append_nil]⟩
    · rw [decide_eq_true_eq, List.getElem?_append_right (Nat.le_refl _), Nat.sub_self] at h
      obtain ⟨rest, rfl⟩ : ∃ tail, rest = slash :: tail := by
        cases rest with
        | nil => cases h
        | cons b tail => exact ⟨tail, by rw [Option.some.inj h]⟩
      rw [FileTree.components_append, FileTree.components_render hne hslash]
      exact ⟨components rest, rfl⟩

/-- One location is under another one, if its text is. -/
theorem prefix_of_pathIsUnder {loc lock : Location} (hne : lock ≠ [])
    (hlock : ∀ name ∈ lock, Proper name) (hloc : ∀ name ∈ loc, Proper name)
    (h : pathIsUnder (render loc) (render lock) = true) : lock <+: loc := by
  obtain ⟨rest, hcomponents⟩ := components_of_pathIsUnder hne hlock h
  by_cases hroot : loc = []
  · -- the root has an empty name for its only one
    subst hroot
    obtain ⟨name, names, rfl⟩ := List.exists_cons_of_ne_nil hne
    have hnames : [[], []] = [] :: (name :: names ++ rest) := hcomponents
    have hempty : [] = name := (List.cons.inj (List.cons.inj hnames).2).1
    exact absurd hempty.symm (hlock name List.mem_cons_self).1
  · rw [FileTree.components_render hroot fun name hname => (hloc name hname).2.2.2]
      at hcomponents
    exact ⟨rest, (List.cons.inj hcomponents).2.symm⟩

theorem head?_of_pathIsUnder {path : Bytes} {lock : Location}
    (h : pathIsUnder path (render lock) = true) : path.head? = some slash := by
  rw [pathIsUnder] at h
  split at h
  · cases h
  · rename_i hprefix
    obtain ⟨rest, rfl⟩ := List.isPrefixOf_iff_prefix.mp (not_not.mp hprefix)
    rw [List.head?_append, FileTree.head?_render]
    rfl

/-- A call of a tool. -/
structure Call where
  name : Bytes
  argumentsJson : Bytes

/-- If a path that a tool would write to does not resolve, but is spelled as under the lock, then it
passes through no link, and has no `..`. -/
def Careful (env : Env) (t : FileTree) (call : Call) : Prop :=
  call.name = ascii "write_file" ∨ call.name = ascii "edit_file" →
    ∀ path ∈ pathOf env.floatInt call.argumentsJson,
      t.realpath env.limit env.cwd (canonicalPath env.workspaceRoot path) = none →
        (∀ r ∈ env.runner, pathIsUnder (canonicalPath env.workspaceRoot path) r.lockPath = true) →
          t.plain (start env.cwd (canonicalPath env.workspaceRoot path))
            (components (canonicalPath env.workspaceRoot path)) = true

section

variable {env : Env} {t t₁ t₂ : FileTree} {path : Bytes} {root loc lock : Location}

/-- A workspace root that can be opened is not empty, and leads to the directory. -/
theorem walk_of_openDir (h : t.openDir env.limit env.cwd env.workspaceRoot = .ok root) :
    env.workspaceRoot ≠ [] ∧ t.walk env.limit (start env.cwd env.workspaceRoot)
      (components env.workspaceRoot) = .reached root := by
  rw [FileTree.openDir, FileTree.find] at h
  by_cases hempty : env.workspaceRoot = []
  · rw [if_pos hempty] at h
    cases h
  · rw [if_neg hempty] at h
    refine ⟨hempty, ?_⟩
    split at h
    · rename_i loc hwalk
      split at h
      · rw [hwalk, Except.ok.inj h]
      · cases h
    · cases h
    · cases h

/-- **A path that resolves is written where it resolves to.** -/
theorem find_of_realpath (hne : path ≠ []) (hrel : path.head? ≠ some slash) (hopen : MoreDirs t t₁)
    (hroot : t₁.openDir env.limit env.cwd env.workspaceRoot = .ok root) (hparents : MoreDirs t₁ t₂)
    (hreal : t.find env.limit env.cwd (canonicalPath env.workspaceRoot path) = .reached loc) :
    t₂.find env.limit root path = .reached loc := by
  obtain ⟨hws, hwalk⟩ := walk_of_openDir hroot
  have hlen : env.workspaceRoot.length ≠ 0 := fun h => hws (List.length_eq_zero_iff.mp h)
  have hjoined : FileTree.join env.workspaceRoot path ≠ [] := by
    intro hnil
    have hhead := FileTree.head?_join (b := path) hws
    rw [hnil, List.head?_nil] at hhead
    exact hws (List.head?_eq_none_iff.mp hhead.symm)
  rw [canonicalPath, if_neg hlen, FileTree.find, if_neg hjoined, start,
    FileTree.head?_join hws, ← start] at hreal
  obtain ⟨mid, hmid, hlast⟩ := FileTree.walk_join hws hne hrel
    (FileTree.walk_mono (hopen.trans hparents) (Nat.le_refl _) hreal)
  obtain rfl : root = mid := by
    have hwalk := FileTree.walk_mono hparents (Nat.le_refl _) hwalk
    exact FileTree.Found.reached.inj (hwalk.symm.trans hmid)
  rw [FileTree.find, if_neg hne, start, if_neg hrel, hlast]

/-- **A plain path is written where it is spelled.** -/
theorem find_of_plain (hne : path ≠ []) (hrel : path.head? ≠ some slash) (hopen : MoreDirs t t₁)
    (hroot : t₁.openDir env.limit env.cwd env.workspaceRoot = .ok root) (hparents : MoreDirs t₁ t₂)
    (hplain : t.plain (start env.cwd (canonicalPath env.workspaceRoot path))
      (components (canonicalPath env.workspaceRoot path)) = true)
    (hfind : t₂.find env.limit root path = .reached loc ∨
      t₂.find env.limit root path = .missing loc) :
    loc = start env.cwd (canonicalPath env.workspaceRoot path) ++
      lexical (components (canonicalPath env.workspaceRoot path)) := by
  obtain ⟨hws, hwalk⟩ := walk_of_openDir hroot
  have hlen : env.workspaceRoot.length ≠ 0 := fun h => hws (List.length_eq_zero_iff.mp h)
  have hstart : start env.cwd (FileTree.join env.workspaceRoot path) =
      start env.cwd env.workspaceRoot := by
    rw [start, FileTree.head?_join hws, ← start]
  rw [canonicalPath, if_neg hlen, hstart] at hplain ⊢
  obtain ⟨hfront, hback, hlexical⟩ := FileTree.plain_join hws hne hrel hplain
  -- the root first, then the path from there
  obtain rfl : root = start env.cwd env.workspaceRoot ++
      lexical (components env.workspaceRoot) := by
    rcases FileTree.walk_of_plain (n := env.limit) (FileTree.plain_mono hopen hfront) with
      hreached | hmissing | ⟨e, hbroken⟩
    · exact FileTree.Found.reached.inj (hwalk.symm.trans hreached)
    · cases hwalk.symm.trans hmissing
    · cases hwalk.symm.trans hbroken
  rw [FileTree.find, if_neg hne, start, if_neg hrel] at hfind
  rw [hlexical, ← List.append_assoc]
  rcases FileTree.walk_of_plain (n := env.limit)
      (FileTree.plain_mono (hopen.trans hparents) hback) with hreached | hmissing | ⟨e, hbroken⟩
  · rw [hreached] at hfind
    rcases hfind with hfind | hfind
    · exact (FileTree.Found.reached.inj hfind).symm
    · cases hfind
  · rw [hmissing] at hfind
    rcases hfind with hfind | hfind
    · cases hfind
    · exact (FileTree.Found.missing.inj hfind).symm
  · rw [hbroken] at hfind
    rcases hfind with hfind | hfind <;> cases hfind

end

/-! ## One call -/

/-- A check that lets a call pass has seen a path under the lock. -/
theorem checkLockedPath_eq_none {env : Env} {t : FileTree} {r : Runner}
    {name argumentsJson path : Bytes} (h : env.checkLockedPath t r name argumentsJson = none)
    (hpath : pathOf env.floatInt argumentsJson = some path) (hne : path ≠ []) :
    path.head? ≠ some slash ∧ pathIsUnder (env.candidate t path) r.lockPath = true := by
  rw [Env.checkLockedPath, hpath] at h
  dsimp only at h
  cases hsafe : ensureSafeRelPath path false with
  | error e =>
    rw [hsafe] at h
    cases h
  | ok rel =>
    rw [hsafe] at h
    dsimp only at h
    split at h
    · cases h
    · split at h
      · cases h
      · rename_i hunder
        refine ⟨?_, not_not.mp hunder⟩
        by_cases hdot : rel = FileTree.dot
        · -- the path is a dot itself
          rw [ensureSafeRelPath, if_neg fun hlen => hne (List.length_eq_zero_iff.mp hlen)] at hsafe
          split at hsafe
          · cases hsafe
          · rw [if_neg Bool.false_ne_true] at hsafe
            split at hsafe
            · cases hsafe
            · assumption
        · exact (ensureSafeRelPath_eq_ok hsafe hdot).2.2 rfl

/-- **What a checked call writes is under the lock.** -/
theorem prefix_of_written {env : Env} {t t₁ t₂ : FileTree} {r : Runner} {call : Call}
    {path : Bytes} {root loc lock : Location} (hrunner : env.runner = some r)
    (hlock : ∀ name ∈ lock, Proper name) (hlockPath : r.lockPath = render lock)
    (hname : call.name = ascii "write_file" ∨ call.name = ascii "edit_file")
    (hcareful : Careful env t call)
    (hcheck : env.checkLockedPath t r call.name call.argumentsJson = none)
    (hpath : pathOf env.floatInt call.argumentsJson = some path) (hne : path ≠ [])
    (hopen : MoreDirs t t₁) (hroot : t₁.openDir env.limit env.cwd env.workspaceRoot = .ok root)
    (hparents : MoreDirs t₁ t₂)
    (hfind : t₂.find env.limit root path = .reached loc ∨
      t₂.find env.limit root path = .missing loc) : lock <+: loc := by
  by_cases hempty : lock = []
  · subst hempty
    exact List.nil_prefix
  obtain ⟨hrel, hunder⟩ := checkLockedPath_eq_none hcheck hpath hne
  rw [hlockPath, Env.candidate] at hunder
  cases hreal : t.realpath env.limit env.cwd (canonicalPath env.workspaceRoot path) with
  | some real =>
    rw [hreal] at hunder
    rw [FileTree.realpath] at hreal
    split at hreal
    · rename_i loc' hreached
      obtain rfl := Option.some.inj hreal
      have hwritten := find_of_realpath hne hrel hopen hroot hparents hreached
      obtain rfl : loc' = loc := by
        rcases hfind with hfind | hfind
        · exact FileTree.Found.reached.inj (hwritten.symm.trans hfind)
        · cases hwritten.symm.trans hfind
      exact prefix_of_pathIsUnder hempty hlock
        (FileTree.proper_of_entry (FileTree.entry_of_find hreached)) hunder
    · cases hreal
  | none =>
    rw [hreal] at hunder
    have hplain := hcareful hname path hpath hreal fun r' hr' => by
      obtain rfl := Option.some.inj (hrunner.symm.trans hr')
      rw [hlockPath]
      exact hunder
    rw [find_of_plain hne hrel hopen hroot hparents hplain hfind]
    obtain ⟨rest, hcomponents⟩ := components_of_pathIsUnder hempty hlock hunder
    have hstart : start env.cwd (canonicalPath env.workspaceRoot path) = [] :=
      if_pos (head?_of_pathIsUnder hunder)
    rw [Option.getD_none] at hcomponents
    rw [hstart, hcomponents, FileTree.lexical_cons_stay (.inl rfl), FileTree.lexical_append,
      FileTree.lexical_of_proper hlock]
    exact ⟨lexical rest, rfl⟩

/-- **A checked call changes no file outside the lock.** -/
theorem fileAt_of_effect {env : Env} {t t' : FileTree} {r : Runner} {call : Call} {lock : Location}
    (hrunner : env.runner = some r) (hlock : ∀ name ∈ lock, Proper name)
    (hlockPath : r.lockPath = render lock)
    (hname : call.name = ascii "write_file" ∨ call.name = ascii "edit_file")
    (hcareful : Careful env t call)
    (hcheck : env.checkLockedPath t r call.name call.argumentsJson = none)
    (heffect : Effect env t call.argumentsJson t') {loc : Location} (hloc : ¬ lock <+: loc) :
    t'.fileAt loc = t.fileAt loc := by
  cases heffect with
  | dirs h => exact h.fileAt loc
  | written hpath hne hsafe hopen hroot hparents hwrite =>
    obtain ⟨target, hfind, hothers⟩ := FileTree.writeFile_spec hwrite
    have hunder := prefix_of_written hrunner hlock hlockPath hname hcareful hcheck hpath hne hopen
      hroot hparents hfind
    have hother : loc ≠ target := by
      rintro rfl
      exact hloc hunder
    rw [FileTree.fileAt_congr (hothers loc hother), hparents.fileAt, hopen.fileAt]

theorem moreDirs_runReadFile (env : Env) (t : FileTree) (argumentsJson : Bytes) :
    MoreDirs t (env.runReadFile t argumentsJson).2 := by
  rw [Env.runReadFile]
  split
  · exact .refl t
  · split
    · exact .refl t
    · exact (openWorkspaceDir_spec rfl).1

theorem moreDirs_runListFiles (env : Env) (t : FileTree) (argumentsJson : Bytes) :
    MoreDirs t (env.runListFiles t argumentsJson).2 := by
  rw [Env.runListFiles]
  split
  · exact .refl t
  · split
    · exact .refl t
    · split
      · rename_i t₁ hopen
        exact (openWorkspaceDir_spec hopen).1
      · rename_i t₁ hopen
        exact (openWorkspaceDir_spec hopen).1

/-- The tools that write run only if the check lets them. -/
theorem guarded_spec {env : Env} {r : Runner} (hrunner : env.runner = some r)
    (hmode : r.sandboxMode ≠ .unlocked) (t : FileTree) (name argumentsJson : Bytes)
    (tool : ToolResult × FileTree) :
    (env.guarded t name argumentsJson tool).2 = t ∨
      r.sandboxMode = .locked ∧ env.checkLockedPath t r name argumentsJson = none ∧
        (env.guarded t name argumentsJson tool).2 = tool.2 := by
  rw [Env.guarded, hrunner]
  cases hr : r.sandboxMode with
  | unlocked => exact absurd hr hmode
  | plan =>
    dsimp only
    rw [hr]
    exact .inl rfl
  | locked =>
    dsimp only
    rw [hr]
    cases hcheck : env.checkLockedPath t r name argumentsJson with
    | some msg => exact .inl rfl
    | none => exact .inr ⟨rfl, rfl, rfl⟩

/-- **What a call does while the runner is not unlocked**: it makes directories, or passes the check
and writes. -/
theorem dispatch_spec {env : Env} {r : Runner} (hrunner : env.runner = some r)
    (hmode : r.sandboxMode ≠ .unlocked) (t : FileTree) (call : Call) :
    MoreDirs t (env.dispatchBuiltinTool t call.name call.argumentsJson).2 ∨
      r.sandboxMode = .locked ∧
        (call.name = ascii "write_file" ∨ call.name = ascii "edit_file") ∧
        env.checkLockedPath t r call.name call.argumentsJson = none ∧
        Effect env t call.argumentsJson
          (env.dispatchBuiltinTool t call.name call.argumentsJson).2 := by
  rw [Env.dispatchBuiltinTool]
  split_ifs with hbash hread hwrite hlist hedit hother
  · rw [hrunner]
    cases hr : r.sandboxMode with
    | unlocked => exact absurd hr hmode
    | locked =>
      dsimp only
      rw [hr]
      exact .inl (.refl t)
    | plan =>
      dsimp only
      rw [hr]
      exact .inl (.refl t)
  · exact .inl (moreDirs_runReadFile env t _)
  · rcases guarded_spec hrunner hmode t call.name call.argumentsJson
      (env.runWriteFile t call.argumentsJson) with hsame | ⟨hlocked, hcheck, heq⟩
    · rw [hsame]
      exact .inl (.refl t)
    · rw [heq]
      exact .inr ⟨hlocked, .inl hwrite, hcheck, effect_runWriteFile env t _⟩
  · exact .inl (moreDirs_runListFiles env t _)
  · rcases guarded_spec hrunner hmode t call.name call.argumentsJson
      (env.runEditFile t call.argumentsJson) with hsame | ⟨hlocked, hcheck, heq⟩
    · rw [hsame]
      exact .inl (.refl t)
    · rw [heq]
      exact .inr ⟨hlocked, .inr hedit, hcheck, effect_runEditFile env t _⟩
  · exact .inl (.refl t)
  · exact .inl (.refl t)

/-! ## All calls -/

/-- The files after a call. -/
def Env.step (env : Env) (t : FileTree) (call : Call) : Option FileTree :=
  some (env.dispatchBuiltinTool t call.name call.argumentsJson).2

/-- The files after some calls. -/
def Env.after (env : Env) (t : FileTree) (calls : List Call) : FileTree :=
  calls.foldl (fun t call => (env.dispatchBuiltinTool t call.name call.argumentsJson).2) t

theorem fileAt_locked {env : Env} {r : Runner} {lock : Location} (hrunner : env.runner = some r)
    (hmode : r.sandboxMode = .locked) (hlock : ∀ name ∈ lock, Proper name)
    (hlockPath : r.lockPath = render lock) {t : FileTree} {calls : List Call}
    (hcareful : StepMachine.Along env.step (Careful env) t calls) {loc : Location}
    (hloc : ¬ lock <+: loc) : (env.after t calls).fileAt loc = t.fileAt loc := by
  have hunlocked : r.sandboxMode ≠ .unlocked := fun h => by
    rw [h] at hmode
    cases hmode
  induction calls generalizing t with
  | nil => rfl
  | cons call calls ih =>
    obtain ⟨hcall, hcalls⟩ := hcareful
    refine (ih (hcalls _ rfl)).trans ?_
    rcases dispatch_spec hrunner hunlocked t call with hmore | ⟨-, hname, hcheck, heffect⟩
    · exact hmore.fileAt loc
    · exact fileAt_of_effect hrunner hlock hlockPath hname hcall hcheck heffect hloc

theorem fileAt_plan {env : Env} {r : Runner} (hrunner : env.runner = some r)
    (hmode : r.sandboxMode = .plan) (t : FileTree) (calls : List Call) (loc : Location) :
    (env.after t calls).fileAt loc = t.fileAt loc := by
  have hunlocked : r.sandboxMode ≠ .unlocked := fun h => by
    rw [h] at hmode
    cases hmode
  induction calls generalizing t with
  | nil => rfl
  | cons call calls ih =>
    refine (ih _).trans ?_
    rcases dispatch_spec hrunner hunlocked t call with hmore | ⟨hlocked, -⟩
    · exact hmore.fileAt loc
    · rw [hlocked] at hmode
      cases hmode

/-- A workspace `/ws`, with the lock on it, and tools that do nothing else. -/
def lockedEnv : Env where
  runner := some { sandboxMode := .locked, lockPath := ascii "/ws" }
  workspaceRoot := ascii "/ws"
  cwd := []
  limit := 40
  floatInt := fun _ => none
  bash := fun t _ => (.error .unknownTool, t)
  readText := fun _ _ => .ok []
  listText := fun _ _ => .ok []
  otherText := fun _ _ _ => .ok []

/-- `/ws/d` is a link to `/out`. -/
def linked : FileTree :=
  ((FileTree.bare.put [ascii "ws"] .dir).put [ascii "out"] .dir).put
    [ascii "ws", ascii "d"] (.link (ascii "/out"))

def writeCall (path : Bytes) : Call where
  name := ascii "write_file"
  argumentsJson := ascii "\x7b\"path\":\"" ++ path ++ ascii "\",\"content\":\"x\"\x7d"

end FileTools
end Cli
end TigerClaw
