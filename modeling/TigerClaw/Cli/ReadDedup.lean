import TigerClaw.Cli.FileTools
import TigerClaw.Cli.ToolRead
import TigerClaw.Library.StepMachine

/-!
# Reads that are not repeated

`read_file` says that a file is unchanged where a table has an entry for its path with the time and
the size of the file; the tools that write drop the entry of their own session for the path as they
spell it.

* `read`, `runReadFile`, `invalidateRead`, `callTool`: the code, from
  `src/cli/commands/tool_read.zig` and `src/cli/commands/live_runner.zig`.
* `Trace`: a run, with what each session was last served from each file.
* `Careful`: after the call, no entry fits a file that it does not tell the truth about.
* `Sound`: the invariant.  `Sound.next`: a careful call keeps it.
* `honest_of_careful`: over careful calls, a file that is unchanged is what it was when the session
  last read it.
-/

namespace TigerClaw
namespace Cli
namespace ReadDedup

open FileTree (Location slash dot)
open FileTools (Runner ToolError ToolResult Env canonicalPath ensureSafeRelPath fieldsOf
  stringField)
open Json (Tree)
open ToolRead (ReadError ReadOutcome ReadStateTable ReadEntry readOpened)

/-- Where the live runner works. -/
structure Site where
  workspaceRoot : Bytes
  cwd : Location
  /-- How many links a call of the system follows. -/
  limit : ℕ
  floatInt : Bytes → Option ℤ

/-- The files with their times, and the table. -/
structure World where
  tree : FileTree
  mtime : Location → ℤ
  state : ReadStateTable := ∅

inductive Tool where
  | bash
  | readFile
  | writeFile
  | editFile
  deriving DecidableEq

/-- A call of a tool. -/
structure Label where
  runner : Runner
  sessionId : Bytes
  tool : Tool
  argumentsJson : Bytes
  /-- What `bash` does to the files. -/
  bash : FileTree → Bytes → ToolResult × FileTree
  /-- The times of the files behind the call, if it is one that writes. -/
  mtime : Location → ℤ

structure ReadOptions where
  path : Bytes
  offset : Option ℕ := none
  limit : Option ℕ := none
  deriving DecidableEq

namespace Site

variable (site : Site)

def env (l : Label) : Env where
  runner := some l.runner
  workspaceRoot := site.workspaceRoot
  cwd := site.cwd
  limit := site.limit
  floatInt := site.floatInt
  bash := l.bash
  readText := fun _ _ => .ok []
  listText := fun _ _ => .ok []
  otherText := fun _ _ _ => .ok []

/-! ## Reading -/

/-- `openRoot`. -/
def openRoot (t : FileTree) : Option Location :=
  if site.workspaceRoot.length = 0 then some site.cwd
  else (t.openDir site.limit site.cwd site.workspaceRoot).toOption

/-- The file that `read` opens, and its content. -/
def openFile (t : FileTree) (path : Bytes) : Except ReadError (Location × Bytes) :=
  match site.openRoot t with
  | none => .error .fileNotFound
  | some root =>
    match t.find site.limit root path with
    | .reached loc =>
      match t.fileAt loc with
      | some raw => .ok (loc, raw)
      | none => .error .readFailed
    | _ => .error .fileNotFound

/-- The key of a path. -/
def key (path : Bytes) : Bytes := canonicalPath site.workspaceRoot path

def read (w : World) (sessionId : Bytes) (opts : ReadOptions) :
    Except ReadError ReadOutcome × ReadStateTable :=
  let offset := opts.offset.getD 1
  if offset = 0 then (.error .emptyOffset, w.state)
  else
    match site.openFile w.tree opts.path with
    | .error e => (.error e, w.state)
    | .ok (loc, raw) =>
      readOpened w.state sessionId (site.key opts.path) opts.path offset opts.limit (w.mtime loc)
        raw

/-- `Args` of `runReadFile`. -/
def readOptions (argumentsJson : Bytes) : Option ReadOptions := do
  let fields ← fieldsOf argumentsJson
  let path ← stringField site.floatInt fields (ascii "path")
  let offset ← (← Tree.once fields (ascii "offset")).elim (some none)
    (Tree.optional? (Tree.int? site.floatInt 0 (2 ^ 32 - 1)))
  let limit ← (← Tree.once fields (ascii "limit")).elim (some none)
    (Tree.optional? (Tree.int? site.floatInt 0 (2 ^ 32 - 1)))
  return { path, offset := offset.map Int.toNat, limit := limit.map Int.toNat }

/-- What `runReadFile` reads, once the arguments and the path are checked. -/
def requested (l : Label) : Except ToolError ReadOptions :=
  match site.readOptions l.argumentsJson with
  | none => .error .arguments
  | some opts =>
    match ensureSafeRelPath opts.path (site.env l).sandboxUnlocked with
    | .error e => .error e
    | .ok rel => .ok { opts with path := rel }

end Site

/-- The session of `runReadFile`. -/
def Label.sid (l : Label) : Bytes :=
  if l.sessionId.length > 0 then l.sessionId else ascii "default"

namespace Site

variable (site : Site)

def runReadFile (w : World) (l : Label) :
    Except ToolError (Except ReadError ReadOutcome) × World :=
  match site.requested l with
  | .error e => (.error e, w)
  | .ok opts =>
    let w := { w with tree := ((site.env l).openWorkspaceDir w.tree).2 }
    let (outcome, state) := site.read w l.sid opts
    (.ok outcome, { w with state })

/-- The text of `runReadFile`; `path` is the one of the arguments. -/
def readResult (path : Bytes) : Except ReadError ReadOutcome → ToolResult
  | .ok outcome => .ok outcome.result
  | .error .fileNotFound => .ok (ascii "read_file: " ++ path ++ ascii ": file not found")
  | .error .fileTooLarge => .ok (ascii "read_file: " ++ path ++ ascii ": file is over " ++
      Digits.decimal (ToolRead.maxFileBytes / 1024) ++
      ascii " KB; pass \x60offset\x60 and \x60limit\x60 to read in chunks")
  | .error .emptyOffset =>
    .ok (ascii "read_file: offsets are 1-based; use offset=1 for the first line")
  | .error .readFailed => .error .readFailed

/-! ## Writing -/

def invalidateRead (state : ReadStateTable) (sessionId argumentsJson : Bytes) : ReadStateTable :=
  match (fieldsOf argumentsJson).bind fun fields =>
      stringField site.floatInt fields (ascii "path") with
  | none => state
  | some path => state.invalidatePath sessionId (site.key path)

/-- `write_file` and `edit_file`, with what they do to the files. -/
def callWriter (w : World) (l : Label) (name : Bytes) (tool : ToolResult × FileTree) : World :=
  let written : World :=
    match tool with
    | (.ok _, tree) =>
      { tree, mtime := l.mtime, state := site.invalidateRead w.state l.sessionId l.argumentsJson }
    | (.error _, tree) => { w with tree, mtime := l.mtime }
  match l.runner.sandboxMode with
  | .unlocked => written
  | .plan => w
  | .locked =>
    match (site.env l).checkLockedPath w.tree l.runner name l.argumentsJson with
    | some _ => w
    | none => written

/-- `dispatchBuiltinTool`, as far as the files and the table go. -/
def callTool (w : World) (l : Label) : World :=
  match l.tool with
  | .bash =>
    match l.runner.sandboxMode with
    | .unlocked =>
      match l.bash w.tree l.argumentsJson with
      | (.ok _, tree) =>
        { tree, mtime := l.mtime, state := w.state.invalidateSession l.sessionId }
      | (.error _, tree) => { w with tree, mtime := l.mtime }
    | .locked => w
    | .plan => w
  | .readFile => (site.runReadFile w l).2
  | .writeFile =>
    site.callWriter w l (ascii "write_file") ((site.env l).runWriteFile w.tree l.argumentsJson)
  | .editFile =>
    site.callWriter w l (ascii "edit_file") ((site.env l).runEditFile w.tree l.argumentsJson)

end Site

/-! ## Runs -/

/-- The world, and what each session was last served from each file. -/
structure Trace where
  world : World
  served : Bytes → Location → Option Bytes

namespace Site

variable (site : Site)

/-- The tree with the workspace root, if it can be made. -/
def ready (t : FileTree) : FileTree := (t.createDirPath site.limit site.cwd site.workspaceRoot).1

/-- The file that a call reads, and its content. -/
def opened (w : World) (l : Label) : Option (Location × Bytes) :=
  match site.requested l with
  | .error _ => none
  | .ok opts => (site.openFile (site.ready w.tree) opts.path).toOption

/-- A read that gives the content, or that there is none. -/
def Serves : Except ToolError (Except ReadError ReadOutcome) → Bool
  | .ok (.ok (.text _)) => true
  | .ok (.ok (.empty _)) => true
  | _ => false

def next (tr : Trace) (l : Label) : Trace where
  world := site.callTool tr.world l
  served :=
    match l.tool, site.opened tr.world l with
    | .readFile, some (loc, raw) =>
      if Serves (site.runReadFile tr.world l).1 then
        fun s loc' => if s = l.sid ∧ loc' = loc then some raw else tr.served s loc'
      else tr.served
    | _, _ => tr.served

/-- Nothing has been read. -/
def start (tree : FileTree) (mtime : Location → ℤ) : Trace where
  world := { tree, mtime }
  served _ _ := none

/-- The path of a read is relative to the workspace. -/
def Relative (l : Label) : Prop :=
  ∀ opts, site.requested l = .ok opts → opts.path.head? ≠ some slash

/-- A read of a relative path; or a call behind which an entry has the time and the size of the file
its path leads to only if that is the file it had them of before, or if the session was last served
what the file holds. -/
def Careful (tr : Trace) (l : Label) : Prop :=
  if l.tool = .readFile then site.Relative l
  else
    let w := site.callTool tr.world l
    ∀ s path e loc raw, path ≠ [] → path.head? ≠ some slash →
      w.state.entry s (site.key path) = some e →
      site.openFile (site.ready w.tree) path = .ok (loc, raw) →
      e.mtimeNs = w.mtime loc → e.size = raw.length →
        site.openFile (site.ready tr.world.tree) path = .ok (loc, raw) ∧
            tr.world.mtime loc = w.mtime loc ∨
          tr.served s loc = some raw

/-- **What is said to be unchanged** is what the session was last served. -/
def Honest (tr : Trace) : Prop :=
  ∀ l, l.tool = .readFile → site.Relative l → ∀ path,
    (site.runReadFile tr.world l).1 = .ok (.ok (.unchanged path)) →
      ∃ loc raw, site.opened tr.world l = some (loc, raw) ∧ tr.served l.sid loc = some raw

/-- An entry with the time and the size of the file its path leads to tells the truth. -/
def Sound (tr : Trace) : Prop :=
  ∀ s path e loc raw, path ≠ [] → path.head? ≠ some slash →
    tr.world.state.entry s (site.key path) = some e →
    site.openFile (site.ready tr.world.tree) path = .ok (loc, raw) →
    e.mtimeNs = tr.world.mtime loc → e.size = raw.length → tr.served s loc = some raw

end Site

/-! ## One call -/

section Step

variable {site : Site}

theorem openWorkspaceDir_snd (l : Label) (t : FileTree) :
    ((site.env l).openWorkspaceDir t).2 = site.ready t := by
  have hready : site.ready t =
      (t.createDirPath (site.env l).limit (site.env l).cwd (site.env l).workspaceRoot).1 := rfl
  rw [Env.openWorkspaceDir, hready]
  split
  · rename_i t₁ hmade
    rw [hmade]
  · rename_i t₁ hmade
    rw [hmade]
    split <;> rfl

theorem ready_again (t : FileTree) : site.ready (site.ready t) = site.ready t :=
  FileTree.createDirPath_again t _ _ _

theorem requested_path_ne_nil {l : Label} {opts : ReadOptions} (h : site.requested l = .ok opts) :
    opts.path ≠ [] := by
  rw [Site.requested] at h
  split at h
  · cases h
  · rename_i opts₀ _
    split at h
    · cases h
    · rename_i rel hrel
      obtain rfl := Except.ok.inj h
      show rel ≠ []
      rw [ensureSafeRelPath] at hrel
      split_ifs at hrel with hnil hzero hunlocked hslash hdotdot
      · obtain rfl := Except.ok.inj hrel
        exact List.cons_ne_nil _ _
      · obtain rfl := Except.ok.inj hrel
        exact fun h => hnil (congrArg List.length h)
      · obtain rfl := Except.ok.inj hrel
        exact fun h => hnil (congrArg List.length h)

/-- What the key of a relative path has in front of it. -/
theorem exists_key_eq_append (site : Site) : ∃ front : Bytes, ∀ path : Bytes, path ≠ [] →
    path.head? ≠ some slash → site.key path = front ++ path := by
  by_cases hroot : site.workspaceRoot = []
  · exact ⟨[], fun path _ _ => if_pos (congrArg List.length hroot)⟩
  · have hkey : ∀ path, site.key path = FileTree.join site.workspaceRoot path := fun path =>
      if_neg fun hlength => hroot (List.eq_nil_of_length_eq_zero hlength)
    by_cases hlast : site.workspaceRoot.getLast? = some slash
    · refine ⟨site.workspaceRoot, fun path hne hrel => ?_⟩
      rw [hkey, FileTree.join, if_neg hroot, if_neg hne, decide_eq_true hlast, decide_eq_false hrel]
    · refine ⟨site.workspaceRoot ++ [slash], fun path hne hrel => ?_⟩
      rw [hkey, FileTree.join, if_neg hroot, if_neg hne, decide_eq_false hlast,
        decide_eq_false hrel]
      exact List.append_cons ..

/-- Relative paths have keys of their own. -/
theorem key_inj {p q : Bytes} (hp : p ≠ []) (hq : q ≠ []) (hp' : p.head? ≠ some slash)
    (hq' : q.head? ≠ some slash) (h : site.key p = site.key q) : p = q := by
  obtain ⟨front, hfront⟩ := exists_key_eq_append site
  rw [hfront p hp hp', hfront q hq hq'] at h
  exact List.append_cancel_left h

/-! ## What stays in the table -/

theorem entry_invalidatePath {state : ReadStateTable} {sessionId canonical s k : Bytes}
    {e : ReadEntry} (h : (state.invalidatePath sessionId canonical).entry s k = some e) :
    state.entry s k = some e := by
  rw [ReadStateTable.invalidatePath] at h
  split at h
  · exact h
  · rename_i session hsession
    rw [ToolRead.entry_insert] at h
    split at h
    · rename_i hs
      have hk : k ≠ canonical := by
        rintro rfl
        rw [AList.lookup_erase] at h
        cases h
      rw [AList.lookup_erase_ne hk] at h
      rw [hs, ReadStateTable.entry, hsession, Option.bind_some, h]
    · exact h

theorem entry_invalidateSession {state : ReadStateTable} {sessionId s k : Bytes} {e : ReadEntry}
    (h : (state.invalidateSession sessionId).entry s k = some e) : state.entry s k = some e := by
  rw [ReadStateTable.invalidateSession] at h
  split at h
  · exact h
  · rw [ToolRead.entry_insert] at h
    split at h
    · cases h
    · exact h

theorem entry_invalidateRead {state : ReadStateTable} {sessionId argumentsJson s k : Bytes}
    {e : ReadEntry} (h : (site.invalidateRead state sessionId argumentsJson).entry s k = some e) :
    state.entry s k = some e := by
  rw [Site.invalidateRead] at h
  split at h
  · exact h
  · exact entry_invalidatePath h

theorem entry_callWriter {w : World} {l : Label} {name : Bytes} {tool : ToolResult × FileTree}
    {s k : Bytes} {e : ReadEntry} (h : (site.callWriter w l name tool).state.entry s k = some e) :
    w.state.entry s k = some e := by
  unfold Site.callWriter at h
  obtain ⟨result, tree⟩ := tool
  cases result with
  | error _ =>
    dsimp only at h
    split at h
    · exact h
    · exact h
    · split at h
      · exact h
      · exact h
  | ok _ =>
    dsimp only at h
    split at h
    · exact entry_invalidateRead h
    · exact h
    · split at h
      · exact h
      · exact entry_invalidateRead h

/-- **A call that is no read** only takes entries out. -/
theorem entry_callTool {w : World} {l : Label} (htool : l.tool ≠ .readFile) {s k : Bytes}
    {e : ReadEntry} (h : (site.callTool w l).state.entry s k = some e) :
    w.state.entry s k = some e := by
  rw [Site.callTool] at h
  split at h
  · split at h
    · split at h
      · exact entry_invalidateSession h
      · exact h
    · exact h
    · exact h
  · rename_i hread
    exact absurd hread htool
  · exact entry_callWriter h
  · exact entry_callWriter h

/-! ## What a read does -/

/-- How a read of `opts` leaves the table, and what it needs to say that nothing changed. -/
structure ReadEnds (site : Site) (w : World) (l : Label) (opts : ReadOptions)
    (outcome : Except ReadError ReadOutcome) (state : ReadStateTable) : Prop where
  table : Site.Serves (.ok outcome) = true ∧
      (∃ loc raw offset limit, site.openFile (site.ready w.tree) opts.path = .ok (loc, raw) ∧
        state = ToolRead.recordRead w.state l.sid (site.key opts.path)
          ⟨w.mtime loc, raw.length, offset, limit⟩) ∨
    Site.Serves (.ok outcome) = false ∧
      ∀ s k, (state.entry s k).map ReadEntry.request = (w.state.entry s k).map ReadEntry.request
  unchanged : ∀ path, outcome = .ok (.unchanged path) →
    ∃ loc raw e, site.openFile (site.ready w.tree) opts.path = .ok (loc, raw) ∧
      w.state.entry l.sid (site.key opts.path) = some e ∧ e.mtimeNs = w.mtime loc ∧
      e.size = raw.length

theorem readEnds_of_error {w : World} {l : Label} {opts : ReadOptions} (e : ReadError) :
    ReadEnds site w l opts (.error e) w.state where
  table := .inr ⟨rfl, fun _ _ => rfl⟩
  unchanged := by
    intro path h
    cases h

theorem readEnds_read (w : World) (l : Label) (opts : ReadOptions) :
    ReadEnds site w l opts (site.read { w with tree := site.ready w.tree } l.sid opts).1
      (site.read { w with tree := site.ready w.tree } l.sid opts).2 := by
  rw [Site.read]
  dsimp only
  split
  · exact readEnds_of_error _
  · cases hopen : site.openFile (site.ready w.tree) opts.path with
    | error e => exact readEnds_of_error e
    | ok found =>
      obtain ⟨loc, raw⟩ := found
      dsimp only
      have hends := ToolRead.read_readOpened w.state l.sid (site.key opts.path) opts.path
        (opts.offset.getD 1) opts.limit (w.mtime loc) raw
      generalize readOpened w.state l.sid (site.key opts.path) opts.path (opts.offset.getD 1)
        opts.limit (w.mtime loc) raw = result at hends
      cases hends with
      | tooLarge => exact readEnds_of_error _
      | unchanged _ hentry htouched =>
        refine ⟨.inr ⟨rfl, htouched⟩, fun path _ => ?_⟩
        obtain ⟨e, he, hreq⟩ := Option.map_eq_some_iff.mp hentry
        obtain ⟨hmtime, hsize, -, -⟩ := ToolRead.request_eq_iff.mp hreq
        exact ⟨loc, raw, e, hopen, he, hmtime, hsize⟩
      | pastEof =>
        refine ⟨.inr ⟨rfl, fun _ _ => rfl⟩, ?_⟩
        intro path h
        cases h
      | empty =>
        refine ⟨.inl ⟨rfl, loc, raw, _, _, hopen, rfl⟩, ?_⟩
        intro path h
        cases h
      | text =>
        refine ⟨.inl ⟨rfl, loc, raw, _, _, hopen, rfl⟩, ?_⟩
        intro path h
        cases h

theorem runReadFile_of_requested {w : World} {l : Label} {opts : ReadOptions}
    (h : site.requested l = .ok opts) :
    site.runReadFile w l =
      (.ok (site.read { w with tree := site.ready w.tree } l.sid opts).1,
        { w with
          tree := site.ready w.tree
          state := (site.read { w with tree := site.ready w.tree } l.sid opts).2 }) := by
  rw [Site.runReadFile, h]
  dsimp only
  rw [openWorkspaceDir_snd]

theorem opened_of_requested {w : World} {l : Label} {opts : ReadOptions}
    (h : site.requested l = .ok opts) :
    site.opened w l = (site.openFile (site.ready w.tree) opts.path).toOption := by
  rw [Site.opened, h]

theorem fileAt_of_openFile {t : FileTree} {path raw : Bytes} {loc : Location}
    (h : site.openFile t path = .ok (loc, raw)) : t.fileAt loc = some raw := by
  rw [Site.openFile] at h
  split at h
  · cases h
  · split at h
    · split at h
      · rename_i hfile
        obtain ⟨rfl, rfl⟩ := Prod.mk.inj (Except.ok.inj h)
        exact hfile
      · cases h
    · cases h

/-! ## The invariant -/

theorem Site.Sound.next_read {tr : Trace} {l : Label} (htool : l.tool = .readFile)
    (hrel : site.Relative l) (h : site.Sound tr) : site.Sound (site.next tr l) := by
  cases hreq : site.requested l with
  | error e =>
    have hsame : site.next tr l = tr := by
      rw [Site.next, Site.callTool, htool, Site.runReadFile, Site.opened, hreq]
    rw [hsame]
    exact h
  | ok opts =>
    have hworld : (site.next tr l).world =
        { tr.world with
          tree := site.ready tr.world.tree
          state :=
            (site.read { tr.world with tree := site.ready tr.world.tree } l.sid opts).2 } := by
      rw [Site.next, Site.callTool, htool]
      exact congrArg Prod.snd (runReadFile_of_requested hreq)
    have hserved : (site.next tr l).served =
        match (site.openFile (site.ready tr.world.tree) opts.path).toOption with
        | some (loc, raw) =>
          if Site.Serves (.ok (site.read { tr.world with tree := site.ready tr.world.tree }
              l.sid opts).1) then
            fun s loc' => if s = l.sid ∧ loc' = loc then some raw else tr.served s loc'
          else tr.served
        | none => tr.served := by
      rw [Site.next, htool, opened_of_requested hreq, runReadFile_of_requested hreq]
      cases (site.openFile (site.ready tr.world.tree) opts.path).toOption <;> rfl
    intro s path e loc raw hne hpath hentry hopen hmtime hsize
    rw [hworld] at hentry hopen hmtime
    dsimp only at hentry hopen hmtime
    rw [ready_again] at hopen
    rw [hserved]
    obtain ⟨hserves, loc₀, raw₀, offset, limit, hopen₀, hstate⟩ | ⟨hnot, hsame⟩ :=
      (readEnds_read tr.world l opts).table
    · rw [hopen₀, hserves]
      show (if s = l.sid ∧ loc = loc₀ then some raw₀ else tr.served s loc) = some raw
      rw [hstate] at hentry
      obtain ⟨hs, hk, -⟩ | ⟨-, hold⟩ := ToolRead.entry_recordRead _ _ _ _ hentry
      · obtain rfl := key_inj hne (requested_path_ne_nil hreq) hpath (hrel opts hreq) hk
        obtain ⟨rfl, rfl⟩ := Prod.mk.inj (Except.ok.inj (hopen.symm.trans hopen₀))
        exact if_pos ⟨hs, rfl⟩
      · have htold := h s path e loc raw hne hpath hold hopen hmtime hsize
        split
        · rename_i hboth
          rw [← fileAt_of_openFile hopen₀, ← hboth.2, fileAt_of_openFile hopen]
        · exact htold
    · have hkeep : (match (site.openFile (site.ready tr.world.tree) opts.path).toOption with
          | some (loc, raw) =>
            if Site.Serves (.ok (site.read { tr.world with tree := site.ready tr.world.tree }
                l.sid opts).1) then
              fun s loc' => if s = l.sid ∧ loc' = loc then some raw else tr.served s loc'
            else tr.served
          | none => tr.served) = tr.served := by
        rw [hnot]
        split <;> rfl
      rw [hkeep]
      have hrequest := hsame s (site.key path)
      rw [hentry] at hrequest
      obtain ⟨e₀, he₀, hreq₀⟩ := Option.map_eq_some_iff.mp hrequest.symm
      obtain ⟨hmtime₀, hsize₀, -, -⟩ := ToolRead.request_eq_iff.mp hreq₀
      exact h s path e₀ loc raw hne hpath he₀ hopen (hmtime₀.trans hmtime) (hsize₀.trans hsize)

/-- **A careful call keeps the entries true.** -/
theorem Site.Sound.next {tr : Trace} {l : Label} (hcareful : site.Careful tr l)
    (h : site.Sound tr) : site.Sound (site.next tr l) := by
  rw [Site.Careful] at hcareful
  split at hcareful
  · rename_i htool
    exact h.next_read htool hcareful
  · rename_i htool
    have hserved : (site.next tr l).served = tr.served := by
      rw [Site.next]
      dsimp only
      split
      · rename_i hread _
        exact absurd hread htool
      · rfl
    intro s path e loc raw hne hpath hentry hopen hmtime hsize
    rw [hserved]
    obtain ⟨hbefore, hsame⟩ | htold :=
      hcareful s path e loc raw hne hpath hentry hopen hmtime hsize
    · exact h s path e loc raw hne hpath (entry_callTool htool hentry) hbefore
        (hmtime.trans hsame.symm) hsize
    · exact htold

theorem Site.Sound.honest {tr : Trace} (h : site.Sound tr) : site.Honest tr := by
  intro l _ hrel path hunchanged
  cases hreq : site.requested l with
  | error e =>
    rw [Site.runReadFile, hreq] at hunchanged
    cases hunchanged
  | ok opts =>
    rw [runReadFile_of_requested hreq] at hunchanged
    obtain ⟨loc, raw, e, hopen, hentry, hmtime, hsize⟩ :=
      (readEnds_read tr.world l opts).unchanged path (Except.ok.inj hunchanged)
    refine ⟨loc, raw, ?_, ?_⟩
    · rw [opened_of_requested hreq, hopen]
      rfl
    · exact h l.sid opts.path e loc raw (requested_path_ne_nil hreq) (hrel opts hreq) hentry hopen
        hmtime hsize

end Step

/-- A workspace `/ws`. -/
def site : Site where
  workspaceRoot := ascii "/ws"
  cwd := []
  limit := 40
  floatInt := fun _ => none

/-- With one file in it. -/
def tree : FileTree :=
  (FileTree.bare.put [ascii "ws"] .dir).put [ascii "ws", ascii "a"] (.file (ascii "x"))

/-- The times of the file system do not change. -/
def callOf (sessionId : Bytes) (tool : Tool) (argumentsJson : Bytes) : Label where
  runner := {}
  sessionId := sessionId
  tool := tool
  argumentsJson := argumentsJson
  bash := fun t _ => (.ok [], t)
  mtime := fun _ => 0

def readA : Label := callOf (ascii "s") .readFile (ascii "\x7b\"path\":\"a\"\x7d")

/-- The same byte count. -/
def write (sessionId path : Bytes) : Label :=
  callOf sessionId .writeFile
    (ascii "\x7b\"path\":\"" ++ path ++ ascii "\",\"content\":\"y\"\x7d")

/-- Behind the call, `a` is said to be unchanged, and holds another byte than was read. -/
def Misleads (call : Label) : Prop :=
  let tr := [readA, call].foldl site.next (Site.start tree fun _ => 0)
  (site.runReadFile tr.world readA).1 = .ok (.ok (.unchanged (ascii "a"))) ∧
    site.opened tr.world readA = some ([ascii "ws", ascii "a"], ascii "y") ∧
    tr.served (ascii "s") [ascii "ws", ascii "a"] = some (ascii "x")

instance decidableMisleads (call : Label) : Decidable (Misleads call) :=
  inferInstanceAs (Decidable (_ ∧ _ ∧ _))

example : ¬ Misleads (write (ascii "s") (ascii "a")) := by decide +kernel

end ReadDedup
end Cli
end TigerClaw
