import TigerClaw.Agent.Loop
import TigerClaw.Sandbox.Fs

/-!
# What the tools of a session share

`src/tools/schema.zig`: the check of a workspace path that every file tool makes first, and the two
results a tool can give.

* `isWorkspaceRelativePath`, `pathHasSymlink`, `checkWorkspacePath`: the code.
* `fs_component_law`: on the paths that are accepted, the policy goes by components.
* `checkWorkspacePath_eq_none_iff`: the paths that a tool may go on with.
-/

namespace TigerClaw
namespace Tools

open Agent (ToolOutcome ToolResult)
open Sandbox (FsPolicy)
open Sandbox.Fs (Access Covers Entry check matchesPrefix)

def okResult (callId payload : Bytes) : ToolResult := { callId, outcome := .ok payload }

def errResult (callId errId detail : Bytes) : ToolResult :=
  { callId, outcome := .err errId detail }

inductive FileKind where
  | file
  | directory
  | symLink
  | other
  deriving DecidableEq

/-- What the workspace answers to `statFile` without following links, or the name of its error. -/
abbrev Stat : Type := Bytes → Except Bytes FileKind

/-! ## The path -/

def isSeparator (b : UInt8) : Bool := b = 0x2F || b = 0x5C

/-- `std.mem.splitAny(u8, path, "/\\")`. -/
def parts (path : Bytes) : List Bytes := path.splitOnP isSeparator

def checkParts (sawComponent : Bool) : List Bytes → Bool
  | [] => sawComponent
  | part :: rest =>
    if part.length = 0 then false
    else if part = ascii "." ∨ part = ascii ".." then false
    else checkParts true rest

/-- `std.fs.path.isAbsolute` asks for a slash in front. -/
def isWorkspaceRelativePath (path : Bytes) : Bool :=
  if path.length = 0 then false
  else if path.head? = some 0x2F then false
  else if path.head? = some 0x5C then false
  else if path.any (· = 0x3A) then false
  else if path.any (· = 0) then false
  else checkParts false (parts path)

/-- The loop of `pathHasSymlink`, with the path down to the part before. -/
def hasSymlinkFrom (stat : Stat) (current : Bytes) : List Bytes → Except Bytes Bool
  | [] => .ok false
  | part :: rest =>
    let current := (if current.length ≠ 0 then current ++ [0x2F] else current) ++ part
    match stat current with
    | .error e => if e = ascii "FileNotFound" then .ok false else .error e
    | .ok kind => if kind = .symLink then .ok true else hasSymlinkFrom stat current rest

def pathHasSymlink (stat : Stat) (path : Bytes) : Except Bytes Bool :=
  hasSymlinkFrom stat [] (parts path)

/-- The path that a policy is asked about. -/
def logical (path : Bytes) : Bytes := 0x2F :: path

def checkWorkspacePath (stat : Stat) (fsPolicy : FsPolicy) (callId path : Bytes)
    (access : Access) : Option ToolResult :=
  if ¬ isWorkspaceRelativePath path then
    some (errResult callId (ascii "fs.path") (ascii "path must be workspace-relative"))
  else if check fsPolicy (logical path) access = .deny then
    some (errResult callId (ascii "permissions.denied") path)
  else
    match pathHasSymlink stat path with
    | .error e => some (errResult callId (ascii "fs.error") e)
    | .ok true =>
      some (errResult callId (ascii "fs.symlink") (ascii "symlink paths are not allowed"))
    | .ok false => none

/-! ## The policy -/

theorem ne_nil_of_isWorkspaceRelativePath {path : Bytes}
    (h : isWorkspaceRelativePath path = true) : path ≠ [] := by
  rintro rfl
  cases h

/-- **On a path that is accepted the policy goes by components**: an entry matches the path, as it
is given or as it is asked about, where it is the path or lies above it; and where deny wins, one
such entry of the deny list is enough. -/
theorem fs_component_law {path p : Bytes} (hpath : isWorkspaceRelativePath path = true)
    (hp : p = path ∨ p = logical path) :
    (∀ entry, Entry entry → (matchesPrefix p entry = true ↔ Covers entry p)) ∧
      ∀ (fsPolicy : FsPolicy) (access : Access), fsPolicy.conflict = .denyWins →
        (∀ entry ∈ fsPolicy.denylist, Entry entry) →
          (∃ entry ∈ fsPolicy.denylist, Covers entry p) → check fsPolicy p access = .deny := by
  have hne : p ≠ [] := by
    rcases hp with rfl | rfl
    · exact ne_nil_of_isWorkspaceRelativePath hpath
    · exact List.cons_ne_nil _ _
  refine ⟨fun entry hentry => Sandbox.Fs.matchesPrefix_iff hne hentry, ?_⟩
  rintro fsPolicy access hconflict hdeny ⟨entry, hmem, hcovers⟩
  have hmatch := (Sandbox.Fs.matchesPrefix_iff hne (hdeny entry hmem)).mpr hcovers
  exact Sandbox.Fs.check_eq_deny access hconflict hmem hmatch

theorem fs_component_law_names :
    (matchesPrefix (ascii "/a/bc") (ascii "/a/b") = true ↔
        Covers (ascii "/a/b") (ascii "/a/bc")) ∧
      check { allowlist := [ascii "/"], denylist := [ascii "/a"] } (ascii "/a/bc") .read = .deny :=
  have hlaw := @fs_component_law (ascii "a/bc") (ascii "/a/bc") (by decide) (.inr rfl)
  ⟨hlaw.1 _ (by decide), hlaw.2 _ _ rfl (by decide) ⟨ascii "/a", by decide, by decide⟩⟩

/-- What is given for a path that a tool may not go on with. -/
theorem checkWorkspacePath_err {stat : Stat} {fsPolicy : FsPolicy} {callId path : Bytes}
    {access : Access} {r : ToolResult}
    (h : checkWorkspacePath stat fsPolicy callId path access = some r) :
    ∃ errId detail, r = errResult callId errId detail := by
  unfold checkWorkspacePath at h
  by_cases hrelative : isWorkspaceRelativePath path = true
  · rw [if_neg (not_not.mpr hrelative)] at h
    by_cases hcheck : check fsPolicy (logical path) access = .deny
    · rw [if_pos hcheck] at h
      exact ⟨_, _, (Option.some.inj h).symm⟩
    · rw [if_neg hcheck] at h
      split at h
      · exact ⟨_, _, (Option.some.inj h).symm⟩
      · exact ⟨_, _, (Option.some.inj h).symm⟩
      · cases h
  · rw [if_pos hrelative] at h
    exact ⟨_, _, (Option.some.inj h).symm⟩

/-- **A tool goes on with a path** that is accepted, let through by the policy, and without a link
on the way. -/
theorem checkWorkspacePath_eq_none_iff {stat : Stat} {fsPolicy : FsPolicy} {callId path : Bytes}
    {access : Access} :
    checkWorkspacePath stat fsPolicy callId path access = none ↔
      isWorkspaceRelativePath path = true ∧ check fsPolicy (logical path) access = .allow ∧
        pathHasSymlink stat path = .ok false := by
  unfold checkWorkspacePath
  by_cases hrelative : isWorkspaceRelativePath path = true
  · rw [if_neg (not_not.mpr hrelative), and_iff_right hrelative]
    cases hcheck : check fsPolicy (logical path) access with
    | deny => simp
    | allow =>
      rw [if_neg (by decide), and_iff_right rfl]
      split
      · rename_i h
        simp [h]
      · rename_i h
        simp [h]
      · rename_i h
        simp [h]
  · rw [if_pos hrelative]
    exact iff_of_false (Option.some_ne_none _) fun h => hrelative h.1

end Tools
end TigerClaw
