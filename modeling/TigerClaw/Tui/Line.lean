import TigerClaw.Basic
import TigerClaw.Library.Digits

/-!
# The lines of the chat

A line of the history, and how the text of a tool row is made of its fields.

* `renderToolLine`: the text, from the fields; `renderToolLine_idem`: done twice it is done once.
-/

namespace TigerClaw
namespace Tui

inductive Role where
  | user
  | agent
  | system
  | tool
  | banner
  deriving DecidableEq

inductive ToolStatus where
  | running
  | ok
  | err
  deriving DecidableEq

/-- `styled` says whether an agent's line has its `spans`. -/
structure Line where
  role : Role
  text : Bytes
  speaker : Option Bytes := none
  styled : Bool := false
  toolId : Option Bytes := none
  toolName : Option Bytes := none
  toolArgs : Option Bytes := none
  toolSummary : Option Bytes := none
  toolFull : Option Bytes := none
  toolExpanded : Bool := false
  toolStatus : ToolStatus := .running
  toolTurnId : UInt32 := 0
  toolStartedMs : ℤ := 0
  toolDurationMs : ℕ := 0
  toolProgressTail : Option Bytes := none
  deriving DecidableEq

/-- `std.mem.trim`. -/
def trim (values : List UInt8) (s : Bytes) : Bytes :=
  ((s.dropWhile values.contains).reverse.dropWhile values.contains).reverse

/-- `std.mem.trimEnd`. -/
def trimEnd (values : List UInt8) (s : Bytes) : Bytes :=
  (s.reverse.dropWhile values.contains).reverse

/-- `std.fmt.bufPrint`, and what is taken where the text does not fit. -/
def bufPrint (size : ℕ) (text otherwise : Bytes) : Bytes :=
  if text.length ≤ size then text else otherwise

def toolSummaryMaxChars : ℕ := 80

def toolArgsMaxChars : ℕ := 60

/-- `…` -/
def ellipsis : Bytes := [0xE2, 0x80, 0xA6]

/-- `└─`, with the blanks around it. -/
def childIndent : Bytes := [0x20, 0x20, 0x20, 0xE2, 0x94, 0x94, 0xE2, 0x94, 0x80, 0x20]

def renderToolHeader (name argsSummary : Bytes) : Bytes :=
  let displayName := if name = ascii "use_skill" then ascii "Skill" else name
  if argsSummary = [] then displayName
  else displayName ++ ascii "(" ++
    (if argsSummary.length ≤ toolArgsMaxChars then argsSummary
     else argsSummary.take toolArgsMaxChars ++ ellipsis) ++ ascii ")"

/-- The first line that is not blank. -/
def summarizeToolOutput (output : Bytes) : Bytes :=
  match ((output.splitOn 0x0A).map (trim [0x20, 0x09, 0x0D])).find? (· ≠ []) with
  | some line => line.take toolSummaryMaxChars
  | none => ascii "(no output)"

/-- The last line that is not blank; a carriage return ends a line as well. -/
def lastNonEmptyLine (bytes : Bytes) : Bytes :=
  (((bytes.splitOnP fun c => c == 0x0D || c == 0x0A).map (trim [0x20, 0x09])).reverse.find?
    (· ≠ [])).getD []

/-- What the rows are made with that is not code of the widget: seconds with one decimal, as
floating point prints them. -/
structure Format where
  seconds : ℕ → Bytes

def formatDuration (fmt : Format) (ms : ℕ) (verb : Bytes) : Bytes :=
  if ms < 1000 then verb ++ ascii " in " ++ Digits.decimal ms ++ ascii "ms"
  else if ms < 60000 then verb ++ ascii " in " ++ fmt.seconds ms ++ ascii "s"
  else verb ++ ascii " in " ++ Digits.decimal (ms / 60000) ++ ascii "m " ++
    Digits.decimal (ms % 60000 / 1000) ++ ascii "s"

def ToolStatus.verb : ToolStatus → Bytes
  | .running => ascii "Running"
  | .ok => ascii "Completed"
  | .err => ascii "Failed"

/-- A row under the header. -/
def childRow (text : Bytes) : Bytes := [0x0A] ++ childIndent ++ text

/-- The body of a row whose tool has returned something. -/
def toolBody (entry : Line) (full : Bytes) : Bytes :=
  if entry.toolExpanded then
    let trimmed := trimEnd [0x0A] full
    if trimmed = [] then [] else (trimmed.splitOn 0x0A).flatMap childRow
  else
    match entry.toolSummary with
    | some s => if s = [] then [] else childRow s
    | none => []

/-- The text of a tool row. -/
def toolText (fmt : Format) (entry : Line) (name : Bytes) : Bytes :=
  renderToolHeader name (entry.toolArgs.getD []) ++
  match entry.toolFull.getD [] with
  | [] =>
    let tail := entry.toolProgressTail.getD []
    if tail = [] then [] else childRow tail
  | full =>
    let duration := formatDuration fmt entry.toolDurationMs entry.toolStatus.verb
    toolBody entry full ++
      (if 0 < entry.toolDurationMs ∧ duration ≠ [] then childRow duration else [])

/-- `renderToolLine`; the spans of an expanded diff are left out. -/
def renderToolLine (fmt : Format) (entry : Line) : Line :=
  match entry.toolName with
  | none => entry
  | some name => { entry with text := toolText fmt entry name }

@[simp] theorem renderToolLine_role (fmt : Format) (entry : Line) :
    (renderToolLine fmt entry).role = entry.role := by
  rw [renderToolLine]
  split <;> rfl

@[simp] theorem renderToolLine_speaker (fmt : Format) (entry : Line) :
    (renderToolLine fmt entry).speaker = entry.speaker := by
  rw [renderToolLine]
  split <;> rfl

@[simp] theorem renderToolLine_toolId (fmt : Format) (entry : Line) :
    (renderToolLine fmt entry).toolId = entry.toolId := by
  rw [renderToolLine]
  split <;> rfl

/-- **The text is made of the other fields**, so it is made but once. -/
theorem renderToolLine_idem (fmt : Format) (entry : Line) :
    renderToolLine fmt (renderToolLine fmt entry) = renderToolLine fmt entry := by
  rcases hname : entry.toolName with _ | name
  · rw [renderToolLine, renderToolLine, hname]
    simp only [hname]
  · have hrendered : renderToolLine fmt entry = { entry with text := toolText fmt entry name } := by
      rw [renderToolLine, hname]
    rw [hrendered, renderToolLine]
    simp only [hname]
    rfl

end Tui
end TigerClaw
