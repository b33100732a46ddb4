import TigerClaw.Basic
import TigerClaw.Library.Checked
import TigerClaw.Library.Digits
import TigerClaw.Library.Utf8Text

/-!
# The input line

The editor of `src/tui/widgets/input.zig`: a buffer of bytes, and a cursor that is a position in it.
Reads, slices and moves outside the buffer are traps.

* `prevCodepointBoundary`, `nextCodepointBoundary`: the position beside the cursor.
* `handlePaste`, `stashPaste`: a text comes in as it is, or a file is written and a note comes in.
* `handleKey`, `eventHandler`, `run`: the events.
-/

namespace TigerClaw
namespace Tui

/-- `vaxis.Key.Modifiers`. -/
structure Modifiers where
  shift : Bool := false
  alt : Bool := false
  ctrl : Bool := false
  super : Bool := false
  hyper : Bool := false
  «meta» : Bool := false
  capsLock : Bool := false
  numLock : Bool := false
  deriving DecidableEq

/-- `vaxis.Key`. -/
structure Key where
  codepoint : ℕ
  text : Option Bytes := none
  shiftedCodepoint : Option ℕ := none
  mods : Modifiers := {}

namespace Key

def matchExact (self : Key) (cp : ℕ) (mods : Modifiers) : Bool :=
  let selfMods := { self.mods with capsLock := false, numLock := false }
  let tgtMods := { mods with capsLock := false, numLock := false }
  self.codepoint = cp && selfMods = tgtMods

def matchShiftedCodepoint (self : Key) (cp : ℕ) (mods : Modifiers) : Bool :=
  match self.shiftedCodepoint with
  | none => false
  | some shifted =>
    if !self.mods.shift then false
    else
      let selfMods := { self.mods with shift := false, capsLock := false, numLock := false }
      cp = shifted && selfMods = mods

/-- `Key.matches`. -/
def matchesKey (self : Key) (cp : ℕ) (mods : Modifiers) : Bool :=
  self.matchExact cp mods || self.matchShiftedCodepoint cp mods

def backspace : ℕ := 0x7F

def delete : ℕ := 57349

def left : ℕ := 57350

def right : ℕ := 57351

def home : ℕ := 57356

def «end» : ℕ := 57357

/-- A key that submits: Enter, in the forms in which terminals send it. -/
def isEnter (key : Key) : Bool :=
  (key.codepoint = 13 || key.codepoint = 10 || key.codepoint = 57414) ||
    (key.codepoint = 0x6A && key.mods.ctrl && key.text.isNone)

end Key

/-- `std.unicode.utf8Encode`: surrogates have no encoding. -/
def utf8Encode (codepoint : ℕ) : Option Bytes :=
  if codepoint.isValidChar then some (String.utf8EncodeChar (Char.ofNat codepoint)) else none

/-- What the widget is attached with. -/
structure Input.Config where
  hasSubmit : Bool
  pasteDir : Option Bytes
  hasPasteIo : Bool

/-- How the file system answers while a paste is stashed, and the clock. -/
structure Input.Disk where
  dirOk : Bool
  nowSecs : ℤ
  createOk : Bool
  writeOk : Bool

structure Input where
  buf : Bytes := []
  cursor : ℕ := 0
  pasteCounter : UInt32 := 0
  inBracketedPaste : Bool := false
  pasteBuffer : Bytes := []

namespace Input

variable {ε : Type}

/-! ## The buffer -/

/-- `buf.insertSlice`. -/
def insertSlice (buf : Bytes) (i : ℕ) (text : Bytes) : Outcome ε Bytes :=
  if i ≤ buf.length then .ok (buf.take i ++ text ++ buf.drop i) else .trap .bounds

/-- `std.mem.copyForwards(u8, buf[dst..], buf[src..])`. -/
def copyForwards (buf : Bytes) (dst src : ℕ) : Outcome ε Bytes :=
  if dst ≤ src ∧ src ≤ buf.length then
    .ok (buf.take dst ++ buf.drop src ++ buf.drop (dst + (buf.length - src)))
  else .trap .bounds

/-- `buf.shrinkRetainingCapacity(buf.len - removed)`. -/
def shrinkBy (buf : Bytes) (removed : ℕ) : Outcome ε Bytes :=
  if removed ≤ buf.length then .ok (buf.take (buf.length - removed)) else .trap .bounds

/-- A difference of two positions. -/
def distance (upper lower : ℕ) : Outcome ε ℕ :=
  if lower ≤ upper then .ok (upper - lower) else .trap .overflow

/-- `while (j > 0 and ...) : (j -= 1) {}`. -/
def prevLoop (bytes : Bytes) : ℕ → Outcome ε ℕ
  | 0 => .ok 0
  | j + 1 =>
    match bytes[j + 1]? with
    | none => .trap .bounds
    | some b => if b &&& 0xC0 = 0x80 then prevLoop bytes j else .ok (j + 1)

def prevCodepointBoundary (bytes : Bytes) (i : ℕ) : Outcome ε ℕ :=
  if i = 0 then .ok 0 else prevLoop bytes (i - 1)

def nextCodepointBoundary (bytes : Bytes) (i : ℕ) : ℕ :=
  match bytes[i]? with
  | none => bytes.length
  | some b =>
    let seqLen :=
      if b < 0x80 then 1
      else if b &&& 0xE0 = 0xC0 then 2
      else if b &&& 0xF0 = 0xE0 then 3
      else if b &&& 0xF8 = 0xF0 then 4
      else 1
    min (i + seqLen) bytes.length

/-- `self.buf.insertSlice` at the cursor, which goes behind what comes in. -/
def insertText (self : Input) (text : Bytes) : Outcome ε Input := do
  let buf ← insertSlice self.buf self.cursor text
  return { self with buf, cursor := self.cursor + text.length }

/-! ## Pastes -/

def pasteLineThreshold : ℕ := 5

def pasteByteThreshold : ℕ := 512

/-- `std.fs.max_path_bytes`. -/
def maxPathBytes : ℕ := 4096

/-- `{d:0>2}`. -/
def twoDigits (n : ℕ) : Bytes :=
  if n < 10 then 0x30 :: Digits.decimal n else Digits.decimal n

/-- `paste_{d}_{d:0>2}{d:0>2}{d:0>2}.txt`. -/
def pasteFilename (counter : UInt32) (nowSecs : ℤ) : Bytes :=
  let daySecs := nowSecs.toNat % 86400
  ascii "paste_" ++ Digits.decimal counter.toNat ++ ascii "_" ++ twoDigits (daySecs / 3600) ++
    twoDigits (daySecs % 3600 / 60) ++ twoDigits (daySecs % 60) ++ ascii ".txt"

/-- `→` -/
def arrow : Bytes := [0xE2, 0x86, 0x92]

/-- `[Pasted text #{d}: {d} lines → {s}]`. -/
def placeholder (counter : UInt32) (lineCount : ℕ) (fullPath : Bytes) : Bytes :=
  ascii "[Pasted text #" ++ Digits.decimal counter.toNat ++ ascii ": " ++
    Digits.decimal lineCount ++ ascii " lines " ++ arrow ++ ascii " " ++ fullPath ++ ascii "]"

/-- `stashPaste`: the counter, which goes up in any case, and the note, or nothing on an error. -/
def stashPaste (disk : Disk) (dirPath : Bytes) (pasteCounter : UInt32) (text : Bytes)
    (newlines : ℕ) : Outcome ε (UInt32 × Option Bytes) := do
  let counter ← UInt32.checkedAdd pasteCounter 1
  let filename := pasteFilename counter disk.nowSecs
  let fullPath := dirPath ++ ascii "/" ++ filename
  let lineCount :=
    if 0 < text.length ∧ text.getLast? ≠ some 0x0A then newlines + 1 else newlines
  if !disk.dirOk then return (counter, none)
  else if 64 < filename.length then return (counter, none)
  else if maxPathBytes < fullPath.length then return (counter, none)
  else if !disk.createOk then return (counter, none)
  else if !disk.writeOk then return (counter, none)
  else return (counter, some (placeholder counter lineCount fullPath))

/-- 16 MiB: a longer paste is taken for a torn read. -/
def maxPaste : ℕ := 16 * 1024 * 1024

def handlePaste (cfg : Config) (disk : Disk) (self : Input) (text : Bytes) : Outcome ε Input :=
  if text.length = 0 then .ok self
  else if maxPaste < text.length then .ok self
  else
    let newlines := text.count 0x0A
    match cfg.pasteDir with
    | none => self.insertText text
    | some dirPath =>
      if cfg.hasPasteIo && (pasteLineThreshold ≤ newlines || pasteByteThreshold ≤ text.length) then
        do
          let stashed ← stashPaste disk dirPath self.pasteCounter text newlines
          let self := { self with pasteCounter := stashed.1 }
          match stashed.2 with
          | none => self.insertText text
          | some note => self.insertText note
      else self.insertText text

/-! ## Keys and events -/

/-- Backspace: the codepoint left of the cursor goes. -/
def backspace (self : Input) : Outcome ε Input :=
  if self.cursor = 0 then .ok self
  else do
    let newCursor ← prevCodepointBoundary self.buf self.cursor
    let removed ← distance self.cursor newCursor
    let moved ← copyForwards self.buf newCursor self.cursor
    let buf ← shrinkBy moved removed
    return { self with buf, cursor := newCursor }

/-- Delete: the codepoint right of the cursor goes. -/
def delete (self : Input) : Outcome ε Input :=
  if self.buf.length ≤ self.cursor then .ok self
  else do
    let next := nextCodepointBoundary self.buf self.cursor
    let removed ← distance next self.cursor
    let moved ← copyForwards self.buf self.cursor next
    let buf ← shrinkBy moved removed
    return { self with buf }

def moveLeft (self : Input) : Outcome ε Input := do
  let cursor ← prevCodepointBoundary self.buf self.cursor
  return { self with cursor }

/-- A key that prints. -/
def typeText (self : Input) (key : Key) : Outcome ε Input :=
  if key.text.isSome && 0 < key.codepoint && key.codepoint ≤ 0x10FFFF then
    match utf8Encode key.codepoint with
    | none => .ok self
    | some bytes => if bytes.length = 0 then .ok self else self.insertText bytes
  else .ok self

/-- `handleKey`, and what the callback gets. -/
def handleKey (cfg : Config) (self : Input) (key : Key) : Outcome ε (Input × List Bytes) :=
  if key.isEnter then
    .ok ({ self with buf := [], cursor := 0 }, if cfg.hasSubmit then [self.buf] else [])
  else do
    let self ←
      if key.matchesKey Key.backspace {} then self.backspace
      else if key.matchesKey Key.delete {} then self.delete
      else if key.matchesKey Key.left {} then self.moveLeft
      else if key.matchesKey Key.right {} then
        .ok { self with cursor := nextCodepointBoundary self.buf self.cursor }
      else if key.matchesKey Key.home {} || key.matchesKey 0x61 { ctrl := true } then
        .ok { self with cursor := 0 }
      else if key.matchesKey Key.«end» {} || key.matchesKey 0x65 { ctrl := true } then
        .ok { self with cursor := self.buf.length }
      else self.typeText key
    return (self, [])

/-- The bytes that a key adds to a bracketed paste. -/
def pastedKey (key : Key) : Bytes :=
  if key.codepoint = 13 ∨ key.codepoint = 10 then [0x0A]
  else if 0 < key.codepoint ∧ key.codepoint ≤ 0x10FFFF then (utf8Encode key.codepoint).getD []
  else []

inductive Event where
  | pasteStart
  | pasteEnd (disk : Disk)
  | keyPress (key : Key)
  | paste (text : Bytes) (disk : Disk)
  | other

def eventHandler (cfg : Config) (self : Input) : Event → Outcome ε (Input × List Bytes)
  | .pasteStart => .ok ({ self with inBracketedPaste := true, pasteBuffer := [] }, [])
  | .pasteEnd disk => do
    let pasted ← handlePaste cfg disk { self with inBracketedPaste := false } self.pasteBuffer
    return ({ pasted with pasteBuffer := [] }, [])
  | .keyPress key =>
    if self.inBracketedPaste then
      .ok ({ self with pasteBuffer := self.pasteBuffer ++ pastedKey key }, [])
    else handleKey cfg self key
  | .paste text disk =>
    if maxPaste < text.length then .ok (self, [])
    else do
      let pasted ← handlePaste cfg disk self text
      return (pasted, [])
  | .other => .ok (self, [])

/-- The events one after another, and all that the callback gets. -/
def run (cfg : Config) : Input → List Event → Outcome ε (Input × List Bytes)
  | self, [] => .ok (self, [])
  | self, event :: events => do
    let (self, submitted) ← eventHandler cfg self event
    let (self, more) ← run cfg self events
    return (self, submitted ++ more)

end Input
end Tui
end TigerClaw
