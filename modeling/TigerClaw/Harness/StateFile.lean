import TigerClaw.Channels.Spec
import TigerClaw.Harness.Session
import TigerClaw.Library.Json.Typed
import TigerClaw.Library.StepMachine

/-!
# Session files

A session is saved as an indented document.  It is resumed from the bytes of the file, of which no
more than 16 MiB are read.

* `State.tree`, `Session.toJson`: the document of a session and its bytes.
* `State.ofTree`, `parse`: a document as a state; unknown fields are passed over.
* `Storable`: what holds of every session of the process.
* `resume_toJson_iff`: a saved session comes back as it was exactly if its file is not too long.
* `run_refines`: in every run of turns, saves and restarts the session is that of a process which
  keeps sessions and no bytes.
-/

namespace TigerClaw
namespace Harness
namespace StateFile

open Agent (Message Role)
open Context (ContentBlock)
open Json (Tree)

/-! ## The document of a state -/

/-- `@tagName(role)`. -/
def roleTag : Role → Bytes
  | .system => ascii "system"
  | .user => ascii "user"
  | .assistant => ascii "assistant"

def roleOfTag (s : Bytes) : Option Role :=
  [Role.system, .user, .assistant].find? fun role => roleTag role == s

/-- A block is an object of one field, which is named by its tag. -/
def blockTree : ContentBlock → Tree
  | .text s => .object [(ascii "text", .ofBytes s)]
  | .toolUse id name inputJson =>
    .object [(ascii "tool_use", .object [(ascii "id", .ofBytes id), (ascii "name", .ofBytes name),
      (ascii "input_json", .ofBytes inputJson)])]
  | .toolResult toolUseId content isError =>
    .object [(ascii "tool_result", .object [(ascii "tool_use_id", .ofBytes toolUseId),
      (ascii "content", .ofBytes content), (ascii "is_error", .bool isError)])]

def messageFields (self : Message) : List (Bytes × Tree) :=
  [(ascii "role", .string (roleTag self.role)),
    (ascii "content", .array (self.content.map blockTree))]

def turnFields (self : Turn) : List (Bytes × Tree) :=
  [(ascii "index", .ofInt self.index), (ascii "started_at_ns", .ofInt self.startedAtNs),
    (ascii "finished_at_ns", .ofInt self.finishedAtNs),
    (ascii "user", .object (messageFields self.user)),
    (ascii "assistant", .object (messageFields self.assistant))]

/-- The fields of `State`; the harness leaves those of the channel null. -/
def stateFields (self : State) : List (Bytes × Tree) :=
  [(ascii "schema_version", .ofInt self.schemaVersion.toNat), (ascii "id", .ofBytes self.id),
    (ascii "turn_count", .ofInt self.turnCount), (ascii "created_at_ns", .ofInt self.createdAtNs),
    (ascii "updated_at_ns", .ofInt self.updatedAtNs),
    (ascii "turns", .array (self.turns.map fun t => .object (turnFields t))),
    (ascii "channel_id", .null), (ascii "conversation_key", .null), (ascii "thread_key", .null)]

/-- `state.stringify`. -/
def stringify (self : State) : Bytes := Tree.writeIndented (.object (stateFields self))

/-! ## A document as a state -/

section

variable (floatInt : Bytes → Option ℤ)

def bool? : Tree → Option Bool
  | .bool b => some b
  | _ => none

def u32? (v : Tree) : Option ℕ := (v.int? floatInt 0 (2 ^ 32 - 1)).map Int.toNat

def i128? (v : Tree) : Option ℤ := v.int? floatInt (-2 ^ 127) (2 ^ 127 - 1)

/-- An enumeration without a reader of its own: its tag, or the number of the tag. -/
def channelId? : Tree → Option Channels.ChannelId
  | .string s | .number s =>
    if s = ascii "telegram" ∨ Json.isNumberFormattedLikeAnInteger s = true ∧
      Digits.parseInt s = some 0 then some .telegram else none
  | _ => none

def toolUse? (v : Tree) : Option ContentBlock := do
  let fields ← v.members?
  let id ← (Tree.required fields (ascii "id")).bind (Tree.bytes? floatInt)
  let name ← (Tree.required fields (ascii "name")).bind (Tree.bytes? floatInt)
  let inputJson ← (Tree.required fields (ascii "input_json")).bind (Tree.bytes? floatInt)
  some (.toolUse id name inputJson)

def toolResult? (v : Tree) : Option ContentBlock := do
  let fields ← v.members?
  let toolUseId ← (Tree.required fields (ascii "tool_use_id")).bind (Tree.bytes? floatInt)
  let content ← (Tree.required fields (ascii "content")).bind (Tree.bytes? floatInt)
  let isError ← Tree.fieldOr fields (ascii "is_error") false bool?
  some (.toolResult toolUseId content isError)

def block? : Tree → Option ContentBlock
  | .object [(name, v)] =>
    if name = ascii "text" then (v.bytes? floatInt).map .text
    else if name = ascii "tool_use" then toolUse? floatInt v
    else if name = ascii "tool_result" then toolResult? floatInt v
    else none
  | _ => none

def message? (v : Tree) : Option Message := do
  let fields ← v.members?
  let role ← (Tree.required fields (ascii "role")).bind (Tree.tag? roleOfTag)
  let content ← (Tree.required fields (ascii "content")).bind (Tree.list? (block? floatInt))
  some { role, content }

def turn? (v : Tree) : Option Turn := do
  let fields ← v.members?
  let index ← (Tree.required fields (ascii "index")).bind (u32? floatInt)
  let startedAtNs ← (Tree.required fields (ascii "started_at_ns")).bind (i128? floatInt)
  let finishedAtNs ← (Tree.required fields (ascii "finished_at_ns")).bind (i128? floatInt)
  let user ← (Tree.required fields (ascii "user")).bind (message? floatInt)
  let assistant ← (Tree.required fields (ascii "assistant")).bind (message? floatInt)
  some { index, startedAtNs, finishedAtNs, user, assistant }

def state? (v : Tree) : Option State := do
  let fields ← v.members?
  let schemaVersion ← Tree.fieldOr fields (ascii "schema_version") 2 (u32? floatInt)
  let id ← (Tree.required fields (ascii "id")).bind (Tree.bytes? floatInt)
  let turnCount ← Tree.fieldOr fields (ascii "turn_count") 0 (u32? floatInt)
  let createdAtNs ← (Tree.required fields (ascii "created_at_ns")).bind (i128? floatInt)
  let updatedAtNs ← (Tree.required fields (ascii "updated_at_ns")).bind (i128? floatInt)
  let turns ← Tree.fieldOr fields (ascii "turns") [] (Tree.list? (turn? floatInt))
  -- resuming does not look at these
  let _ ← Tree.fieldOr fields (ascii "channel_id") none (Tree.optional? channelId?)
  let _ ← Tree.fieldOr fields (ascii "conversation_key") none
    (Tree.optional? (Tree.bytes? floatInt))
  let _ ← Tree.fieldOr fields (ascii "thread_key") none (Tree.optional? (Tree.bytes? floatInt))
  some { schemaVersion := UInt32.ofNat schemaVersion, id, turnCount, createdAtNs, updatedAtNs
         turns }

/-- `state.parse`. -/
def parse (bytes : Bytes) : Option State := (Tree.parse false bytes).bind (state? floatInt)

/-- `max_session_bytes`. -/
def maxSessionBytes : ℕ := 16 * 1024 * 1024

/-- `resumeSession`, from the bytes of the file. -/
def resume (file : Bytes) : Except LoadError Session :=
  match parse floatInt (file.take maxSessionBytes) with
  | none => .error .unreadable
  | some state => Session.resumeFromBytes state

end

/-! ## What is written is read -/

variable {floatInt : Bytes → Option ℤ}

/-- The values of an `i128`. -/
def I128 : Type := { n : ℤ // -2 ^ 127 ≤ n ∧ n ≤ 2 ^ 127 - 1 }

/-- What holds of a session that the process has started or resumed. -/
structure Storable (session : Session) : Prop where
  created : -2 ^ 127 ≤ session.createdAtNs ∧ session.createdAtNs ≤ 2 ^ 127 - 1
  updated : -2 ^ 127 ≤ session.updatedAtNs ∧ session.updatedAtNs ≤ 2 ^ 127 - 1
  index : ∀ t ∈ session.turns, t.index < 2 ^ 32
  started : ∀ t ∈ session.turns, -2 ^ 127 ≤ t.startedAtNs ∧ t.startedAtNs ≤ 2 ^ 127 - 1
  finished : ∀ t ∈ session.turns, -2 ^ 127 ≤ t.finishedAtNs ∧ t.finishedAtNs ≤ 2 ^ 127 - 1
  /-- A message is one text. -/
  plain : ∀ t ∈ session.turns, Session.resumeTurn t = t

theorem u32?_ofInt {n : ℕ} (h : n < 2 ^ 32) : u32? floatInt (.ofInt n) = some n := by
  rw [u32?, Tree.int?_ofInt (by omega) (by omega)]
  rfl

theorem i128?_ofInt {n : ℤ} (h : -2 ^ 127 ≤ n ∧ n ≤ 2 ^ 127 - 1) :
    i128? floatInt (.ofInt n) = some n := Tree.int?_ofInt h.1 h.2

theorem toolUse?_object (id name inputJson : Bytes) :
    toolUse? floatInt (.object [(ascii "id", .ofBytes id), (ascii "name", .ofBytes name),
      (ascii "input_json", .ofBytes inputJson)]) = some (.toolUse id name inputJson) := by
  rw [toolUse?, Tree.members?]
  simp only [Option.bind_eq_bind, Option.bind_some]
  rw [Tree.required_of_once (v := .ofBytes id) rfl, Tree.required_of_once (v := .ofBytes name) rfl,
    Tree.required_of_once (v := .ofBytes inputJson) rfl]
  simp only [Option.bind_some, Tree.bytes?_ofBytes]

theorem toolResult?_object (toolUseId content : Bytes) (isError : Bool) :
    toolResult? floatInt (.object [(ascii "tool_use_id", .ofBytes toolUseId),
      (ascii "content", .ofBytes content), (ascii "is_error", .bool isError)]) =
        some (.toolResult toolUseId content isError) := by
  rw [toolResult?, Tree.members?]
  simp only [Option.bind_eq_bind, Option.bind_some]
  rw [Tree.required_of_once (v := .ofBytes toolUseId) rfl,
    Tree.required_of_once (v := .ofBytes content) rfl,
    Tree.fieldOr_of_once (v := .bool isError) rfl]
  simp only [Option.bind_some, Tree.bytes?_ofBytes, bool?]

/-- A block is read as itself, whatever it is. -/
theorem block?_blockTree (b : ContentBlock) : block? floatInt (blockTree b) = some b := by
  cases b with
  | text s =>
    rw [blockTree, block?, if_pos rfl, Tree.bytes?_ofBytes]
    rfl
  | toolUse id name inputJson =>
    rw [blockTree, block?, if_neg (by decide), if_pos rfl, toolUse?_object]
  | toolResult toolUseId content isError =>
    rw [blockTree, block?, if_neg (by decide), if_neg (by decide), if_pos rfl, toolResult?_object]

theorem roleOfTag_roleTag (role : Role) : roleOfTag (roleTag role) = some role := by
  cases role <;> rfl

theorem message?_object (m : Message) : message? floatInt (.object (messageFields m)) = some m := by
  rw [message?, Tree.members?]
  simp only [Option.bind_eq_bind, Option.bind_some]
  rw [Tree.required_of_once (v := .string (roleTag m.role)) rfl,
    Tree.required_of_once (v := .array (m.content.map blockTree)) rfl]
  simp only [Option.bind_some, Tree.tag?, roleOfTag_roleTag,
    Tree.list?_map fun b _ => block?_blockTree b]

theorem turn?_object {t : Turn} (hindex : t.index < 2 ^ 32)
    (hstarted : -2 ^ 127 ≤ t.startedAtNs ∧ t.startedAtNs ≤ 2 ^ 127 - 1)
    (hfinished : -2 ^ 127 ≤ t.finishedAtNs ∧ t.finishedAtNs ≤ 2 ^ 127 - 1) :
    turn? floatInt (.object (turnFields t)) = some t := by
  rw [turn?, Tree.members?]
  simp only [Option.bind_eq_bind, Option.bind_some]
  rw [Tree.required_of_once (v := .ofInt t.index) rfl,
    Tree.required_of_once (v := .ofInt t.startedAtNs) rfl,
    Tree.required_of_once (v := .ofInt t.finishedAtNs) rfl,
    Tree.required_of_once (v := .object (messageFields t.user)) rfl,
    Tree.required_of_once (v := .object (messageFields t.assistant)) rfl]
  simp only [Option.bind_some, u32?_ofInt hindex, i128?_ofInt hstarted, i128?_ofInt hfinished,
    message?_object]

theorem Storable.state?_object {session : Session} (h : Storable session)
    (hcount : session.turnCount < 2 ^ 32) :
    state? floatInt (.object (stateFields session.snapshot)) = some session.snapshot := by
  have hturns : Tree.list? (turn? floatInt)
      (.array (session.turns.map fun t => .object (turnFields t))) = some session.turns :=
    Tree.list?_map fun t ht => turn?_object (h.index t ht) (h.started t ht) (h.finished t ht)
  rw [state?, Tree.members?]
  simp only [Option.bind_eq_bind, Option.bind_some]
  rw [Tree.fieldOr_of_once (v := .ofInt (2 : ℕ)) rfl,
    Tree.required_of_once (v := .ofBytes session.id) rfl,
    Tree.fieldOr_of_once (v := .ofInt session.turnCount) rfl,
    Tree.required_of_once (v := .ofInt session.createdAtNs) rfl,
    Tree.required_of_once (v := .ofInt session.updatedAtNs) rfl,
    Tree.fieldOr_of_once (v := .array (session.turns.map fun t => .object (turnFields t))) rfl,
    Tree.fieldOr_of_once (v := .null) rfl, Tree.fieldOr_of_once (v := .null) rfl,
    Tree.fieldOr_of_once (v := .null) rfl]
  rw [u32?_ofInt (by decide), u32?_ofInt hcount, hturns]
  simp only [Option.bind_some, Tree.bytes?_ofBytes, i128?_ofInt h.created, i128?_ofInt h.updated,
    Tree.optional?]
  rfl

theorem utf8Valid_roleTag (role : Role) : Json.utf8Valid (roleTag role) = true := by
  cases role <;> rfl

theorem tame_blockTree (b : ContentBlock) : (blockTree b).Tame := by
  cases b <;> refine Tree.tame_object ?_ <;>
    simp only [List.forall_mem_cons, List.not_mem_nil, false_implies, implies_true, and_true]
  case text => exact ⟨rfl, Tree.tame_ofBytes _⟩
  case toolUse =>
    refine ⟨rfl, Tree.tame_object ?_⟩
    simp only [List.forall_mem_cons, List.not_mem_nil, false_implies, implies_true, and_true]
    exact ⟨⟨rfl, Tree.tame_ofBytes _⟩, ⟨rfl, Tree.tame_ofBytes _⟩, rfl, Tree.tame_ofBytes _⟩
  case toolResult =>
    refine ⟨rfl, Tree.tame_object ?_⟩
    simp only [List.forall_mem_cons, List.not_mem_nil, false_implies, implies_true, and_true]
    exact ⟨⟨rfl, Tree.tame_ofBytes _⟩, ⟨rfl, Tree.tame_ofBytes _⟩, rfl, Tree.tame_bool _⟩

theorem tame_messageFields (m : Message) : Tree.Tame (.object (messageFields m)) := by
  refine Tree.tame_object ?_
  simp only [messageFields, List.forall_mem_cons, List.not_mem_nil, false_implies, implies_true,
    and_true]
  refine ⟨⟨rfl, Tree.tame_string (utf8Valid_roleTag m.role)⟩, rfl, Tree.tame_array ?_⟩
  rintro v hv
  obtain ⟨b, -, rfl⟩ := List.mem_map.mp hv
  exact tame_blockTree b

theorem tame_turnFields (t : Turn) : Tree.Tame (.object (turnFields t)) := by
  refine Tree.tame_object ?_
  simp only [turnFields, List.forall_mem_cons, List.not_mem_nil, false_implies, implies_true,
    and_true]
  exact ⟨⟨rfl, Tree.tame_ofInt _⟩, ⟨rfl, Tree.tame_ofInt _⟩, ⟨rfl, Tree.tame_ofInt _⟩,
    ⟨rfl, tame_messageFields _⟩, rfl, tame_messageFields _⟩

theorem tame_stateFields (state : State) : Tree.Tame (.object (stateFields state)) := by
  refine Tree.tame_object ?_
  simp only [stateFields, List.forall_mem_cons, List.not_mem_nil, false_implies, implies_true,
    and_true]
  refine ⟨⟨rfl, Tree.tame_ofInt _⟩, ⟨rfl, Tree.tame_ofBytes _⟩, ⟨rfl, Tree.tame_ofInt _⟩,
    ⟨rfl, Tree.tame_ofInt _⟩, ⟨rfl, Tree.tame_ofInt _⟩, ⟨rfl, Tree.tame_array ?_⟩,
    ⟨rfl, Tree.tame_null⟩, ⟨rfl, Tree.tame_null⟩, rfl, Tree.tame_null⟩
  rintro v hv
  obtain ⟨t, -, rfl⟩ := List.mem_map.mp hv
  exact tame_turnFields t

/-- `Session.toJson`. -/
def toJson (session : Session) : Bytes := stringify session.snapshot

theorem Storable.parse_toJson {session : Session} (h : Storable session)
    (hcount : session.turnCount < 2 ^ 32) :
    parse floatInt (toJson session) = some session.snapshot := by
  rw [parse, toJson, stringify,
    Tree.parse_writeIndented fun t ht => (tame_stateFields session.snapshot t ht).writable]
  exact h.state?_object hcount

theorem parse_take_toJson (session : Session) {n : ℕ} (hn : n < (toJson session).length) :
    parse floatInt ((toJson session).take n) = none := by
  rw [parse, toJson, stringify, Tree.parse_take_writeIndented
    (fun t ht => (tame_stateFields session.snapshot t ht).writable) hn]
  rfl

theorem Storable.resume_toJson {session : Session} (h : Storable session)
    (hcount : session.turnCount < 2 ^ 32) (hlength : (toJson session).length ≤ maxSessionBytes) :
    resume floatInt (toJson session) = .ok session := by
  rw [resume, List.take_of_length_le hlength, h.parse_toJson hcount]
  have hturns : session.turns.map Session.resumeTurn = session.turns :=
    (List.map_congr_left h.plain).trans (List.map_id' _)
  simp [Session.resumeFromBytes, Session.snapshot, hturns]

/-- **A saved session comes back as it was**, turn by turn, exactly if its file is not longer than
what is read of it; a longer file is refused. -/
theorem resume_toJson_iff {session : Session} (h : Storable session)
    (hcount : session.turnCount < 2 ^ 32) :
    (resume floatInt (toJson session) = .ok session ↔
      (toJson session).length ≤ maxSessionBytes) ∧
    (maxSessionBytes < (toJson session).length →
      resume floatInt (toJson session) = .error .unreadable) := by
  have hlong : maxSessionBytes < (toJson session).length →
      resume floatInt (toJson session) = .error .unreadable := by
    intro hlong
    rw [resume, parse_take_toJson session hlong]
  refine ⟨⟨fun hok => ?_, h.resume_toJson hcount⟩, hlong⟩
  by_contra hlt
  rw [hlong (by omega)] at hok
  cases hok

theorem storable_start (id : Bytes) (now : I128) : Storable (Session.start now.val id) where
  created := now.property
  updated := now.property
  index := by simp [Session.start]
  started := by simp [Session.start]
  finished := by simp [Session.start]
  plain := by simp [Session.start]

theorem resume_toJson_iff_start :
    let session := Session.start 7 (ascii "s")
    resume (fun _ => none) (toJson session) = .ok session ↔
      (toJson session).length ≤ maxSessionBytes :=
  (resume_toJson_iff (storable_start (ascii "s") ⟨7, by decide⟩) (by decide)).1

/-! ## A process that restarts -/

/-- The process and the file of its session. -/
structure Process where
  session : Session
  file : Option Bytes

inductive Action where
  | appendTurn (now : I128) (userContent assistantContent : Bytes)
  | save
  /-- The write has failed, which leaves the file as it was. -/
  | saveFails
  /-- The process ends, and another one takes up the session. -/
  | restart (now : I128)

section

variable (floatInt : Bytes → Option ℤ)

/-- `turnCount` is a `u32`; a file that cannot be read ends the run. -/
def Process.step (p : Process) : Action → Option Process
  | .appendTurn now userContent assistantContent =>
    if p.session.turnCount < 2 ^ 32 then
      some { p with session := p.session.appendTurn now.val userContent assistantContent }
    else none
  | .save =>
    if p.session.turnCount < 2 ^ 32 then some { p with file := some (toJson p.session) } else none
  | .saveFails => some p
  | .restart now =>
    match p.file with
    | none => some { p with session := Session.start now.val p.session.id }
    | some bytes =>
      match resume floatInt bytes with
      | .ok session => some { p with session }
      | .error _ => none

end

/-- The same process without bytes: the session, and the one that was saved last. -/
structure Kept where
  session : Session
  saved : Option Session

def Kept.step (k : Kept) : Action → Kept
  | .appendTurn now userContent assistantContent =>
    { k with session := k.session.appendTurn now.val userContent assistantContent }
  | .save => { k with saved := some k.session }
  | .saveFails => k
  | .restart now => { k with session := k.saved.getD (Session.start now.val k.session.id) }

theorem Storable.appendTurn {session : Session} (h : Storable session)
    (hcount : session.turnCount < 2 ^ 32) (now : I128) (userContent assistantContent : Bytes) :
    Storable (session.appendTurn now.val userContent assistantContent) where
  created := h.created
  updated := now.property
  index := List.forall_mem_append.mpr ⟨h.index, by simpa using hcount⟩
  started := List.forall_mem_append.mpr ⟨h.started, by simpa using now.property⟩
  finished := List.forall_mem_append.mpr ⟨h.finished, by simpa using now.property⟩
  plain := List.forall_mem_append.mpr ⟨h.plain, by
    simp [Session.resumeTurn, Agent.Message.allocText, Agent.firstText]⟩

/-- The process has the session, and the bytes of the one that was saved last. -/
structure Refines (p : Process) (k : Kept) : Prop where
  session : p.session = k.session
  file : p.file = k.saved.map toJson
  storable : Storable k.session
  saved : ∀ session, k.saved = some session → Storable session ∧ session.turnCount < 2 ^ 32

theorem refines_step {p p' : Process} {k : Kept} {action : Action} (h : Refines p k)
    (hstep : p.step floatInt action = some p') : Refines p' (k.step action) := by
  obtain ⟨session, file⟩ := p
  obtain ⟨rfl, rfl, hstorable, hsaved⟩ := h
  cases action with
  | appendTurn now userContent assistantContent =>
    rw [Process.step] at hstep
    split at hstep
    · rename_i hcount
      obtain rfl := Option.some.inj hstep
      exact ⟨rfl, rfl, hstorable.appendTurn hcount now userContent assistantContent, hsaved⟩
    · cases hstep
  | save =>
    rw [Process.step] at hstep
    split at hstep
    · rename_i hcount
      obtain rfl := Option.some.inj hstep
      refine ⟨rfl, rfl, hstorable, fun session hsession => ?_⟩
      obtain rfl := Option.some.inj hsession
      exact ⟨hstorable, hcount⟩
    · cases hstep
  | saveFails =>
    obtain rfl := Option.some.inj hstep
    exact ⟨rfl, rfl, hstorable, hsaved⟩
  | restart now =>
    obtain ⟨session, saved⟩ := k
    cases saved with
    | none =>
      obtain rfl := Option.some.inj hstep
      exact ⟨rfl, rfl, storable_start _ now, hsaved⟩
    | some last =>
      obtain ⟨hlast, hcount⟩ := hsaved last rfl
      obtain ⟨hok, hlong⟩ := @resume_toJson_iff floatInt last hlast hcount
      have hresume : resume floatInt (toJson last) = .ok last := by
        by_cases hlength : (toJson last).length ≤ maxSessionBytes
        · exact hok.mpr hlength
        · -- the run would have ended
          have herror := hlong (Nat.lt_of_not_le hlength)
          simp [Process.step, herror] at hstep
      simp only [Process.step, Option.map_some, hresume] at hstep
      obtain rfl := Option.some.inj hstep
      exact ⟨rfl, rfl, hlast, hsaved⟩

/-- **Bytes do not matter.**  In every run of turns, saves, failed saves and restarts, the process
has the session that a process without files has, which takes up the session that was saved
last. -/
theorem run_refines {id : Bytes} {now : I128} {actions : List Action} {p : Process}
    (h : StepMachine.run (Process.step floatInt) ⟨Session.start now.val id, none⟩ actions =
      some p) :
    let k := actions.foldl Kept.step ⟨Session.start now.val id, none⟩
    p.session = k.session ∧ p.file = k.saved.map toJson := by
  have hstart : Refines ⟨Session.start now.val id, none⟩ ⟨Session.start now.val id, none⟩ :=
    ⟨rfl, rfl, storable_start id now, nofun⟩
  have hrefines := StepMachine.refines_run (fun _ _ _ _ => refines_step) hstart h
  exact ⟨hrefines.session, hrefines.file⟩

theorem run_refines_lost :
    let now : I128 := ⟨7, by decide⟩
    let actions := [.appendTurn now (ascii "hi") (ascii "hello"), .saveFails, .restart now]
    ∃ p, StepMachine.run (Process.step fun _ => none) ⟨Session.start 7 (ascii "s"), none⟩ actions =
      some p ∧ p.session = Session.start 7 (ascii "s") ∧ p.file = none := by
  intro now actions
  obtain ⟨hsession, hfile⟩ := @run_refines (fun _ => none) (ascii "s") now actions
    ⟨Session.start 7 (ascii "s"), none⟩ rfl
  exact ⟨_, rfl, hsession, hfile⟩

end StateFile
end Harness
end TigerClaw
