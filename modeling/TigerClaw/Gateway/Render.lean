import TigerClaw.Gateway.Router
import TigerClaw.Instances.Repo
import TigerClaw.Library.FixedWriter
import TigerClaw.Library.Json.Reread

/-!
# Bodies that are rendered into a fixed buffer

`renderJsonFromOutput` and `instancesListHandler` of `src/gateway/routes.zig`.  Both write their
body into a buffer of 16 KiB; the output of the runner is cut to a budget first, before its
characters are escaped.

* `encodeJsonString`, `renderJsonFromOutput`, `renderInstance`, `instancesListHandler`: the code.
* `escapedSize`, `rowSize`: how much room a string and a row take.
* `rendersOutput_iff`, `listsRows_iff`: the bodies are complete exactly where they fit, and where no
  character is cut.
* `bodies_complete_iff`: the two together.
-/

namespace TigerClaw
namespace Gateway
namespace Render

open FixedWriter (Emits Program WriteError emits_bind emits_foldlM emits_nil emits_writeAll)
open Instances (Record Table)
open Json (Token Tree escape utf8Valid write)

/-! ## The code -/

/-- The length of `render_body_buf`. -/
def bodyLen : ℕ := 16 * 1024

/-- `writeAll` of `std.Io.Writer.fixed(&render_body_buf)`. -/
def writeAll (bytes : Bytes) : Program UInt8 := FixedWriter.writeAll bodyLen bytes

/-- `std.json.Stringify.encodeJsonString`. -/
def encodeJsonString (src : Bytes) : Program UInt8 := fun w => do
  let w ← writeAll [0x22] w
  let w ← src.foldlM (fun w b => writeAll (escape b) w) w
  writeAll [0x22] w

def jsonOk (body : Bytes) : Response :=
  { status := .ok
    headers := [⟨ascii "content-type", ascii "application/json; charset=utf-8"⟩]
    body }

/-- What is left in the buffer for the output. -/
def budget : ℕ := bodyLen - 64

/-- The output, cut to the budget. -/
def cut (output : Bytes) : Bytes := if output.length > budget then output.take budget else output

def writeOutput (src : Bytes) : Program UInt8 := fun w => do
  let w ← writeAll (ascii "\x7b\"output\":") w
  let w ← encodeJsonString src w
  writeAll (ascii "\x7d") w

def renderJsonFromOutput (output : Bytes) : Response :=
  match writeOutput (cut output) [] with
  | .ok body => jsonOk body
  | _ => { status := .internalServerError, body := ascii "render failed\n" }

/-- `@intCast` to an `i64`. -/
def intCast (n : ℤ) : Outcome WriteError ℤ :=
  if -2 ^ 63 ≤ n ∧ n < 2 ^ 63 then .ok n else .trap .intCast

def renderInstance (rec : Record) : Program UInt8 := fun w => do
  let w ← writeAll (ascii "\x7b\"id\":") w
  let w ← encodeJsonString rec.id w
  let w ← writeAll (ascii ",\"kind\":\"") w
  let w ← writeAll rec.kind.toString w
  let w ← writeAll (ascii "\",\"name\":") w
  let w ← encodeJsonString rec.name w
  let w ← writeAll (ascii ",\"agent_id\":") w
  let w ← encodeJsonString rec.agentId w
  let w ← writeAll (ascii ",\"session_id\":") w
  let w ← encodeJsonString rec.sessionId w
  let connectedAtNs ← intCast rec.connectedAtNs
  let lastHeartbeatAtNs ← intCast rec.lastHeartbeatAtNs
  writeAll (ascii ",\"heartbeat_interval_ms\":" ++
    Digits.decimal rec.heartbeatIntervalMs.toNat ++ ascii ",\"connected_at_ns\":" ++
    Digits.decimalInt connectedAtNs ++ ascii ",\"last_heartbeat_at_ns\":" ++
    Digits.decimalInt lastHeartbeatAtNs ++ ascii "\x7d") w

/-- `if (i > 0) w.writeAll(",")`. -/
def comma (more : Bool) : Program UInt8 := fun w => if more then writeAll (ascii ",") w else .ok w

/-- The loop over the rows. -/
def writeRows (more : Bool) : List Record → Program UInt8
  | [] => fun w => .ok w
  | rec :: rows => fun w => do
    let w ← comma more w
    let w ← renderInstance rec w
    writeRows true rows w

def writeList (rows : List Record) : Program UInt8 := fun w => do
  let w ← writeAll (ascii "\x7b\"instances\":[") w
  let w ← writeRows false rows w
  writeAll (ascii "]\x7d") w

/-- The rows that `listLive` selects. -/
def live (table : Table) : List Record :=
  (table.filter fun r => r.evictedAtNs = 0).map Instances.Row.toRecord

/-- `Repo.listLive`: `ORDER BY connected_at_ns ASC`. -/
def listLive (table : Table) : List Record :=
  (live table).mergeSort fun a b => a.connectedAtNs ≤ b.connectedAtNs

/-- `instancesListHandler`, with a database that answers. -/
def instancesListHandler (table : Table) : Outcome DispatchError Response :=
  (writeList (listLive table) []).catchAs .internalServerError >>= fun body => .ok (jsonOk body)

/-! ## What is written -/

/-- A string between quotes. -/
theorem emits_encodeJsonString (src : Bytes) :
    Emits bodyLen (encodeJsonString src) (Token.string src).write := by
  unfold encodeJsonString
  rw [Token.write, List.append_assoc]
  refine emits_bind (emits_writeAll _) (emits_bind ?_ (emits_writeAll _))
  exact emits_foldlM (fun b => emits_writeAll (escape b)) src

theorem write_append (a b : List Token) : write (a ++ b) = write a ++ write b :=
  List.flatMap_append

theorem write_singleton (t : Token) : write [t] = t.write := List.flatMap_singleton _ _

/-- A field, with what is in front of it. -/
def key (front : Token) (name : Bytes) : List Token := [front, .string name, .colon]

/-- The body for an output. -/
def outputTree (text : Bytes) : Tree := .object [(ascii "output", .string text)]

theorem write_outputTree (src : Bytes) :
    write (outputTree src).tokens =
      ascii "\x7b\"output\":" ++ ((Token.string src).write ++ ascii "\x7d") := by
  have hkey : ascii "\x7b\"output\":" = write (key .objectBegin (ascii "output")) := by decide
  have hend : ascii "\x7d" = write [.objectEnd] := by decide
  rw [hkey, hend, ← write_singleton (.string src), ← write_append, ← write_append]
  rfl

theorem emits_writeOutput (src : Bytes) :
    Emits bodyLen (writeOutput src) (write (outputTree src).tokens) := by
  rw [write_outputTree]
  exact emits_bind (emits_writeAll _) (emits_bind (emits_encodeJsonString src) (emits_writeAll _))

/-- A row, with the columns that are shown. -/
def rowTree (rec : Record) : Tree := .object [
  (ascii "id", .string rec.id),
  (ascii "kind", .string rec.kind.toString),
  (ascii "name", .string rec.name),
  (ascii "agent_id", .string rec.agentId),
  (ascii "session_id", .string rec.sessionId),
  (ascii "heartbeat_interval_ms", .number (Digits.decimal rec.heartbeatIntervalMs.toNat)),
  (ascii "connected_at_ns", .number (Digits.decimalInt rec.connectedAtNs)),
  (ascii "last_heartbeat_at_ns", .number (Digits.decimalInt rec.lastHeartbeatAtNs))]

/-- The body for some rows. -/
def rowsTree (rows : List Record) : Tree :=
  .object [(ascii "instances", .array (rows.map rowTree))]

theorem write_kind (kind : Instances.Kind) :
    (Token.string kind.toString).write = [0x22] ++ (kind.toString ++ [0x22]) := by
  cases kind <;> decide

/-- The last piece of a row. -/
def times (rec : Record) : Bytes :=
  ascii ",\"heartbeat_interval_ms\":" ++ Digits.decimal rec.heartbeatIntervalMs.toNat ++
    ascii ",\"connected_at_ns\":" ++ Digits.decimalInt rec.connectedAtNs ++
    ascii ",\"last_heartbeat_at_ns\":" ++ Digits.decimalInt rec.lastHeartbeatAtNs ++ ascii "\x7d"

theorem write_times (rec : Record) :
    times rec =
      write (key .comma (ascii "heartbeat_interval_ms") ++
        (.number (Digits.decimal rec.heartbeatIntervalMs.toNat) ::
          key .comma (ascii "connected_at_ns")) ++
        (.number (Digits.decimalInt rec.connectedAtNs) ::
          key .comma (ascii "last_heartbeat_at_ns")) ++
        [.number (Digits.decimalInt rec.lastHeartbeatAtNs), .objectEnd]) := by
  have hheartbeat : ascii ",\"heartbeat_interval_ms\":" =
      write (key .comma (ascii "heartbeat_interval_ms")) := by decide
  have hconnected : ascii ",\"connected_at_ns\":" =
      write (key .comma (ascii "connected_at_ns")) := by decide
  have hlast : ascii ",\"last_heartbeat_at_ns\":" =
      write (key .comma (ascii "last_heartbeat_at_ns")) := by decide
  have hend : ascii "\x7d" = write [.objectEnd] := by decide
  rw [times, hheartbeat, hconnected, hlast, hend, write_append, write_append, write_append]
  simp only [Json.write_cons, Token.write, List.append_assoc]

/-- The pieces of a row. -/
theorem write_rowTree (rec : Record) :
    write (rowTree rec).tokens =
      ascii "\x7b\"id\":" ++ ((Token.string rec.id).write ++ (ascii ",\"kind\":\"" ++
        (rec.kind.toString ++ (ascii "\",\"name\":" ++ ((Token.string rec.name).write ++
          (ascii ",\"agent_id\":" ++ ((Token.string rec.agentId).write ++
            (ascii ",\"session_id\":" ++ ((Token.string rec.sessionId).write ++
              times rec))))))))) := by
  have hid : ascii "\x7b\"id\":" = write (key .objectBegin (ascii "id")) := by decide
  have hkind : ascii ",\"kind\":\"" = write (key .comma (ascii "kind")) ++ [0x22] := by decide
  have hname : ascii "\",\"name\":" = [0x22] ++ write (key .comma (ascii "name")) := by decide
  have hagent : ascii ",\"agent_id\":" = write (key .comma (ascii "agent_id")) := by decide
  have hsession : ascii ",\"session_id\":" = write (key .comma (ascii "session_id")) := by decide
  have hrow : (rowTree rec).tokens =
      key .objectBegin (ascii "id") ++ ([.string rec.id] ++ (key .comma (ascii "kind") ++
        ([.string rec.kind.toString] ++ (key .comma (ascii "name") ++ ([.string rec.name] ++
          (key .comma (ascii "agent_id") ++ ([.string rec.agentId] ++
            (key .comma (ascii "session_id") ++ ([.string rec.sessionId] ++
              (key .comma (ascii "heartbeat_interval_ms") ++
        (.number (Digits.decimal rec.heartbeatIntervalMs.toNat) ::
          key .comma (ascii "connected_at_ns")) ++
        (.number (Digits.decimalInt rec.connectedAtNs) ::
          key .comma (ascii "last_heartbeat_at_ns")) ++
        [.number (Digits.decimalInt rec.lastHeartbeatAtNs), .objectEnd])))))))))) := rfl
  rw [hrow, hid, hkind, hname, hagent, hsession, write_times]
  simp only [write_append _ (_ ++ _), write_singleton, write_kind, List.append_assoc]

/-- The times are 64-bit integers, as those in the table are. -/
def TimesFit (rec : Record) : Prop :=
  (-2 ^ 63 ≤ rec.connectedAtNs ∧ rec.connectedAtNs < 2 ^ 63) ∧
    -2 ^ 63 ≤ rec.lastHeartbeatAtNs ∧ rec.lastHeartbeatAtNs < 2 ^ 63

theorem intCast_eq_ok {n m : ℤ} : intCast n = .ok m ↔ (-2 ^ 63 ≤ n ∧ n < 2 ^ 63) ∧ m = n := by
  unfold intCast
  split_ifs with h
  · rw [Outcome.ok.injEq, and_iff_right h, eq_comm]
  · exact iff_of_false (by simp) fun hboth => h hboth.1

theorem emits_renderInstance {rec : Record} (hrec : TimesFit rec) :
    Emits bodyLen (renderInstance rec) (write (rowTree rec).tokens) := by
  have hconnected : intCast rec.connectedAtNs = .ok rec.connectedAtNs :=
    intCast_eq_ok.mpr ⟨hrec.1, rfl⟩
  have hlast : intCast rec.lastHeartbeatAtNs = .ok rec.lastHeartbeatAtNs :=
    intCast_eq_ok.mpr ⟨hrec.2, rfl⟩
  unfold renderInstance
  rw [write_rowTree, hconnected, hlast]
  refine emits_bind (emits_writeAll _) (emits_bind (emits_encodeJsonString _) ?_)
  refine emits_bind (emits_writeAll _) (emits_bind (emits_writeAll _) ?_)
  refine emits_bind (emits_writeAll _) (emits_bind (emits_encodeJsonString _) ?_)
  refine emits_bind (emits_writeAll _) (emits_bind (emits_encodeJsonString _) ?_)
  refine emits_bind (emits_writeAll _) (emits_bind (emits_encodeJsonString _) ?_)
  exact emits_writeAll _

/-- A row is not rendered with times that do not fit. -/
theorem timesFit_of_renderInstance {rec : Record} {w w' : Bytes}
    (h : renderInstance rec w = .ok w') : TimesFit rec := by
  unfold renderInstance at h
  obtain ⟨_, _, h⟩ := Outcome.bind_eq_ok.mp h
  obtain ⟨_, _, h⟩ := Outcome.bind_eq_ok.mp h
  obtain ⟨_, _, h⟩ := Outcome.bind_eq_ok.mp h
  obtain ⟨_, _, h⟩ := Outcome.bind_eq_ok.mp h
  obtain ⟨_, _, h⟩ := Outcome.bind_eq_ok.mp h
  obtain ⟨_, _, h⟩ := Outcome.bind_eq_ok.mp h
  obtain ⟨_, _, h⟩ := Outcome.bind_eq_ok.mp h
  obtain ⟨_, _, h⟩ := Outcome.bind_eq_ok.mp h
  obtain ⟨_, _, h⟩ := Outcome.bind_eq_ok.mp h
  obtain ⟨_, _, h⟩ := Outcome.bind_eq_ok.mp h
  obtain ⟨_, hconnected, h⟩ := Outcome.bind_eq_ok.mp h
  obtain ⟨_, hlast, -⟩ := Outcome.bind_eq_ok.mp h
  exact ⟨(intCast_eq_ok.mp hconnected).1, (intCast_eq_ok.mp hlast).1⟩

theorem emits_writeRows {rows : List Record} (hrows : ∀ rec ∈ rows, TimesFit rec) (more : Bool) :
    Emits bodyLen (writeRows more rows)
      (write (if more then Tree.moreElemTokens (rows.map rowTree)
        else Tree.elemTokens (rows.map rowTree))) := by
  induction rows generalizing more with
  | nil => cases more <;> exact emits_nil
  | cons rec rows ih =>
    rw [List.forall_mem_cons] at hrows
    have hrest := ih hrows.2 true
    rw [if_pos rfl] at hrest
    unfold writeRows
    cases more with
    | false =>
      have htext : write (Tree.elemTokens ((rec :: rows).map rowTree)) =
          [] ++ (write (rowTree rec).tokens ++
            write (Tree.moreElemTokens (rows.map rowTree))) := by
        rw [List.map_cons, Tree.elemTokens, write_append, List.nil_append]
      rw [if_neg Bool.false_ne_true, htext]
      exact emits_bind emits_nil (emits_bind (emits_renderInstance hrows.1) hrest)
    | true =>
      have htext : write (Tree.moreElemTokens ((rec :: rows).map rowTree)) =
          ascii "," ++ (write (rowTree rec).tokens ++
            write (Tree.moreElemTokens (rows.map rowTree))) := by
        rw [List.map_cons, Tree.moreElemTokens, Json.write_cons, write_append]
        rfl
      rw [if_pos rfl, htext]
      exact emits_bind (emits_writeAll _) (emits_bind (emits_renderInstance hrows.1) hrest)

theorem timesFit_of_writeRows {rows : List Record} {more : Bool} {w w' : Bytes}
    (h : writeRows more rows w = .ok w') : ∀ rec ∈ rows, TimesFit rec := by
  induction rows generalizing more w with
  | nil => simp
  | cons rec rows ih =>
    unfold writeRows at h
    obtain ⟨_, _, h⟩ := Outcome.bind_eq_ok.mp h
    obtain ⟨_, hrec, h⟩ := Outcome.bind_eq_ok.mp h
    exact List.forall_mem_cons.mpr ⟨timesFit_of_renderInstance hrec, ih h⟩

theorem write_rowsTree (rows : List Record) :
    write (rowsTree rows).tokens =
      ascii "\x7b\"instances\":[" ++ (write (Tree.elemTokens (rows.map rowTree)) ++
        ascii "]\x7d") := by
  have hfront : ascii "\x7b\"instances\":[" =
      write (key .objectBegin (ascii "instances") ++ [.arrayBegin]) := by decide
  have hend : ascii "]\x7d" = write [.arrayEnd, .objectEnd] := by decide
  have htokens : (rowsTree rows).tokens =
      (key .objectBegin (ascii "instances") ++ [.arrayBegin]) ++
        (Tree.elemTokens (rows.map rowTree) ++ [.arrayEnd, .objectEnd]) := by
    simp [rowsTree, Tree.tokens, Tree.memberTokens, Tree.moreMemberTokens, key]
  rw [htokens, hfront, hend, ← write_append, ← write_append]

/-- **What the list of the rows is rendered as**, and when. -/
theorem writeList_eq_ok_iff {rows : List Record} {body : Bytes} :
    writeList rows [] = .ok body ↔
      (∀ rec ∈ rows, TimesFit rec) ∧ (write (rowsTree rows).tokens).length ≤ bodyLen ∧
        body = write (rowsTree rows).tokens := by
  have hemits : (∀ rec ∈ rows, TimesFit rec) →
      Emits bodyLen (writeList rows) (write (rowsTree rows).tokens) := by
    intro hrows
    rw [write_rowsTree]
    exact emits_bind (emits_writeAll _) (emits_bind (emits_writeRows hrows false)
      (emits_writeAll _))
  constructor
  · intro h
    have hwrite := h
    unfold writeList at h
    obtain ⟨_, _, h⟩ := Outcome.bind_eq_ok.mp h
    obtain ⟨_, hrows, -⟩ := Outcome.bind_eq_ok.mp h
    have hfit := timesFit_of_writeRows hrows
    exact ⟨hfit, (FixedWriter.emits_eq_ok_iff (hemits hfit)).mp hwrite⟩
  · rintro ⟨hfit, hbody⟩
    exact (FixedWriter.emits_eq_ok_iff (hemits hfit)).mpr hbody

/-! ## How much room there is to be -/

/-- The size of a string without its quotes. -/
def escapedSize (s : Bytes) : ℕ := (s.flatMap escape).length

def rowSize (rec : Record) : ℕ :=
  127 + rec.kind.toString.length + escapedSize rec.id + escapedSize rec.name +
    escapedSize rec.agentId + escapedSize rec.sessionId +
    (Digits.decimal rec.heartbeatIntervalMs.toNat).length +
    (Digits.decimalInt rec.connectedAtNs).length +
    (Digits.decimalInt rec.lastHeartbeatAtNs).length

/-- The rows, each with a comma behind it. -/
def rowsSize : List Record → ℕ
  | [] => 0
  | rec :: rows => rowSize rec + 1 + rowsSize rows

/-- The last row has no comma behind it. -/
def listSize (rows : List Record) : ℕ := 16 + (rowsSize rows - 1)

theorem length_write_string (s : Bytes) : (Token.string s).write.length = escapedSize s + 2 := by
  simp [Token.write, escapedSize]

theorem length_write_outputTree (src : Bytes) :
    (write (outputTree src).tokens).length = escapedSize src + 13 := by
  have hfront : (ascii "\x7b\"output\":").length = 10 := by decide
  have hend : (ascii "\x7d").length = 1 := by decide
  rw [write_outputTree, List.length_append, List.length_append, length_write_string, hfront, hend]
  omega

theorem length_times (rec : Record) :
    (times rec).length = 69 + (Digits.decimal rec.heartbeatIntervalMs.toNat).length +
      (Digits.decimalInt rec.connectedAtNs).length +
      (Digits.decimalInt rec.lastHeartbeatAtNs).length := by
  have hheartbeat : (ascii ",\"heartbeat_interval_ms\":").length = 25 := by decide
  have hconnected : (ascii ",\"connected_at_ns\":").length = 19 := by decide
  have hlast : (ascii ",\"last_heartbeat_at_ns\":").length = 24 := by decide
  have hend : (ascii "\x7d").length = 1 := by decide
  simp only [times, List.length_append, hheartbeat, hconnected, hlast, hend]
  omega

theorem length_write_rowTree (rec : Record) :
    (write (rowTree rec).tokens).length = rowSize rec := by
  have hid : (ascii "\x7b\"id\":").length = 6 := by decide
  have hkind : (ascii ",\"kind\":\"").length = 9 := by decide
  have hname : (ascii "\",\"name\":").length = 9 := by decide
  have hagent : (ascii ",\"agent_id\":").length = 12 := by decide
  have hsession : (ascii ",\"session_id\":").length = 14 := by decide
  rw [write_rowTree, rowSize]
  simp only [List.length_append, length_write_string, length_times, hid, hkind, hname, hagent,
    hsession]
  omega

theorem length_write_moreElemTokens (rows : List Record) :
    (write (Tree.moreElemTokens (rows.map rowTree))).length = rowsSize rows := by
  induction rows with
  | nil => rfl
  | cons rec rows ih =>
    rw [List.map_cons, Tree.moreElemTokens, Json.write_cons, write_append, List.length_append,
      List.length_append, length_write_rowTree, ih, rowsSize]
    have hcomma : Token.comma.write.length = 1 := rfl
    omega

theorem length_write_rowsTree (rows : List Record) :
    (write (rowsTree rows).tokens).length = listSize rows := by
  have hfront : (ascii "\x7b\"instances\":[").length = 14 := by decide
  have hend : (ascii "]\x7d").length = 2 := by decide
  have hrows : (write (Tree.elemTokens (rows.map rowTree))).length = rowsSize rows - 1 := by
    cases rows with
    | nil => rfl
    | cons rec rows =>
      rw [List.map_cons, Tree.elemTokens, write_append, List.length_append, length_write_rowTree,
        length_write_moreElemTokens, rowsSize]
      omega
  rw [write_rowsTree, List.length_append, List.length_append, hrows, hfront, hend, listSize]
  omega

theorem rowsSize_perm {rows rows' : List Record} (h : rows.Perm rows') :
    rowsSize rows = rowsSize rows' := by
  induction h with
  | nil => rfl
  | cons rec _ ih => rw [rowsSize, rowsSize, ih]
  | swap rec rec' rows =>
    simp only [rowsSize]
    omega
  | trans _ _ ih ih' => exact ih.trans ih'

/-! ## The output -/

/-- The answer is a document with the output, or with the beginning of one over the budget. -/
def RendersOutput (output : Bytes) (r : Response) : Prop :=
  r.status = .ok ∧ ∃ text, Tree.parse true r.body = some (outputTree text) ∧ text <+: output ∧
    (output.length ≤ budget → text = output)

/-- The escaped text fits, and no character is cut. -/
def OutputFits (output : Bytes) : Prop :=
  escapedSize (cut output) + 13 ≤ bodyLen ∧
    (budget < output.length → utf8Valid (output.take budget) = true)

theorem parse_outputTree {src : Bytes} (h : utf8Valid src = true) :
    Tree.parse true (write (outputTree src).tokens) = some (outputTree src) := by
  have hlegible : (outputTree src).Legible :=
    Tree.legible_object.mpr (by simpa [Tree.Legible, Tree.tokens, Token.Writable] using
      ⟨(by decide : utf8Valid (ascii "output") = true), h⟩)
  exact Tree.parse_true_eq_some.mpr ⟨Tree.parse_write_tokens hlegible,
    Tree.distinct_object.mpr (by simp [Tree.Distinct])⟩

/-- What is rendered with a character cut is not read. -/
theorem parse_outputTree_eq_none {src : Bytes} (h : utf8Valid src = false) :
    Tree.parse true (write (outputTree src).tokens) = none := by
  have hnumber : ∀ t ∈ (outputTree src).tokens, ¬ t.isNumber := by
    simp [outputTree, Tree.tokens, Tree.memberTokens, Tree.moreMemberTokens, Token.isNumber]
  have hmem : Token.string src ∈ (outputTree src).tokens := by
    simp [outputTree, Tree.tokens, Tree.memberTokens]
  rw [Tree.parse, Json.lex, Json.scan_write_eq_none hnumber hmem h]
  rfl

theorem utf8Valid_cut_iff {output : Bytes} (hvalid : utf8Valid output = true) :
    utf8Valid (cut output) = true ↔
      (budget < output.length → utf8Valid (output.take budget) = true) := by
  unfold cut
  split_ifs with h
  · rw [imp_iff_right h]
  · exact iff_of_true hvalid fun hlt => absurd hlt h

theorem cut_prefix (output : Bytes) : cut output <+: output := by
  unfold cut
  split_ifs
  · exact List.take_prefix _ _
  · exact List.prefix_refl _

/-- What an output is answered with. -/
theorem renderJsonFromOutput_eq (output : Bytes) :
    renderJsonFromOutput output =
      if escapedSize (cut output) + 13 ≤ bodyLen then
        jsonOk (write (outputTree (cut output)).tokens)
      else { status := .internalServerError, body := ascii "render failed\n" } := by
  unfold renderJsonFromOutput
  rw [emits_writeOutput (cut output) [] (Nat.zero_le _), FixedWriter.writeAll, List.length_nil,
    Nat.zero_add, length_write_outputTree, List.nil_append]
  split_ifs <;> rfl

/-- **An output is answered in full** exactly where it fits and no character is cut. -/
theorem rendersOutput_iff {output : Bytes} (hvalid : utf8Valid output = true) :
    RendersOutput output (renderJsonFromOutput output) ↔ OutputFits output := by
  rw [renderJsonFromOutput_eq]
  unfold OutputFits
  rw [← utf8Valid_cut_iff hvalid]
  by_cases hfit : escapedSize (cut output) + 13 ≤ bodyLen
  · rw [if_pos hfit, and_iff_right hfit]
    constructor
    · rintro ⟨-, text, hparse, -⟩
      by_contra hcut
      have hnone := parse_outputTree_eq_none (Bool.eq_false_iff.mpr hcut)
      exact Option.some_ne_none _ (hparse.symm.trans hnone)
    · intro hcut
      refine ⟨rfl, cut output, parse_outputTree hcut, cut_prefix output, fun hle => ?_⟩
      exact if_neg (not_lt.mpr hle)
  · rw [if_neg hfit]
    exact iff_of_false (fun h => by cases h.1) fun h => hfit h.1

/-! ## The rows -/

/-- The answer is a document with the live rows in the order of their connections. -/
def ListsRows (table : Table) (r : Outcome DispatchError Response) : Prop :=
  ∃ response rows, r = .ok response ∧ response.status = .ok ∧ rows.Perm (live table) ∧
    rows.Pairwise (fun a b => a.connectedAtNs ≤ b.connectedAtNs) ∧
    Tree.parse true response.body = some (rowsTree rows)

/-- The texts of a row are in UTF-8, and its times in range. -/
def Shown (rec : Record) : Prop :=
  TimesFit rec ∧ ∀ s ∈ [rec.id, rec.name, rec.agentId, rec.sessionId], utf8Valid s = true

def RowsFit (table : Table) : Prop :=
  (∀ rec ∈ live table, Shown rec) ∧ listSize (live table) ≤ bodyLen

theorem legible_rowTree {rec : Record} :
    (rowTree rec).Legible ↔
      ∀ s ∈ [rec.id, rec.name, rec.agentId, rec.sessionId], utf8Valid s = true := by
  have hkeys : utf8Valid (ascii "id") = true ∧ utf8Valid (ascii "kind") = true ∧
      utf8Valid (ascii "name") = true ∧ utf8Valid (ascii "agent_id") = true ∧
      utf8Valid (ascii "session_id") = true ∧
      utf8Valid (ascii "heartbeat_interval_ms") = true ∧
      utf8Valid (ascii "connected_at_ns") = true ∧
      utf8Valid (ascii "last_heartbeat_at_ns") = true := by decide
  have hkind : utf8Valid rec.kind.toString = true := by cases rec.kind <;> decide
  have hheartbeat : (Token.number (Digits.decimal rec.heartbeatIntervalMs.toNat)).Writable :=
    Json.writable_decimalInt (.ofNat _)
  have hconnected := Json.writable_decimalInt rec.connectedAtNs
  have hlast := Json.writable_decimalInt rec.lastHeartbeatAtNs
  have hstring : ∀ s, (Tree.string s).Legible ↔ utf8Valid s = true := fun s =>
    List.forall_mem_singleton
  have hnumber : ∀ s, (Tree.number s).Legible ↔ (Token.number s).Writable := fun s =>
    List.forall_mem_singleton
  rw [rowTree, Tree.legible_object]
  simp only [List.forall_mem_cons, hstring, hnumber, hkeys, hkind, hheartbeat, hconnected, hlast,
    true_and, List.not_mem_nil, false_imp_iff, implies_true, and_true]

theorem distinct_rowTree (rec : Record) : (rowTree rec).Distinct := by
  rw [rowTree, Tree.distinct_object]
  simp only [List.forall_mem_cons, List.map_cons, List.map_nil, Tree.Distinct]
  exact ⟨by decide, by simp⟩

theorem legible_rowsTree {rows : List Record} :
    (rowsTree rows).Legible ↔ ∀ rec ∈ rows, (rowTree rec).Legible := by
  have hkey : utf8Valid (ascii "instances") = true := by decide
  rw [rowsTree, Tree.legible_object, List.forall_mem_singleton, and_iff_right hkey,
    Tree.legible_array, List.forall_mem_map]

theorem distinct_rowsTree (rows : List Record) : (rowsTree rows).Distinct := by
  rw [rowsTree, Tree.distinct_object, List.forall_mem_singleton, Tree.distinct_array,
    List.forall_mem_map]
  exact ⟨by simp, fun rec _ => distinct_rowTree rec⟩

theorem listLive_perm (table : Table) : (listLive table).Perm (live table) :=
  List.mergeSort_perm _ _

theorem listLive_pairwise (table : Table) :
    (listLive table).Pairwise fun a b => a.connectedAtNs ≤ b.connectedAtNs := by
  have htrans : ∀ a b c : Record, decide (a.connectedAtNs ≤ b.connectedAtNs) = true →
      decide (b.connectedAtNs ≤ c.connectedAtNs) = true →
        decide (a.connectedAtNs ≤ c.connectedAtNs) = true := by
    intro a b c hab hbc
    rw [decide_eq_true_iff] at hab hbc ⊢
    exact Int.le_trans hab hbc
  have htotal : ∀ a b : Record, (decide (a.connectedAtNs ≤ b.connectedAtNs) ||
      decide (b.connectedAtNs ≤ a.connectedAtNs)) = true := by
    intro a b
    rw [Bool.or_eq_true, decide_eq_true_iff, decide_eq_true_iff]
    exact Int.le_total _ _
  exact (List.pairwise_mergeSort htrans htotal (live table)).imp fun h => decide_eq_true_iff.mp h

/-- **The rows are answered in full** exactly where they fit. -/
theorem listsRows_iff (table : Table) :
    ListsRows table (instancesListHandler table) ↔ RowsFit table := by
  have hperm := listLive_perm table
  have hsize : listSize (listLive table) = listSize (live table) := by
    rw [listSize, listSize, rowsSize_perm hperm]
  have hmem : ∀ {P : Record → Prop}, (∀ rec ∈ listLive table, P rec) ↔
      ∀ rec ∈ live table, P rec := by
    intro P
    exact forall_congr' fun rec => by rw [hperm.mem_iff]
  unfold instancesListHandler
  constructor
  · rintro ⟨response, rows, hresponse, -, hrows, -, hparse⟩
    obtain ⟨body, hbody, hresponse⟩ := Outcome.bind_eq_ok.mp hresponse
    obtain rfl := Outcome.ok.inj hresponse
    obtain ⟨htimes, hfit, -⟩ := writeList_eq_ok_iff.mp (Outcome.catchAs_eq_ok.mp hbody)
    rw [length_write_rowsTree, hsize] at hfit
    have hlegible := legible_rowsTree.mp
      (Tree.legible_of_parse (Tree.parse_true_eq_some.mp hparse).1)
    refine ⟨fun rec hrec => ⟨hmem.mp htimes rec hrec, ?_⟩, hfit⟩
    exact legible_rowTree.mp (hlegible rec (hrows.mem_iff.mpr hrec))
  · rintro ⟨hshown, hfit⟩
    have hbody : writeList (listLive table) [] =
        .ok (write (rowsTree (listLive table)).tokens) := by
      refine writeList_eq_ok_iff.mpr ⟨hmem.mpr fun rec hrec => (hshown rec hrec).1, ?_, rfl⟩
      rw [length_write_rowsTree, hsize]
      exact hfit
    have hlegible : (rowsTree (listLive table)).Legible :=
      legible_rowsTree.mpr (hmem.mpr fun rec hrec => legible_rowTree.mpr (hshown rec hrec).2)
    refine ⟨jsonOk (write (rowsTree (listLive table)).tokens), listLive table, ?_, rfl, hperm,
      listLive_pairwise table, ?_⟩
    · rw [hbody]
      rfl
    · exact Tree.parse_true_eq_some.mpr ⟨Tree.parse_write_tokens hlegible, distinct_rowsTree _⟩

/-- **The bodies are complete** exactly where they fit the buffer: an output with its characters
escaped, and cut between two of them; the rows with their texts escaped. -/
theorem bodies_complete_iff {output : Bytes} (hvalid : utf8Valid output = true) (table : Table) :
    (RendersOutput output (renderJsonFromOutput output) ↔ OutputFits output) ∧
      (ListsRows table (instancesListHandler table) ↔ RowsFit table) :=
  ⟨rendersOutput_iff hvalid, listsRows_iff table⟩

/-- A greeting fits, and so does no row. -/
theorem bodies_complete_greeting :
    utf8Valid (ascii "hi") = true ∧
      RendersOutput (ascii "hi") (renderJsonFromOutput (ascii "hi")) ∧
      ListsRows [] (instancesListHandler []) := by
  have hvalid : utf8Valid (ascii "hi") = true := by decide
  have hcut : cut (ascii "hi") = ascii "hi" := by decide
  have hiff := bodies_complete_iff hvalid []
  refine ⟨hvalid, hiff.1.mpr ⟨?_, fun hlong => ?_⟩, hiff.2.mpr ⟨?_, ?_⟩⟩
  · rw [hcut]
    decide
  · exact absurd hlong (by decide)
  · exact fun rec hrec => absurd hrec List.not_mem_nil
  · decide

/-- Three thousand control characters are below the budget; escaped, each of them takes six
bytes. -/
theorem control_characters_outgrow :
    utf8Valid (List.replicate 3000 0x01) = true ∧
      (renderJsonFromOutput (List.replicate 3000 0x01)).status = .internalServerError ∧
      ¬ RendersOutput (List.replicate 3000 0x01)
        (renderJsonFromOutput (List.replicate 3000 0x01)) := by
  have hrun : ∀ n, StepMachine.run Json.Utf8.step .start (List.replicate n 0x01) =
      some .start := by
    intro n
    induction n with
    | zero => rfl
    | succ n ih => exact ih
  have hsize : ∀ n, escapedSize (List.replicate n 0x01) = n * 6 := by
    intro n
    induction n with
    | zero => rfl
    | succ n ih =>
      have hone : (escape 0x01).length = 6 := by decide
      rw [escapedSize, List.replicate_succ, List.flatMap_cons, List.length_append, hone,
        ← escapedSize, ih]
      omega
  have hcut : cut (List.replicate 3000 0x01) = List.replicate 3000 0x01 := by
    rw [cut, List.length_replicate, if_neg (by decide)]
  have hstatus : (renderJsonFromOutput (List.replicate 3000 0x01)).status =
      .internalServerError := by
    rw [renderJsonFromOutput_eq, hcut, hsize, if_neg (by decide)]
  refine ⟨?_, hstatus, fun h => ?_⟩
  · rw [utf8Valid, hrun]
    rfl
  · exact absurd (hstatus.symm.trans h.1) (by decide)

end Render
end Gateway
end TigerClaw
