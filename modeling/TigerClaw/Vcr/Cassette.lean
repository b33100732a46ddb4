import TigerClaw.Basic
import TigerClaw.Library.Json.Typed

/-!
# Cassettes

The records of a cassette file and their lines.

* `Header`, `Interaction`: the records, with the documents that `std.json` makes of them.
* `Header.parse`, `Interaction.parse`: a line as a record.  A field that is unknown, missing or
  there twice is refused.
* `Header.parse_line`, `Interaction.parse_line`: a line that was written is read as its record.
-/

namespace TigerClaw
namespace Vcr

open Json (Tree)

def formatVersion : UInt16 := 1

structure Header where
  formatVersion : UInt16 := Vcr.formatVersion
  cassetteId : Bytes
  /-- An `i128`. -/
  createdAtNs : BitVec 128

structure Request where
  method : Bytes
  url : Bytes
  body : Option Bytes := none

structure Response where
  status : UInt16
  body : Bytes

structure Interaction where
  request : Request
  response : Response

/-- `checkFormat`. -/
def checkFormat (header : Header) : Bool := header.formatVersion = formatVersion

/-! ## Records as documents -/

def Header.fields (self : Header) : List (Bytes × Tree) :=
  [(ascii "format_version", .ofInt self.formatVersion.toNat),
    (ascii "cassette_id", .ofBytes self.cassetteId),
    (ascii "created_at_ns", .ofInt self.createdAtNs.toInt)]

def Request.fields (self : Request) : List (Bytes × Tree) :=
  [(ascii "method", .ofBytes self.method), (ascii "url", .ofBytes self.url),
    (ascii "body", .ofOptional (self.body.map .ofBytes))]

def Response.fields (self : Response) : List (Bytes × Tree) :=
  [(ascii "status", .ofInt self.status.toNat), (ascii "body", .ofBytes self.body)]

def Interaction.fields (self : Interaction) : List (Bytes × Tree) :=
  [(ascii "request", .object self.request.fields), (ascii "response", .object self.response.fields)]

/-- `std.json.Stringify.value(header, .{}, out)`. -/
def Header.line (self : Header) : Bytes := Json.write (Tree.tokens (.object self.fields))

/-- `std.json.Stringify.value(interaction, .{}, out)`. -/
def Interaction.line (self : Interaction) : Bytes := Json.write (Tree.tokens (.object self.fields))

/-! ## Documents as records -/

/-- The fields of a struct, none of which may be unknown. -/
def structFields (known : List Bytes) : Tree → Option (List (Bytes × Tree))
  | .object fields => if fields.all fun field => known.contains field.1 then some fields else none
  | _ => none

section

-- how a number is read that is not written like an integer
variable (floatInt : Bytes → Option ℤ)

def Header.ofTree (v : Tree) : Option Header := do
  let fields ← structFields [ascii "format_version", ascii "cassette_id", ascii "created_at_ns"] v
  let version ← (← Tree.once fields (ascii "format_version")).elim
    (some (Vcr.formatVersion.toNat : ℤ)) (Tree.int? floatInt 0 (2 ^ 16 - 1))
  let cassetteId ← (← Tree.required fields (ascii "cassette_id")).bytes? floatInt
  let createdAtNs ← (← Tree.required fields (ascii "created_at_ns")).int? floatInt (-2 ^ 127)
    (2 ^ 127 - 1)
  some { formatVersion := UInt16.ofNat version.toNat, cassetteId
         createdAtNs := BitVec.ofInt 128 createdAtNs }

def Request.ofTree (v : Tree) : Option Request := do
  let fields ← structFields [ascii "method", ascii "url", ascii "body"] v
  let method ← (← Tree.required fields (ascii "method")).bytes? floatInt
  let url ← (← Tree.required fields (ascii "url")).bytes? floatInt
  let body ← (← Tree.once fields (ascii "body")).elim (some none)
    (Tree.optional? (Tree.bytes? floatInt))
  some { method, url, body }

def Response.ofTree (v : Tree) : Option Response := do
  let fields ← structFields [ascii "status", ascii "body"] v
  let status ← (← Tree.required fields (ascii "status")).int? floatInt 0 (2 ^ 16 - 1)
  let body ← (← Tree.required fields (ascii "body")).bytes? floatInt
  some { status := UInt16.ofNat status.toNat, body }

def Interaction.ofTree (v : Tree) : Option Interaction := do
  let fields ← structFields [ascii "request", ascii "response"] v
  let request ← Request.ofTree floatInt (← Tree.required fields (ascii "request"))
  let response ← Response.ofTree floatInt (← Tree.required fields (ascii "response"))
  some { request, response }

/-- `std.json.parseFromSliceLeaky(Header, a, line, .{})`. -/
def Header.parse (line : Bytes) : Option Header := (Tree.parse false line).bind (ofTree floatInt)

/-- `std.json.parseFromSliceLeaky(Interaction, a, line, .{})`. -/
def Interaction.parse (line : Bytes) : Option Interaction :=
  (Tree.parse false line).bind (ofTree floatInt)

end

/-! ## What is written is read -/

variable {floatInt : Bytes → Option ℤ}

theorem Header.ofTree_fields (header : Header) :
    ofTree floatInt (.object header.fields) = some header := by
  have hfields : structFields [ascii "format_version", ascii "cassette_id",
    ascii "created_at_ns"] (.object header.fields) = some header.fields := rfl
  have hversion : Tree.once header.fields (ascii "format_version") =
    some (some (.ofInt header.formatVersion.toNat)) := rfl
  have hid : Tree.required header.fields (ascii "cassette_id") =
    some (.ofBytes header.cassetteId) := rfl
  have hcreated : Tree.required header.fields (ascii "created_at_ns") =
    some (.ofInt header.createdAtNs.toInt) := rfl
  have hversion_lt := header.formatVersion.toNat_lt
  have hlo := BitVec.le_toInt header.createdAtNs
  have hhi := BitVec.toInt_lt (x := header.createdAtNs)
  simp only [ofTree, hfields, hversion, hid, hcreated, Option.bind_eq_bind, Option.bind_some,
    Option.elim_some, Tree.bytes?_ofBytes]
  rw [Tree.int?_ofInt (by omega) (by omega), Option.bind_some,
    Tree.int?_ofInt (by omega) (by omega), Option.bind_some, Int.toNat_natCast,
    UInt16.ofNat_toNat, BitVec.ofInt_toInt]

theorem Request.ofTree_fields (request : Request) :
    ofTree floatInt (.object request.fields) = some request := by
  have hfields : structFields [ascii "method", ascii "url", ascii "body"]
    (.object request.fields) = some request.fields := rfl
  have hmethod : Tree.required request.fields (ascii "method") = some (.ofBytes request.method) :=
    rfl
  have hurl : Tree.required request.fields (ascii "url") = some (.ofBytes request.url) := rfl
  have hbody : Tree.once request.fields (ascii "body") =
    some (some (.ofOptional (request.body.map .ofBytes))) := rfl
  simp only [ofTree, hfields, hmethod, hurl, hbody, Option.bind_eq_bind, Option.bind_some,
    Option.elim_some, Tree.bytes?_ofBytes, Tree.optional?_bytes?_ofOptional]

theorem Response.ofTree_fields (response : Response) :
    ofTree floatInt (.object response.fields) = some response := by
  have hfields : structFields [ascii "status", ascii "body"]
    (.object response.fields) = some response.fields := rfl
  have hstatus : Tree.required response.fields (ascii "status") =
    some (.ofInt response.status.toNat) := rfl
  have hbody : Tree.required response.fields (ascii "body") = some (.ofBytes response.body) := rfl
  have hlt := response.status.toNat_lt
  simp only [ofTree, hfields, hstatus, hbody, Option.bind_eq_bind, Option.bind_some,
    Tree.bytes?_ofBytes]
  rw [Tree.int?_ofInt (by omega) (by omega), Option.bind_some, Int.toNat_natCast,
    UInt16.ofNat_toNat]

theorem Interaction.ofTree_fields (interaction : Interaction) :
    ofTree floatInt (.object interaction.fields) = some interaction := by
  have hfields : structFields [ascii "request", ascii "response"]
    (.object interaction.fields) = some interaction.fields := rfl
  have hrequest : Tree.required interaction.fields (ascii "request") =
    some (.object interaction.request.fields) := rfl
  have hresponse : Tree.required interaction.fields (ascii "response") =
    some (.object interaction.response.fields) := rfl
  simp only [ofTree, hfields, hrequest, hresponse, Option.bind_eq_bind, Option.bind_some,
    Request.ofTree_fields, Response.ofTree_fields]

theorem Header.tame (header : Header) : Tree.Tame (.object header.fields) := by
  refine Tree.tame_object ?_
  simp only [fields, List.forall_mem_cons, List.not_mem_nil, IsEmpty.forall_iff, implies_true,
    and_true]
  exact ⟨⟨by decide, Tree.tame_ofInt _⟩, ⟨by decide, Tree.tame_ofBytes _⟩, by decide,
    Tree.tame_ofInt _⟩

theorem Interaction.tame (interaction : Interaction) : Tree.Tame (.object interaction.fields) := by
  have hbody : (Tree.ofOptional (interaction.request.body.map .ofBytes)).Tame := by
    refine Tree.tame_ofOptional fun w hw => ?_
    obtain ⟨s, -, rfl⟩ := Option.map_eq_some_iff.mp hw
    exact Tree.tame_ofBytes s
  have hrequest : Tree.Tame (.object interaction.request.fields) := by
    refine Tree.tame_object ?_
    simp only [Request.fields, List.forall_mem_cons, List.not_mem_nil, IsEmpty.forall_iff,
      implies_true, and_true]
    exact ⟨⟨by decide, Tree.tame_ofBytes _⟩, ⟨by decide, Tree.tame_ofBytes _⟩, by decide, hbody⟩
  have hresponse : Tree.Tame (.object interaction.response.fields) := by
    refine Tree.tame_object ?_
    simp only [Response.fields, List.forall_mem_cons, List.not_mem_nil, IsEmpty.forall_iff,
      implies_true, and_true]
    exact ⟨⟨by decide, Tree.tame_ofInt _⟩, by decide, Tree.tame_ofBytes _⟩
  refine Tree.tame_object ?_
  simp only [fields, List.forall_mem_cons, List.not_mem_nil, IsEmpty.forall_iff, implies_true,
    and_true]
  exact ⟨⟨by decide, hrequest⟩, by decide, hresponse⟩

/-- **The header's line is read as the header.** -/
theorem Header.parse_line (header : Header) : parse floatInt header.line = some header := by
  rw [parse, line, header.tame.parse_write, Option.bind_some, ofTree_fields]

/-- **An interaction's line is read as the interaction**, whatever its bytes are. -/
theorem Interaction.parse_line (interaction : Interaction) :
    parse floatInt interaction.line = some interaction := by
  rw [parse, line, interaction.tame.parse_write, Option.bind_some, ofTree_fields]

/-- A line has no line feed in it. -/
theorem Header.lineFeed_notMem (header : Header) : 0x0A ∉ header.line :=
  header.tame.control_notMem (by decide)

theorem Interaction.lineFeed_notMem (interaction : Interaction) : 0x0A ∉ interaction.line :=
  interaction.tame.control_notMem (by decide)

theorem Header.line_ne_nil (header : Header) : header.line ≠ [] := by
  rw [line, Tree.tokens, Json.write_cons]
  exact List.append_ne_nil_of_left_ne_nil (List.cons_ne_nil _ _) _

theorem Interaction.line_ne_nil (interaction : Interaction) : interaction.line ≠ [] := by
  rw [line, Tree.tokens, Json.write_cons]
  exact List.append_ne_nil_of_left_ne_nil (List.cons_ne_nil _ _) _

end Vcr
end TigerClaw
