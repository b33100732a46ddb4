import TigerClaw.Library.Service
import TigerClaw.Vcr.Cassette

/-!
# Recording and replaying

* `Recorder`: writes a header and then interactions, a line each.
* `replayFromBytes`: the cassette that the lines are.
* `Cassette.find`: the first response that has not been served and whose request matches.
* `find_recorded`: asked for the recorded requests in their order, it serves every response once.
* `record_replay`: so it does after a round trip through the file.
-/

namespace TigerClaw
namespace Vcr

/-! ## The recorder -/

inductive RecorderError where
  | headerNotWritten
  | headerAlreadyWritten

structure Recorder where
  out : Bytes := []
  headerWritten : Bool := false

def Recorder.writeHeader (self : Recorder) (header : Header) : Except RecorderError Recorder :=
  if self.headerWritten then .error .headerAlreadyWritten
  else .ok { out := self.out ++ header.line ++ [0x0A], headerWritten := true }

def Recorder.writeInteraction (self : Recorder) (interaction : Interaction) :
    Except RecorderError Recorder :=
  if !self.headerWritten then .error .headerNotWritten
  else .ok { self with out := self.out ++ interaction.line ++ [0x0A] }

/-- What a new recorder has written after a header and a list of interactions. -/
def record (header : Header) (interactions : List Interaction) : Except RecorderError Bytes := do
  let recorder ← Recorder.writeHeader {} header
  let recorder ← interactions.foldlM Recorder.writeInteraction recorder
  .ok recorder.out

/-! ## The matcher -/

structure Policy where
  method : Bool := true
  url : Bool := true
  body : Bool := true

def matchBody : Option Bytes → Option Bytes → Bool
  | none, none => true
  | some a, some b => a == b
  | _, _ => false

/-- `matches`. -/
def matchRequest (policy : Policy) (live recorded : Request) : Bool :=
  if policy.method && live.method != recorded.method then false
  else if policy.url && live.url != recorded.url then false
  else if policy.body then matchBody live.body recorded.body
  else true

/-- A request matches itself. -/
@[simp] theorem matchRequest_self (policy : Policy) (request : Request) :
    matchRequest policy request request = true := by
  have hbody : ∀ body, matchBody body body = true := by
    intro body
    cases body with
    | none => rfl
    | some s => exact beq_self_eq_true s
  rw [matchRequest, bne_self_eq_false, bne_self_eq_false, Bool.and_false, Bool.and_false,
    if_neg Bool.false_ne_true, if_neg Bool.false_ne_true, hbody, ite_self]

/-! ## The replayer -/

inductive ReplayError where
  | emptyCassette
  | unsupportedFormat
  | invalidJson

/-- An interaction, and whether it has been served. -/
structure Entry where
  interaction : Interaction
  consumed : Bool := false

structure Cassette where
  header : Header
  entries : List Entry

namespace Cassette

/-- The loop of `find`. -/
def findIn (policy : Policy) (request : Request) : List Entry → Option (Response × List Entry)
  | [] => none
  | e :: es =>
    if e.consumed then (findIn policy request es).map fun found => (found.1, e :: found.2)
    else if !matchRequest policy request e.interaction.request then
      (findIn policy request es).map fun found => (found.1, e :: found.2)
    else some (e.interaction.response, { e with consumed := true } :: es)

def find (self : Cassette) (policy : Policy) (request : Request) : Option Response × Cassette :=
  ((findIn policy request self.entries).map Prod.fst,
    { self with entries := ((findIn policy request self.entries).map Prod.snd).getD self.entries })

/-- Several requests, one after the other, each with its policy. -/
def findAll (self : Cassette) (requests : List (Policy × Request)) :
    List (Option Response) × Cassette :=
  Service.answers (fun self req => self.find req.1 req.2) self requests

end Cassette

/-- `nextNonEmpty`: the line, and the lines behind it. -/
def nextNonEmpty : List Bytes → Option (Bytes × List Bytes)
  | [] => none
  | line :: lines => if line.length > 0 then some (line, lines) else nextNonEmpty lines

section

variable (floatInt : Bytes → Option ℤ)

/-- The loop over the lines behind the header; an empty one is skipped. -/
def parseInteractions : List Bytes → Except ReplayError (List Interaction)
  | [] => .ok []
  | line :: lines =>
    if line.length > 0 then
      match Interaction.parse floatInt line with
      | none => .error .invalidJson
      | some i => (parseInteractions lines).map (i :: ·)
    else parseInteractions lines

def replayFromBytes (bytes : Bytes) : Except ReplayError Cassette :=
  match nextNonEmpty (bytes.splitOn 0x0A) with
  | none => .error .emptyCassette
  | some (headerLine, lines) =>
    match Header.parse floatInt headerLine with
    | none => .error .invalidJson
    | some header =>
      if !checkFormat header then .error .unsupportedFormat
      else (parseInteractions floatInt lines).map fun interactions =>
        { header, entries := interactions.map fun i => { interaction := i } }

end

/-! ## The file -/

variable {floatInt : Bytes → Option ℤ}

theorem foldlM_writeInteraction (interactions : List Interaction) (out : Bytes) :
    interactions.foldlM Recorder.writeInteraction { out, headerWritten := true } =
      .ok
        { out := out ++ interactions.flatMap fun i => i.line ++ [0x0A]
          headerWritten := true } := by
  induction interactions generalizing out with
  | nil => rw [List.flatMap_nil, List.append_nil, List.foldlM_nil]; rfl
  | cons i interactions ih =>
    have hwrite : Recorder.writeInteraction { out, headerWritten := true } i =
        .ok { out := out ++ i.line ++ [0x0A], headerWritten := true } := rfl
    rw [List.foldlM_cons, hwrite]
    refine (ih _).trans ?_
    rw [List.flatMap_cons, List.append_assoc, List.append_assoc, List.append_assoc]

/-- **What is written**: the header's line, and a line for every interaction. -/
theorem record_eq (header : Header) (interactions : List Interaction) :
    record header interactions =
      .ok (header.line ++ [0x0A] ++ interactions.flatMap fun i => i.line ++ [0x0A]) := by
  have hheader : Recorder.writeHeader {} header =
      .ok { out := header.line ++ [0x0A], headerWritten := true } := rfl
  rw [record, hheader]
  refine (congrArg (· >>= fun recorder => .ok recorder.out) (foldlM_writeInteraction _ _)).trans ?_
  rfl

theorem parseInteractions_lines (interactions : List Interaction) :
    parseInteractions floatInt ((interactions.flatMap fun i => i.line ++ [0x0A]).splitOn 0x0A) =
      .ok interactions := by
  induction interactions with
  | nil => rfl
  | cons i interactions ih =>
    have hpos : i.line.length > 0 := List.length_pos_iff.mpr i.line_ne_nil
    rw [List.flatMap_cons, List.append_assoc, List.singleton_append,
      List.splitOn_append_cons_self_of_not_mem i.lineFeed_notMem, parseInteractions, if_pos hpos,
      i.parse_line, ih]
    rfl

/-- **The bytes of a cassette are read as its header and its interactions**, if the version is the
supported one. -/
theorem replayFromBytes_record {header : Header} (hversion : header.formatVersion = formatVersion)
    (interactions : List Interaction) :
    replayFromBytes floatInt
        (header.line ++ [0x0A] ++ interactions.flatMap fun i => i.line ++ [0x0A]) =
      .ok { header, entries := interactions.map fun i => { interaction := i } } := by
  have hpos : header.line.length > 0 := List.length_pos_iff.mpr header.line_ne_nil
  have hcheck : checkFormat header = true := decide_eq_true hversion
  rw [replayFromBytes, List.append_assoc, List.singleton_append,
    List.splitOn_append_cons_self_of_not_mem header.lineFeed_notMem, nextNonEmpty, if_pos hpos]
  simp only [header.parse_line, hcheck, Bool.not_true, Bool.false_eq_true, if_false,
    parseInteractions_lines]
  rfl

/-! ## The requests in their order -/

/-- An interaction that has been served. -/
def served (i : Interaction) : Entry := { interaction := i, consumed := true }

/-- An interaction that has not. -/
def unserved (i : Interaction) : Entry := { interaction := i }

namespace Cassette

/-- Served entries are passed over. -/
theorem findIn_served (policy : Policy) (request : Request) (before : List Interaction)
    (entries : List Entry) :
    findIn policy request (before.map served ++ entries) =
      (findIn policy request entries).map fun found => (found.1, before.map served ++ found.2) := by
  induction before with
  | nil =>
    rw [List.map_nil]
    exact Option.map_id'.symm
  | cons i before ih =>
    have hconsumed : (served i).consumed = true := rfl
    rw [List.map_cons, List.cons_append, findIn, if_pos hconsumed, ih, Option.map_map]
    rfl

/-- With the earlier interactions served, the next one answers its own request, whatever the later
ones are. -/
theorem find_next (header : Header) (policy : Policy) (before after : List Interaction)
    (i : Interaction) :
    find ⟨header, before.map served ++ (i :: after).map unserved⟩ policy i.request =
      (some i.response, ⟨header, (before ++ [i]).map served ++ after.map unserved⟩) := by
  have hself : findIn policy i.request ((i :: after).map unserved) =
      some (i.response, served i :: after.map unserved) := by
    simp only [List.map_cons, findIn, unserved, matchRequest_self, Bool.not_true,
      Bool.false_eq_true, if_false, served]
  rw [find, findIn_served, hself]
  simp only [Option.map_some, Option.getD_some, List.map_append, List.map_cons, List.map_nil,
    List.append_assoc, List.singleton_append]

/-- Nothing is left when every entry is served. -/
theorem find_exhausted (header : Header) (interactions : List Interaction) (policy : Policy)
    (request : Request) :
    find ⟨header, interactions.map served⟩ policy request =
      (none, ⟨header, interactions.map served⟩) := by
  have hnone : findIn policy request (interactions.map served) = none := by
    have happend := findIn_served policy request interactions []
    rwa [List.append_nil] at happend
  rw [find, hnone, Option.map_none, Option.map_none, Option.getD_none]

/-- **Asked for the recorded requests in their order, a cassette serves every response once**, also
where several requests match, and whatever the policy of each `find` is. -/
theorem find_recorded (header : Header) (policy : ℕ → Policy) (before after : List Interaction) :
    findAll ⟨header, before.map served ++ after.map unserved⟩
        (after.mapIdx fun n i => (policy n, i.request)) =
      (after.map fun i => some i.response, ⟨header, (before ++ after).map served⟩) := by
  induction after generalizing before policy with
  | nil =>
    rw [List.mapIdx_nil, List.map_nil, List.append_nil, List.append_nil]
    rfl
  | cons i after ih =>
    have hrest := ih (fun n => policy (n + 1)) (before ++ [i])
    rw [List.append_assoc, List.singleton_append] at hrest
    rw [List.mapIdx_cons, findAll, Service.answers_cons, find_next]
    rw [findAll] at hrest
    rw [hrest, List.map_cons]

end Cassette

/-- **Recording and replaying.**  What the recorder has written is read back as the same header and
the same interactions; and the cassette serves the recorded responses to the recorded requests, one
each and in order, and then nothing more. -/
theorem record_replay {header : Header} (hversion : header.formatVersion = formatVersion)
    (interactions : List Interaction) :
    ∃ bytes cassette, record header interactions = .ok bytes ∧
      replayFromBytes floatInt bytes = .ok cassette ∧ cassette.header = header ∧
      cassette.entries.map Entry.interaction = interactions ∧
      ∀ policy : ℕ → Policy, ∃ after,
        cassette.findAll (interactions.mapIdx fun n i => (policy n, i.request)) =
          (interactions.map fun i => some i.response, after) ∧
        ∀ policy request, after.find policy request = (none, after) := by
  refine ⟨_, _, record_eq header interactions, replayFromBytes_record hversion interactions, rfl,
    ?_, fun policy => ⟨⟨header, interactions.map served⟩, ?_, ?_⟩⟩
  · rw [List.map_map]
    exact List.map_id' interactions
  · exact Cassette.find_recorded header policy [] interactions
  · exact Cassette.find_exhausted header interactions

/-- Two interactions with the same request. -/
theorem record_replay_twice :
    let header : Header := { cassetteId := ascii "c", createdAtNs := 0 }
    let request : Request := { method := ascii "GET", url := ascii "/x" }
    let interactions : List Interaction :=
      [⟨request, ⟨200, ascii "first"⟩⟩, ⟨request, ⟨200, ascii "second"⟩⟩]
    header.formatVersion = formatVersion ∧
    ∃ bytes cassette, record header interactions = .ok bytes ∧
      replayFromBytes (fun _ => none) bytes = .ok cassette ∧ cassette.header = header ∧
      cassette.entries.map Entry.interaction = interactions ∧
      ∀ policy : ℕ → Policy, ∃ after,
        cassette.findAll (interactions.mapIdx fun n i => (policy n, i.request)) =
          (interactions.map fun i => some i.response, after) ∧
        ∀ policy request, after.find policy request = (none, after) :=
  ⟨rfl, record_replay rfl _⟩

end Vcr
end TigerClaw
