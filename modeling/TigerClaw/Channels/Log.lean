import TigerClaw.Channels.Outbox
import TigerClaw.Library.Json.Object
import TigerClaw.Library.LineLog

/-!
# The outbox on disk

One JSON object a line.  `append` writes the line and its newline in two positional writes at the
end of the file; `loadRecords` splits the file at the newlines and gives up at the first line that
does not parse.

* `Record.line`, `parseRecord`: a record as `std.json` writes it, and as it reads it.
* `recordCodec`: the two are the codec of a log of lines.
* `loadRecords_fileBytes`: the file of a list of records reads as that list, which is what
  `TigerClaw.Channels.Outbox` takes a file to be.
* `crash_safe_iff`: where a crash inside an append leaves a file that still reads.
-/

namespace TigerClaw
namespace Channels

open Json (Token)

/-! ## Writing a record -/

inductive Field where
  | id
  | conversationKey
  | threadKey
  | text
  | attempts
  | nextDueUnixMs
  | ack
  deriving DecidableEq

def Field.name : Field → Bytes
  | .id => ascii "id"
  | .conversationKey => ascii "conversation_key"
  | .threadKey => ascii "thread_key"
  | .text => ascii "text"
  | .attempts => ascii "attempts"
  | .nextDueUnixMs => ascii "next_due_unix_ms"
  | .ack => ascii "ack"

/-- An integer as it is printed. -/
def intToken (n : ℤ) : Token := .number (Digits.decimalInt n)

theorem isScalar_intToken (n : ℤ) : (intToken n).isScalar = true := Token.isScalar_number _

/-- `[]const u8`: a string if it is UTF-8, an array of numbers if not. -/
def sliceValue (s : Bytes) : Json.Value :=
  if Json.utf8Valid s then .scalar (.string s) (Token.isScalar_string s)
  else
    .array (s.map fun b => intToken b.toNat) fun t ht => by
      obtain ⟨b, -, rfl⟩ := List.mem_map.mp ht
      exact isScalar_intToken _
/-- `?[]const u8`. -/
def optionalValue : Option Bytes → Json.Value
  | none => .scalar .null Token.isScalar_null
  | some s => sliceValue s

/-- The fields of a record in the order of their declaration. -/
def Record.fields (self : Record) : List (Bytes × Json.Value) :=
  [(Field.id.name, sliceValue self.id),
    (Field.conversationKey.name, sliceValue self.conversationKey),
    (Field.threadKey.name, optionalValue self.threadKey),
    (Field.text.name, sliceValue self.text),
    (Field.attempts.name, .scalar (intToken self.attempts.toNat) (isScalar_intToken _)),
    (Field.nextDueUnixMs.name, .scalar (intToken self.nextDueUnixMs.toInt) (isScalar_intToken _)),
    (Field.ack.name, .scalar (.bool self.ack) (Token.isScalar_bool _))]

/-- `std.json.Stringify.valueAlloc(record)`. -/
def Record.line (self : Record) : Bytes := Json.write (Json.objectTokens self.fields)

/-! ## Reading a record -/

/-- The reading of a number that is not written as an integer, such as `1.0` or `1e3`: its value
as a binary floating-point number, if that is an integer. -/
abbrev FloatInt : Type := Bytes → Option ℤ

/-- `isNumberFormattedLikeAnInteger`. -/
def isNumberFormattedLikeAnInteger (s : Bytes) : Bool :=
  s ≠ ascii "-0" && !s.any fun b => b = 0x2E || b = 0x65 || b = 0x45

/-- `sliceToInt`, for a type with the range from `lo` to `hi`. -/
def sliceToInt (floatInt : FloatInt) (lo hi : ℤ) (s : Bytes) : Option ℤ :=
  (if isNumberFormattedLikeAnInteger s then Digits.parseInt s else floatInt s).filter fun n =>
    decide (lo ≤ n) && decide (n ≤ hi)

/-- An integer field: a number, or a string that holds one. -/
def parseIntToken (floatInt : FloatInt) (lo hi : ℤ) : Token → Option ℤ
  | .number s | .string s => sliceToInt floatInt lo hi s
  | _ => none

/-- `[]const u8`: a string, or an array of bytes. -/
def parseSlice (floatInt : FloatInt) : List Token → Option Bytes
  | [.string s] => some s
  | .arrayBegin :: elems =>
    elems.dropLast.mapM fun t =>
      (parseIntToken floatInt 0 255 t).map fun n => UInt8.ofNat n.toNat
  | _ => none

def parseOptional (floatInt : FloatInt) : List Token → Option (Option Bytes)
  | [.null] => some none
  | ts => (parseSlice floatInt ts).map some

def parseScalarInt (floatInt : FloatInt) (lo hi : ℤ) : List Token → Option ℤ
  | [t] => parseIntToken floatInt lo hi t
  | _ => none

def parseBool : List Token → Option Bool
  | [.bool b] => some b
  | _ => none

/-- The fields seen so far. -/
structure Parsed where
  id : Option Bytes := none
  conversationKey : Option Bytes := none
  threadKey : Option (Option Bytes) := none
  text : Option Bytes := none
  attempts : Option UInt32 := none
  nextDueUnixMs : Option Int64 := none
  ack : Option Bool := none

def Parsed.seen (self : Parsed) : Field → Bool
  | .id => self.id.isSome
  | .conversationKey => self.conversationKey.isSome
  | .threadKey => self.threadKey.isSome
  | .text => self.text.isSome
  | .attempts => self.attempts.isSome
  | .nextDueUnixMs => self.nextDueUnixMs.isSome
  | .ack => self.ack.isSome

/-- The value of one field. -/
def Parsed.set (floatInt : FloatInt) (self : Parsed) (ts : List Token) : Field → Option Parsed
  | .id => (parseSlice floatInt ts).map fun s => { self with id := some s }
  | .conversationKey =>
    (parseSlice floatInt ts).map fun s => { self with conversationKey := some s }
  | .threadKey => (parseOptional floatInt ts).map fun s => { self with threadKey := some s }
  | .text => (parseSlice floatInt ts).map fun s => { self with text := some s }
  | .attempts =>
    (parseScalarInt floatInt 0 (2 ^ 32 - 1) ts).map fun n =>
      { self with attempts := some (UInt32.ofNat n.toNat) }
  | .nextDueUnixMs =>
    (parseScalarInt floatInt (-2 ^ 63) (2 ^ 63 - 1) ts).map fun n =>
      { self with nextDueUnixMs := some (Int64.ofInt n) }
  | .ack => (parseBool ts).map fun b => { self with ack := some b }

def Field.all : List Field :=
  [.id, .conversationKey, .threadKey, .text, .attempts, .nextDueUnixMs, .ack]

/-- The loop over the fields of the struct. -/
def Field.ofName (name : Bytes) : Option Field := Field.all.find? fun field => field.name == name

/-- A field that is unknown, or there already, is an error. -/
def Parsed.setNamed (floatInt : FloatInt) (self : Parsed) (name : Bytes) (ts : List Token) :
    Option Parsed :=
  (Field.ofName name).bind fun field =>
    if self.seen field then none else self.set floatInt ts field

/-- `fillDefaultStructValues`. -/
def Parsed.fill (self : Parsed) : Option Record := do
  let id ← self.id
  let conversationKey ← self.conversationKey
  let text ← self.text
  let nextDueUnixMs ← self.nextDueUnixMs
  some
    { id
      conversationKey
      threadKey := self.threadKey.getD none
      text
      attempts := self.attempts.getD 0
      nextDueUnixMs
      ack := self.ack.getD false }

/-- `std.json.parseFromSliceLeaky(Record, line)`. -/
def parseRecord (floatInt : FloatInt) (line : Bytes) : Option Record :=
  (Json.decode (Parsed.setNamed floatInt) {} line).bind Parsed.fill

/-! ## The file -/

/-- `loadRecords` on the bytes of the file; a missing file has none. -/
def loadRecords (floatInt : FloatInt) (bytes : Bytes) : Except ReadError (List Record) :=
  ((bytes.splitOn 0x0A).filter fun line => !line.isEmpty).mapM fun line =>
    match parseRecord floatInt line with
    | some parsed => .ok parsed
    | none => .error .corruptRecord

/-- The file that `rewriteFile` writes. -/
def fileBytes (records : List Record) : Bytes := records.flatMap fun r => r.line ++ [0x0A]

/-- `file.writePositionalAll(bytes, offset)`. -/
def writePositionalAll (file bytes : Bytes) (offset : ℕ) : Bytes :=
  if bytes = [] then file
  else
    file.take offset ++ List.replicate (offset - file.length) 0 ++ bytes ++
      file.drop (offset + bytes.length)

/-- The two writes of `append`. -/
def appendLine (file line : Bytes) : Bytes :=
  let offset := file.length
  let file := writePositionalAll file line offset
  writePositionalAll file [0x0A] (offset + line.length)

/-- The two writes of `append`, cut off after the first `k` bytes. -/
def crashedAppend (file line : Bytes) (k : ℕ) : Bytes :=
  let offset := file.length
  let file := writePositionalAll file (line.take k) offset
  writePositionalAll file ([0x0A].take (k - line.length)) (offset + line.length)

/-! ## Values -/

variable (floatInt : FloatInt)

theorem isNumberFormattedLikeAnInteger_decimalInt (n : ℤ) :
    isNumberFormattedLikeAnInteger (Digits.decimalInt n) = true := by
  have hminus : ascii "-0" = [0x2D, 0x30] := by decide
  rw [isNumberFormattedLikeAnInteger, Bool.and_eq_true, decide_eq_true_eq, Bool.not_eq_true',
    List.any_eq_false, hminus]
  refine ⟨Digits.decimalInt_ne_minusZero n, ?_⟩
  intro b hb hpoint
  simp only [Bool.or_eq_true, decide_eq_true_eq] at hpoint
  have hdigit := Digits.isDigit_or_minus_of_mem_decimalInt hb
  rcases hpoint with (rfl | rfl) | rfl <;> exact absurd hdigit (by decide)

theorem parseIntToken_intToken {lo hi n : ℤ} (hlo : lo ≤ n) (hhi : n ≤ hi) :
    parseIntToken floatInt lo hi (intToken n) = some n := by
  rw [intToken, parseIntToken, sliceToInt, if_pos (isNumberFormattedLikeAnInteger_decimalInt n),
    Digits.parseInt_decimalInt]
  simp [hlo, hhi]

theorem mapM_parseIntToken (s : Bytes) :
    ((s.map fun b => intToken b.toNat).mapM fun t =>
      (parseIntToken floatInt 0 255 t).map fun n => UInt8.ofNat n.toNat) = some s := by
  induction s with
  | nil => rfl
  | cons b s ih =>
    have hlt := b.toNat_lt
    have hb : parseIntToken floatInt 0 255 (intToken b.toNat) = some (b.toNat : ℤ) :=
      parseIntToken_intToken floatInt (by omega) (by omega)
    rw [List.map_cons, List.mapM_cons, ih, hb]
    simp

theorem parseSlice_sliceValue (s : Bytes) :
    parseSlice floatInt (sliceValue s).content = some s := by
  rw [sliceValue]
  split
  · rfl
  · show ((s.map fun b => intToken b.toNat) ++ [Token.arrayEnd]).dropLast.mapM _ = some s
    rw [List.dropLast_concat]
    exact mapM_parseIntToken floatInt s

theorem parseOptional_optionalValue (s : Option Bytes) :
    parseOptional floatInt (optionalValue s).content = some s := by
  cases s with
  | none => rfl
  | some s =>
    have hs := parseSlice_sliceValue floatInt s
    rw [optionalValue]
    generalize (sliceValue s).content = ts at hs
    rw [parseOptional]
    · rw [hs]
      rfl
    · rintro rfl
      simp [parseSlice] at hs

/-- A name is found again. -/
@[simp] theorem Field.ofName_name (field : Field) : Field.ofName field.name = some field := by
  cases field <;> decide

/-- What the reader has when it comes to the end of a line. -/
theorem setFields_fields (r : Record) :
    Json.setFields (Parsed.setNamed floatInt) {} r.fields =
      some ⟨some r.id, some r.conversationKey, some r.threadKey, some r.text, some r.attempts,
        some r.nextDueUnixMs, some r.ack⟩ := by
  have hslice : ∀ s, parseSlice floatInt (sliceValue s).content = some s :=
    parseSlice_sliceValue floatInt
  have hid : ∀ (p : Parsed) (s : Bytes), p.set floatInt (sliceValue s).content .id =
      some { p with id := some s } := fun p s => by rw [Parsed.set, hslice]; rfl
  have hconversationKey : ∀ (p : Parsed) (s : Bytes),
      p.set floatInt (sliceValue s).content .conversationKey =
        some { p with conversationKey := some s } := fun p s => by rw [Parsed.set, hslice]; rfl
  have hthreadKey : ∀ (p : Parsed) (s : Option Bytes),
      p.set floatInt (optionalValue s).content .threadKey =
        some { p with threadKey := some s } :=
    fun p s => by rw [Parsed.set, parseOptional_optionalValue]; rfl
  have htext : ∀ (p : Parsed) (s : Bytes), p.set floatInt (sliceValue s).content .text =
      some { p with text := some s } := fun p s => by rw [Parsed.set, hslice]; rfl
  have hattempts : ∀ p : Parsed, p.set floatInt [intToken r.attempts.toNat] .attempts =
      some { p with attempts := some r.attempts } := by
    intro p
    have hlt := r.attempts.toNat_lt
    rw [Parsed.set, parseScalarInt, parseIntToken_intToken floatInt (by omega) (by omega)]
    simp
  have hdue : ∀ p : Parsed, p.set floatInt [intToken r.nextDueUnixMs.toInt] .nextDueUnixMs =
      some { p with nextDueUnixMs := some r.nextDueUnixMs } := by
    intro p
    have hlt := r.nextDueUnixMs.toInt_lt
    rw [Parsed.set, parseScalarInt,
      parseIntToken_intToken floatInt r.nextDueUnixMs.le_toInt (by omega)]
    simp
  have hack : ∀ p : Parsed, p.set floatInt [.bool r.ack] .ack =
      some { p with ack := some r.ack } := fun _ => rfl
  simp [Json.setFields, Record.fields, Parsed.setNamed, Parsed.seen, hid, hconversationKey,
    hthreadKey, htext, hattempts, hdue, hack]

/-! ## Lines -/

/-- What is in a field: something the scanner reads back, without a newline. -/
theorem mem_content {r : Record} {field : Bytes × Json.Value} (hfield : field ∈ r.fields)
    {t : Token} (ht : t ∈ field.2.content) : t.Writable ∧ ∀ s, t = .number s → 0x0A ∉ s := by
  have hint : ∀ n : ℤ, (intToken n).Writable ∧ ∀ s, intToken n = .number s → 0x0A ∉ s := by
    intro n
    refine ⟨Json.writable_decimalInt n, ?_⟩
    rintro s hs
    obtain rfl := Token.number.inj hs
    exact Json.control_notMem_decimalInt (by decide) n
  have hslice : ∀ s : Bytes, ∀ t ∈ (sliceValue s).content,
      t.Writable ∧ ∀ s, t = .number s → 0x0A ∉ s := by
    intro s t ht
    rw [sliceValue] at ht
    split at ht
    · obtain rfl := List.mem_singleton.mp ht
      exact ⟨‹_›, by simp⟩
    · simp only [Json.Value.content, List.mem_append, List.mem_singleton, List.mem_map] at ht
      rcases ht with (rfl | ⟨b, -, rfl⟩) | rfl
      · exact ⟨trivial, by simp⟩
      · exact hint _
      · exact ⟨trivial, by simp⟩
  have hoptional : ∀ s : Option Bytes, ∀ t ∈ (optionalValue s).content,
      t.Writable ∧ ∀ s, t = .number s → 0x0A ∉ s := by
    intro s t ht
    cases s with
    | none =>
      obtain rfl := List.mem_singleton.mp ht
      exact ⟨trivial, by simp⟩
    | some s => exact hslice s t ht
  simp only [Record.fields, List.mem_cons, List.not_mem_nil, or_false] at hfield
  rcases hfield with rfl | rfl | rfl | rfl | rfl | rfl | rfl
  · exact hslice _ t ht
  · exact hslice _ t ht
  · exact hoptional _ t ht
  · exact hslice _ t ht
  · exact List.mem_singleton.mp ht ▸ hint _
  · exact List.mem_singleton.mp ht ▸ hint _
  · obtain rfl := List.mem_singleton.mp ht
    exact ⟨trivial, by simp⟩

theorem utf8Valid_of_mem_fields {r : Record} {field : Bytes × Json.Value}
    (hfield : field ∈ r.fields) : Json.utf8Valid field.1 = true := by
  have hnames : r.fields.map Prod.fst = Field.all.map Field.name := rfl
  have hmem : field.1 ∈ r.fields.map Prod.fst := List.mem_map_of_mem hfield
  rw [hnames] at hmem
  obtain ⟨f, -, hf⟩ := List.mem_map.mp hmem
  rw [← hf]
  cases f <;> decide

theorem scan_line (r : Record) :
    Json.scan .gap r.line = some (Json.objectTokens r.fields, .gap) :=
  Json.scan_objectTokens fun _ hfield =>
    ⟨utf8Valid_of_mem_fields hfield, fun _ ht => (mem_content hfield ht).1⟩

/-- **A line reads as the record it was written from.** -/
theorem parseRecord_line (r : Record) : parseRecord floatInt r.line = some r := by
  rw [parseRecord, Record.line, Json.decode_write, setFields_fields]
  · rfl
  · exact fun field hfield =>
      ⟨utf8Valid_of_mem_fields hfield, fun _ ht => (mem_content hfield ht).1⟩

/-- A line is one line. -/
theorem newline_notMem_line (r : Record) : 0x0A ∉ r.line := by
  refine Json.control_notMem_write (by decide) fun s hs => ?_
  rcases Json.mem_objectTokens hs with h | ⟨field, hfield, h | h⟩
  · simp [Token.isStructural] at h
  · simp at h
  · exact (mem_content hfield h).2 s rfl

/-- It begins with a brace, a quote and the letter `i`. -/
theorem line_eq_cons (r : Record) : ∃ rest, r.line = 0x7B :: 0x22 :: 0x69 :: rest := ⟨_, rfl⟩

/-- It ends with a brace. -/
theorem line_eq_concat (r : Record) : ∃ front, r.line = front ++ [0x7D] := by
  rw [Record.line, Json.objectTokens, Json.write, List.flatMap_append]
  exact ⟨_, rfl⟩

/-- **A torn line does not read.** -/
theorem parseRecord_torn {r : Record} {p s : Bytes} (hps : p ++ s = r.line) (hs : s ≠ []) :
    parseRecord floatInt p = none := by
  have hread : Json.readObject (Parsed.setNamed floatInt) {} (Json.objectTokens r.fields) =
      some ⟨some r.id, some r.conversationKey, some r.threadKey, some r.text, some r.attempts,
        some r.nextDueUnixMs, some r.ack⟩ := by
    rw [Json.readObject_objectTokens, setFields_fields]
  have hscan := scan_line r
  rw [← hps] at hscan
  rw [parseRecord, Json.decode_torn hscan hread]
  · rfl
  · obtain ⟨front, hfront⟩ := line_eq_concat r
    refine ⟨0x7D, ?_, by decide⟩
    have hlast : (p ++ s).getLast? = some 0x7D := by
      rw [hps, hfront]
      simp
    rw [List.getLast?_append_of_ne_nil _ hs] at hlast
    exact List.mem_of_mem_getLast? hlast

/-- **Nor does a torn line with another line after it.** -/
theorem parseRecord_glued {r r' : Record} {p s : Bytes} (hps : p ++ s = r.line) (hp : p ≠ []) :
    parseRecord floatInt (p ++ r'.line) = none := by
  obtain ⟨rest, hrest⟩ := line_eq_cons r'
  obtain ⟨front, hfront⟩ := line_eq_cons r
  obtain ⟨p, rfl⟩ : ∃ p', p = 0x7B :: p' := by
    cases p with
    | nil => exact absurd rfl hp
    | cons b p =>
      rw [hfront, List.cons_append] at hps
      exact ⟨p, by rw [(List.cons.inj hps).1]⟩
  have hscan := scan_line r
  rw [← hps] at hscan
  obtain ⟨tp, m, -, hscan, -⟩ := Json.scan_append_eq_some hscan
  obtain ⟨t, m', tp, hbrace, -, rfl⟩ := Json.scan_cons_eq_some.mp hscan
  obtain ⟨rfl, -⟩ : [Token.objectBegin] = t ∧ _ := Prod.mk.inj (Option.some.inj hbrace)
  rw [parseRecord, hrest, Json.decode_glued hscan (by decide)]
  rfl

/-- **Records as lines.** -/
def recordCodec : LineLog.Codec UInt8 Record where
  sep := 0x0A
  encode := Record.line
  decode := parseRecord floatInt
  sep_notMem := newline_notMem_line
  encode_ne_nil := fun r => by
    obtain ⟨rest, h⟩ := line_eq_cons r
    simp [h]
  decode_encode := parseRecord_line floatInt
  torn := fun _ _ _ => parseRecord_torn floatInt
  glued := fun _ _ _ _ => parseRecord_glued floatInt

/-! ## The file and its records -/

/-- The line of a record that does not parse is the error of the whole file. -/
theorem loadRecords_eq (bytes : Bytes) :
    loadRecords floatInt bytes =
      match LineLog.load (recordCodec floatInt) bytes with
      | some records => .ok records
      | none => .error .corruptRecord := by
  show List.mapM _ ((bytes.splitOn 0x0A).filter fun line => !line.isEmpty) = _
  rw [LineLog.load]
  show _ = match ((bytes.splitOn 0x0A).filter fun line => !line.isEmpty).mapM
      (parseRecord floatInt) with
    | some records => Except.ok records
    | none => Except.error ReadError.corruptRecord
  induction (bytes.splitOn 0x0A).filter fun line => !line.isEmpty with
  | nil => rfl
  | cons line lines ih =>
    rw [List.mapM_cons, List.mapM_cons, ih]
    cases parseRecord floatInt line with
    | none => rfl
    | some r => cases List.mapM (parseRecord floatInt) lines <;> rfl

theorem loadRecords_eq_ok {bytes : Bytes} {records : List Record} :
    loadRecords floatInt bytes = .ok records ↔
      LineLog.load (recordCodec floatInt) bytes = some records := by
  rw [loadRecords_eq]
  cases LineLog.load (recordCodec floatInt) bytes <;> simp

theorem fileBytes_eq (records : List Record) :
    fileBytes records = LineLog.write (recordCodec floatInt) records := rfl

/-- **The file of a list of records reads as that list.** -/
theorem loadRecords_fileBytes (records : List Record) :
    loadRecords floatInt (fileBytes records) = .ok records := by
  rw [loadRecords_eq_ok, fileBytes_eq floatInt, LineLog.load_write]

/-- A write at the end of the file. -/
theorem writePositionalAll_end (file bytes : Bytes) :
    writePositionalAll file bytes file.length = file ++ bytes := by
  rw [writePositionalAll]
  split
  · simp [*]
  · simp

/-- What is on disk after `k` bytes: the beginning of the line with its newline. -/
theorem crashedAppend_eq (file line : Bytes) (k : ℕ) :
    crashedAppend file line k = file ++ (line ++ [0x0A]).take k := by
  rw [crashedAppend, writePositionalAll_end, List.take_append]
  rcases Nat.lt_or_ge k line.length with hlt | hle
  · have hzero : k - line.length = 0 := by omega
    simp [writePositionalAll, hzero]
  · rw [List.take_of_length_le hle, ← List.length_append, writePositionalAll_end,
      List.append_assoc]

theorem appendLine_eq (file line : Bytes) : appendLine file line = file ++ (line ++ [0x0A]) := by
  rw [appendLine, writePositionalAll_end, ← List.length_append, writePositionalAll_end,
    List.append_assoc]

/-- **A complete append is the append to the list of records.** -/
theorem appendLine_fileBytes (file : List Record) (idCounter : UInt32) (msg : OutboundMessage)
    (nowUs nowMs : Int64) :
    appendLine (fileBytes file) (newRecord (generateId nowUs idCounter) msg nowMs).line =
      fileBytes (append file idCounter msg nowUs nowMs).1 := by
  rw [appendLine_eq, append, fileBytes, fileBytes, List.flatMap_append, List.flatMap_singleton]

/-- Complete appends, one after another. -/
theorem foldl_appendLine (file : Bytes) (records : List Record) :
    (records.foldl (fun file r => appendLine file r.line) file) = file ++ fileBytes records := by
  induction records generalizing file with
  | nil => simp [fileBytes]
  | cons r records ih =>
    rw [List.foldl_cons, ih, appendLine_eq, fileBytes, fileBytes, List.flatMap_cons,
      List.append_assoc]

/-! ## Crashes -/

/-- **When an append that crashed is harmless.**  A file of complete records, an append of which
`k` bytes reach the disk, and any number of complete appends after it: all complete records are
read, with or without the interrupted one, exactly when nothing of the line was written, or all of
it and its newline, or all of it and nothing is appended after it. -/
theorem crash_safe_iff (before after : List Record) (r : Record) (k : ℕ) :
    (∃ x, (x = [] ∨ x = [r]) ∧
        loadRecords floatInt (after.foldl (fun file r => appendLine file r.line)
          (crashedAppend (fileBytes before) r.line k)) = .ok (before ++ x ++ after)) ↔
      k = 0 ∨ k = r.line.length ∧ after = [] ∨ r.line.length < k := by
  have h := LineLog.load_torn_iff (recordCodec floatInt) before after r k
  simp only [loadRecords_eq_ok, foldl_appendLine, crashedAppend_eq]
  exact h

/-- A file with one record and the first byte of a second line does not read at all. -/
theorem crash_not_safe :
    ¬ ∀ (floatInt : FloatInt) (before after : List Record) (r : Record) (k : ℕ),
      ∃ x, (x = [] ∨ x = [r]) ∧
        loadRecords floatInt (after.foldl (fun file r => appendLine file r.line)
          (crashedAppend (fileBytes before) r.line k)) = .ok (before ++ x ++ after) := by
  intro h
  let r : Record := { id := ascii "id", conversationKey := [], text := [], nextDueUnixMs := 0 }
  obtain ⟨x, -, hload⟩ := h (fun _ => none) [r] [] r 1
  obtain ⟨rest, hrest⟩ := line_eq_cons r
  set c := recordCodec fun _ => none
  have htorn : LineLog.load c [0x7B] = none := by
    have hload := LineLog.load_torn_append c (r := r) (p := [0x7B]) (s := 0x22 :: 0x69 :: rest)
      hrest.symm (by simp) []
    rwa [if_neg (by simp), LineLog.write, List.flatMap_nil, List.append_nil] at hload
  rw [loadRecords_eq_ok, List.foldl_nil, crashedAppend_eq, fileBytes_eq fun _ => none,
    LineLog.load_write_append, hrest, List.cons_append, List.take_succ_cons, List.take_zero,
    htorn] at hload
  simp at hload

end Channels
end TigerClaw
