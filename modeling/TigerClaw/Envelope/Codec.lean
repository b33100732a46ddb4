import TigerClaw.Envelope.Basic
import TigerClaw.Library.Checked

/-!
# The envelope codec

`src/envelope_codec.zig`, function by function.

The writers append to a growing list whose only failure is the allocator's; here each returns the
bytes it appends, and `encode` asks the allocator for the total.  The reader holds a buffer and an
offset into it; `Reader` is that offset together with the bytes from it on, so `bytes.len` is
`Reader.len`.

The reader's unchecked arithmetic is kept as the code has it: `@intCast` to `u32`, `shift += 7` on
a `u6`, and `pos + n` on a `usize` of 64 bits each trip when the result does not fit.
-/

namespace TigerClaw
namespace Envelope

/-! ## Field numbers -/

/-- The fields of an envelope. -/
inductive FieldName where
  | envelopeV
  | verb
  | conversationId
  | inReplyTo
  | originChannelId
  | senderId
  | senderSig
  | sentAtMs
  | nonce
  | bodyMime
  | body
  | maxTokens
  | maxWallMs
  | maxCostUsdMicros
  | attachments
  | threadKey
  deriving DecidableEq

/-- The constants `F_ENVELOPE_V` to `F_THREAD_KEY`. -/
def FieldName.number : FieldName → UInt32
  | .envelopeV => 1
  | .verb => 2
  | .conversationId => 3
  | .inReplyTo => 4
  | .originChannelId => 5
  | .senderId => 6
  | .senderSig => 7
  | .sentAtMs => 8
  | .nonce => 9
  | .bodyMime => 10
  | .body => 11
  | .maxTokens => 12
  | .maxWallMs => 13
  | .maxCostUsdMicros => 14
  | .attachments => 15
  | .threadKey => 16

/-- The `switch` of `decode`. -/
def FieldName.ofNumber? : ℕ → Option FieldName
  | 1 => some .envelopeV
  | 2 => some .verb
  | 3 => some .conversationId
  | 4 => some .inReplyTo
  | 5 => some .originChannelId
  | 6 => some .senderId
  | 7 => some .senderSig
  | 8 => some .sentAtMs
  | 9 => some .nonce
  | 10 => some .bodyMime
  | 11 => some .body
  | 12 => some .maxTokens
  | 13 => some .maxWallMs
  | 14 => some .maxCostUsdMicros
  | 15 => some .attachments
  | 16 => some .threadKey
  | _ => none

/-- The fields of an attachment. -/
inductive AttachmentField where
  | name
  | mime
  | data

/-- The constants `F_ATT_NAME`, `F_ATT_MIME`, `F_ATT_DATA`. -/
def AttachmentField.number : AttachmentField → UInt32
  | .name => 1
  | .mime => 2
  | .data => 3

/-- The `switch` of `decodeAttachment`. -/
def AttachmentField.ofNumber? : ℕ → Option AttachmentField
  | 1 => some .name
  | 2 => some .mime
  | 3 => some .data
  | _ => none

def wireVarint : UInt32 := 0

def wireLenDelim : UInt32 := 2

/-! ## Writers -/

def writeVarint (val : UInt64) : Bytes :=
  if 0x80 ≤ val then ((val &&& 0x7F) ||| 0x80).toUInt8 :: writeVarint (val >>> 7)
  else [(val &&& 0x7F).toUInt8]
termination_by val.toNat
decreasing_by
  rename_i h
  rw [UInt64.le_iff_toNat_le] at h
  simp only [UInt64.reduceToNat] at h
  rw [UInt64.toNat_shiftRight]
  simp only [UInt64.reduceToNat, Nat.reduceMod, Nat.shiftRight_eq_div_pow]
  omega

def writeTag (field wire : UInt32) : Bytes :=
  writeVarint ((field.toUInt64 <<< 3) ||| wire.toUInt64)

/-- Empty strings are not written. -/
def writeString (field : UInt32) (s : Bytes) : Bytes :=
  if s.length = 0 then []
  else writeTag field wireLenDelim ++ writeVarint (UInt64.ofNat s.length) ++ s

/-- Empty byte strings are written; the caller decides about absent ones. -/
def writeBytes (field : UInt32) (b : Bytes) : Bytes :=
  writeTag field wireLenDelim ++ writeVarint (UInt64.ofNat b.length) ++ b

def writeUint32 (field val : UInt32) : Bytes :=
  if val = 0 then [] else writeTag field wireVarint ++ writeVarint val.toUInt64

def writeInt64 (field : UInt32) (val : Int64) : Bytes :=
  if val = 0 then [] else writeTag field wireVarint ++ writeVarint val.toUInt64

def writeEnum (field val : UInt32) : Bytes :=
  if val = 0 then [] else writeTag field wireVarint ++ writeVarint val.toUInt64

/-- The nested payload of an attachment. -/
def attachmentPayload (att : Attachment) : Bytes :=
  writeString AttachmentField.name.number att.name ++
    writeString AttachmentField.mime.number att.mime ++
    (writeTag AttachmentField.data.number wireLenDelim ++
      writeVarint (UInt64.ofNat att.data.length) ++ att.data)

def writeAttachment (field : UInt32) (att : Attachment) : Bytes :=
  writeTag field wireLenDelim ++ writeVarint (UInt64.ofNat (attachmentPayload att).length) ++
    attachmentPayload att

/-- `if (value) |v| try write(v)`. -/
def writeOptional {α : Type} (write : α → Bytes) : Option α → Bytes
  | none => []
  | some v => write v

/-- The fields in ascending order of their numbers. -/
def doEncode (env : Envelope) (includeSig : Bool) : Bytes :=
  writeUint32 FieldName.envelopeV.number env.envelopeV ++
  writeEnum FieldName.verb.number env.verb.toUInt32 ++
  writeString FieldName.conversationId.number env.conversationId ++
  writeOptional (writeString FieldName.inReplyTo.number) env.inReplyTo ++
  writeString FieldName.originChannelId.number env.originChannelId ++
  writeString FieldName.senderId.number env.senderId ++
  (if includeSig then writeOptional (writeBytes FieldName.senderSig.number) env.senderSig
    else []) ++
  writeInt64 FieldName.sentAtMs.number env.sentAtMs ++
  writeOptional (writeBytes FieldName.nonce.number) env.nonce ++
  writeString FieldName.bodyMime.number env.bodyMime ++
  (writeTag FieldName.body.number wireLenDelim ++
    writeVarint (UInt64.ofNat env.body.length) ++ env.body) ++
  writeOptional (writeUint32 FieldName.maxTokens.number) env.maxTokens ++
  writeOptional (writeUint32 FieldName.maxWallMs.number) env.maxWallMs ++
  writeOptional (writeUint32 FieldName.maxCostUsdMicros.number) env.maxCostUsdMicros ++
  env.attachments.flatMap (writeAttachment FieldName.attachments.number) ++
  writeOptional (writeString FieldName.threadKey.number) env.threadKey

/-! ## Memory -/

/-- A slice of bytes in memory: its length fits a `usize`. -/
def Slice : Type := { b : Bytes // b.length < 2 ^ 64 }

/-- What the allocator says to a list that wants room for `n` items, and to a list of `n` items
that wants to be handed over as an owned slice. -/
structure Allocator where
  grow : ℕ → Bool
  own : ℕ → Bool
  /-- Nothing larger than the address space is ever granted. -/
  grow_lt : ∀ n, grow n = true → n < 2 ^ 64

/-- Every request for up to `n` items is granted. -/
def Allocator.Serves (a : Allocator) (n : ℕ) : Prop :=
  ∀ m ≤ n, a.grow m = true ∧ a.own m = true

/-- `encode`: the bytes of the envelope, or `Internal` where the allocator refuses. -/
def encode (a : Allocator) (env : Envelope) (includeSig : Bool) : Except PlugError Slice :=
  if h : a.grow (doEncode env includeSig).length = true then
    if a.own (doEncode env includeSig).length = true then
      .ok ⟨doEncode env includeSig, a.grow_lt _ h⟩
    else .error .internal
  else .error .internal

def canonicalBytes (a : Allocator) (env : Envelope) : Except PlugError Slice :=
  encode a env false

/-! ## Reader -/

/-- The errors inside the reader. -/
inductive ReadError where
  | truncated
  | varintTooLong
  | unknownWireType
  | unknownVerb

/-- The offset `pos` and the bytes from it on. -/
structure Reader where
  pos : ℕ
  rest : Bytes

namespace Reader

/-- `bytes.len`. -/
def len (self : Reader) : ℕ := self.pos + self.rest.length

def hasMore (self : Reader) : Bool := decide (self.pos < self.len)

/-- The loop of `readVarint`, over the unread bytes.  `shift` is the code's `u6`: adding seven to
it overflows before the comparison `shift >= 64` behind it could ever hold, so `VarintTooLong`
is never returned. -/
def readVarintLoop : Bytes → ℕ → UInt64 → ℕ → Outcome ReadError (UInt64 × Reader)
  | [], _, _, _ => .error .truncated
  | b :: rest, pos, result, shift =>
    let result := result ||| ((b &&& 0x7F).toUInt64 <<< UInt64.ofNat shift)
    if b &&& 0x80 = 0 then .ok (result, ⟨pos + 1, rest⟩)
    else if 2 ^ 6 ≤ shift + 7 then .trap .overflow
    else readVarintLoop rest (pos + 1) result (shift + 7)

def readVarint (self : Reader) : Outcome ReadError (UInt64 × Reader) :=
  readVarintLoop self.rest self.pos 0 0

def readBytes (self : Reader) (n : UInt64) : Outcome ReadError (Bytes × Reader) :=
  if 2 ^ 64 ≤ self.pos + n.toNat then .trap .overflow
  else if self.len < self.pos + n.toNat then .error .truncated
  else .ok (self.rest.take n.toNat, ⟨self.pos + n.toNat, self.rest.drop n.toNat⟩)

/-- A length and as many bytes. -/
def readString (self : Reader) : Outcome ReadError (Bytes × Reader) := do
  let (len, r) ← self.readVarint
  r.readBytes len

/-- Skip a field by its wire type. -/
def skipField (self : Reader) (wire : UInt32) : Outcome ReadError Reader :=
  if wire = wireVarint then do
    let (_, r) ← self.readVarint
    pure r
  else if wire = wireLenDelim then do
    let (len, r) ← self.readVarint
    let (_, r) ← r.readBytes len
    pure r
  else if wire = 1 then do
    let (_, r) ← self.readBytes 8
    pure r
  else if wire = 5 then do
    let (_, r) ← self.readBytes 4
    pure r
  else .error .unknownWireType

end Reader

/-- `@intCast` from `u64` to `u32`. -/
def intCastU32 {ε : Type} (v : UInt64) : Outcome ε UInt32 :=
  if v.toNat < 2 ^ 32 then .ok v.toUInt32 else .trap .intCast

/-- `while (r.hasMore())` around a body that updates `st`.  The fuel is the number of unread
bytes: every body below reads at least one. -/
def whileMore {ε σ : Type} (body : σ → Reader → Outcome ε (σ × Reader)) :
    ℕ → σ → Reader → Outcome ε σ
  | 0, st, _ => .ok st
  | fuel + 1, st, r =>
    if r.hasMore then do
      let (st, r) ← body st r
      whileMore body fuel st r
    else .ok st

/-! ## Decoding -/

/-- One turn of the loop of `decodeAttachment`. -/
def decodeAttachmentField (att : Attachment) (r : Reader) :
    Outcome ReadError (Attachment × Reader) := do
  let (tag, r) ← r.readVarint
  let field ← intCastU32 (tag >>> 3)
  let wire ← intCastU32 (tag &&& 0x7)
  match AttachmentField.ofNumber? field.toNat with
  | some .name => do
    let (s, r) ← r.readString
    pure ({ att with name := s }, r)
  | some .mime => do
    let (s, r) ← r.readString
    pure ({ att with mime := s }, r)
  | some .data => do
    let (s, r) ← r.readString
    pure ({ att with data := s }, r)
  | none => do
    let r ← r.skipField wire
    pure (att, r)

def decodeAttachment (bytes : Bytes) : Outcome ReadError Attachment :=
  whileMore decodeAttachmentField bytes.length { name := [], mime := [], data := [] } ⟨0, bytes⟩

def verbFromInt (v : UInt32) : Except ReadError Verb :=
  match v.toNat with
  | 0 => .ok .unspecified
  | 1 => .ok .userMsg
  | 2 => .ok .toolCall
  | 3 => .ok .toolResult
  | 4 => .ok .reply
  | 5 => .ok .retract
  | 6 => .ok .hello
  | 7 => .ok .helloAck
  | 8 => .ok .refuse
  | 9 => .ok .heartbeat
  | _ => .error .unknownVerb

/-- The local variables of `decode`. -/
structure DecodeState where
  env : Envelope
  attachmentsList : List Attachment
  sawConv : Bool
  sawOrigin : Bool
  sawSender : Bool

namespace DecodeState

def start : DecodeState where
  env :=
    { envelopeV := 0
      verb := .unspecified
      conversationId := []
      originChannelId := []
      senderId := []
      sentAtMs := 0
      body := [] }
  attachmentsList := []
  sawConv := false
  sawOrigin := false
  sawSender := false

end DecodeState

/-- One turn of the loop of `decode`. -/
def decodeField (a : Allocator) (st : DecodeState) (r : Reader) :
    Outcome PlugError (DecodeState × Reader) := do
  let (tag, r) ← r.readVarint.catchAs PlugError.badInput
  let field ← intCastU32 (tag >>> 3)
  let wire ← intCastU32 (tag &&& 0x7)
  match FieldName.ofNumber? field.toNat with
  | some .envelopeV => do
    let (v, r) ← r.readVarint.catchAs PlugError.badInput
    let v ← intCastU32 v
    pure ({ st with env := { st.env with envelopeV := v } }, r)
  | some .verb => do
    let (v, r) ← r.readVarint.catchAs PlugError.badInput
    let v ← intCastU32 v
    match verbFromInt v with
    | .error _ => .error .badInput
    | .ok verb => pure ({ st with env := { st.env with verb := verb } }, r)
  | some .conversationId => do
    let (s, r) ← r.readString.catchAs PlugError.badInput
    pure ({ st with env := { st.env with conversationId := s }, sawConv := true }, r)
  | some .inReplyTo => do
    let (s, r) ← r.readString.catchAs PlugError.badInput
    pure ({ st with env := { st.env with inReplyTo := some s } }, r)
  | some .originChannelId => do
    let (s, r) ← r.readString.catchAs PlugError.badInput
    pure ({ st with env := { st.env with originChannelId := s }, sawOrigin := true }, r)
  | some .senderId => do
    let (s, r) ← r.readString.catchAs PlugError.badInput
    pure ({ st with env := { st.env with senderId := s }, sawSender := true }, r)
  | some .senderSig => do
    let (s, r) ← r.readString.catchAs PlugError.badInput
    pure ({ st with env := { st.env with senderSig := some s } }, r)
  | some .sentAtMs => do
    let (u, r) ← r.readVarint.catchAs PlugError.badInput
    pure ({ st with env := { st.env with sentAtMs := u.toInt64 } }, r)
  | some .nonce => do
    let (s, r) ← r.readString.catchAs PlugError.badInput
    pure ({ st with env := { st.env with nonce := some s } }, r)
  | some .bodyMime => do
    let (s, r) ← r.readString.catchAs PlugError.badInput
    pure ({ st with env := { st.env with bodyMime := s } }, r)
  | some .body => do
    let (s, r) ← r.readString.catchAs PlugError.badInput
    pure ({ st with env := { st.env with body := s } }, r)
  | some .maxTokens => do
    let (v, r) ← r.readVarint.catchAs PlugError.badInput
    let v ← intCastU32 v
    pure ({ st with env := { st.env with maxTokens := some v } }, r)
  | some .maxWallMs => do
    let (v, r) ← r.readVarint.catchAs PlugError.badInput
    let v ← intCastU32 v
    pure ({ st with env := { st.env with maxWallMs := some v } }, r)
  | some .maxCostUsdMicros => do
    let (v, r) ← r.readVarint.catchAs PlugError.badInput
    let v ← intCastU32 v
    pure ({ st with env := { st.env with maxCostUsdMicros := some v } }, r)
  | some .attachments => do
    let (payload, r) ← r.readString.catchAs PlugError.badInput
    let att ← (decodeAttachment payload).catchAs PlugError.badInput
    if a.grow (st.attachmentsList.length + 1) = true then
      pure ({ st with attachmentsList := st.attachmentsList ++ [att] }, r)
    else .error .internal
  | some .threadKey => do
    let (s, r) ← r.readString.catchAs PlugError.badInput
    pure ({ st with env := { st.env with threadKey := some s } }, r)
  | none => do
    let r ← (r.skipField wire).catchAs PlugError.badInput
    pure (st, r)

/-- What follows the loop of `decode`: the version gate, the required fields, the attachments. -/
def finish (a : Allocator) (st : DecodeState) : Outcome PlugError Envelope :=
  if st.env.envelopeV ≠ envelopeVersion then .error .badInput
  else if !st.sawConv || !st.sawOrigin || !st.sawSender then .error .badInput
  else if st.env.verb = .unspecified then .error .badInput
  else if a.own st.attachmentsList.length = true then
    .ok { st.env with attachments := st.attachmentsList }
  else .error .internal

def decode (a : Allocator) (bytes : Slice) : Outcome PlugError Envelope := do
  let st ← whileMore (decodeField a) bytes.1.length DecodeState.start ⟨0, bytes.1⟩
  finish a st

end Envelope
end TigerClaw
