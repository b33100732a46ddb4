import TigerClaw.Envelope.Grammar
import Mathlib.Algebra.Order.BigOperators.Group.List

/-!
# What the encoder writes

The writers are matched with the wire grammar: `doEncode` writes a message, and `encodedFields`
are its fields.

* `writeVarint_eq`: the loop of `writeVarint` writes the shortest base-128 number.
* `message_writeString` and its siblings: every writer writes no field or one.  The writers of
  strings and numbers are the ones that may write none.
* `message_doEncode`: the sixteen writers one after the other.
* `length_doEncode_le`: how much room the encoding needs.
-/

namespace TigerClaw
namespace Envelope

open WireFormat

/-! ## Varints, tags and lengths -/

theorem toNat_continued (v : UInt64) : ((v &&& 0x7F) ||| 0x80).toNat = v.toNat % 128 + 128 := by
  have hand : (v &&& 0x7F).toNat = v.toNat % 128 := by
    rw [UInt64.toNat_and]
    exact Nat.and_two_pow_sub_one_eq_mod v.toNat 7
  have hlt : v.toNat % 128 < 2 ^ 7 := Nat.mod_lt _ (by omega)
  have hor := Nat.two_pow_add_eq_or_of_lt hlt 1
  rw [UInt64.toNat_or, hand, Nat.or_comm]
  simp only [Nat.mul_one, Nat.reducePow] at hor
  simp only [UInt64.reduceToNat]
  omega

/-- **The loop of `writeVarint`** writes the shortest base-128 number. -/
theorem writeVarint_eq (v : UInt64) : writeVarint v = Base128.encode v.toNat := by
  induction hn : v.toNat using Nat.strongRecOn generalizing v with
  | ind n ih =>
    subst hn
    have hle : 0x80 ≤ v ↔ 128 ≤ v.toNat := UInt64.le_iff_toNat_le
    rw [writeVarint]
    by_cases h : 128 ≤ v.toNat
    · have hshift : (v >>> 7).toNat = v.toNat / 128 := by
        rw [UInt64.toNat_shiftRight]
        simp only [UInt64.reduceToNat, Nat.reduceMod, Nat.shiftRight_eq_div_pow, Nat.reducePow]
      rw [if_pos (hle.mpr h), Base128.encode_of_ge h,
        ih (v >>> 7).toNat (by rw [hshift]; omega) (v >>> 7) rfl, hshift]
      congr 1
      rw [← UInt8.toNat_inj, UInt64.toNat_toUInt8, toNat_continued,
        Base128.toNat_ofNat_of_lt (by omega)]
      omega
    · rw [if_neg (mt hle.mp h), Base128.encode_of_lt (by omega)]
      congr 1
      rw [← UInt8.toNat_inj, UInt64.toNat_toUInt8, UInt64.toNat_and,
        Base128.toNat_ofNat_of_lt (by omega)]
      have := Nat.and_two_pow_sub_one_eq_mod v.toNat 7
      simp only [Nat.reducePow, Nat.reduceSub] at this
      simp only [UInt64.reduceToNat, this]
      omega

theorem varint_writeVarint (v : UInt64) : Varint (writeVarint v) v := by
  rw [writeVarint_eq]
  exact varint_encode v

theorem toNat_tag (field : UInt32) {wire : UInt32} (hw : wire.toNat < 8) :
    ((field.toUInt64 <<< 3) ||| wire.toUInt64).toNat = 8 * field.toNat + wire.toNat := by
  have hfield := field.toNat_lt
  have hshift : (field.toUInt64 <<< 3).toNat = 2 ^ 3 * field.toNat := by
    rw [UInt64.toNat_shiftLeft, UInt32.toNat_toUInt64]
    simp only [UInt64.reduceToNat, Nat.reduceMod, Nat.shiftLeft_eq]
    omega
  rw [UInt64.toNat_or, hshift, UInt32.toNat_toUInt64, ← Nat.two_pow_add_eq_or_of_lt hw]

theorem delimited_write {s : Bytes} (h : s.length < 2 ^ 64) :
    Delimited (writeVarint (UInt64.ofNat s.length) ++ s) s :=
  ⟨_, _, rfl, varint_writeVarint _, UInt64.toNat_ofNat_of_lt' h⟩

section Writers

variable {S : Schema} {field : UInt32}

/-- A tag and a payload of the field's kind. -/
theorem raw_writeTag {wire : UInt32} (hw : wire.toNat < 8) {pb : Bytes} {x : Value}
    (h : Payload S (S.kind field.toNat) wire.toNat pb x) :
    Raw S (writeTag field wire ++ pb) ⟨field.toNat, x⟩ := by
  have htag := toNat_tag field hw
  have hfield := field.toNat_lt
  have hdiv : (8 * field.toNat + wire.toNat) / 8 = field.toNat := by omega
  have hmod : (8 * field.toNat + wire.toNat) % 8 = wire.toNat := by omega
  refine ⟨_, _, pb, rfl, varint_writeVarint _, ?_, ?_, ?_⟩
  · rw [htag, hdiv]
    exact hfield
  · rw [htag, hdiv]
  · rw [htag, hmod]
    exact h

/-! ## One writer, one field -/

/-- What `writeString` writes. -/
def stringFields (field : UInt32) (s : Bytes) : List Field :=
  if s = [] then [] else [⟨field.toNat, .bytes s⟩]

/-- What `writeUint32`, `writeInt64` and `writeEnum` write. -/
def numberFields (field : UInt32) (v : UInt64) : List Field :=
  if v = 0 then [] else [⟨field.toNat, .varint v⟩]

theorem length_le_writeBytes (field : UInt32) (s : Bytes) :
    s.length ≤ (writeBytes field s).length := by
  rw [writeBytes, List.length_append]
  omega

theorem message_writeBytes (hk : S.kind field.toNat = .bytes) {s : Bytes}
    (h : (writeBytes field s).length < 2 ^ 64) :
    Message S (writeBytes field s) [⟨field.toNat, .bytes s⟩] := by
  have hs := delimited_write (Nat.lt_of_le_of_lt (length_le_writeBytes field s) h)
  have hraw : Raw S (writeTag field wireLenDelim ++ _) ⟨field.toNat, .bytes s⟩ :=
    raw_writeTag (by decide) (by rw [hk]; exact ⟨s, rfl, hs⟩)
  rw [writeBytes, List.append_assoc]
  exact Message.singleton hraw

theorem message_writeString (hk : S.kind field.toNat = .bytes) {s : Bytes}
    (h : (writeString field s).length < 2 ^ 64) :
    Message S (writeString field s) (stringFields field s) := by
  rw [stringFields]
  by_cases hs : s = []
  · rw [if_pos hs, writeString, if_pos (by rw [hs]; rfl)]
    exact Message.nil
  · have hwrite : writeString field s = writeBytes field s :=
      if_neg (mt List.length_eq_zero_iff.mp hs)
    rw [if_neg hs, hwrite]
    exact message_writeBytes hk (hwrite ▸ h)

theorem message_writeNumber {v : UInt64}
    (h : ∀ pb, Varint pb v → Payload S (S.kind field.toNat) 0 pb (.varint v)) :
    Message S (writeTag field wireVarint ++ writeVarint v) [⟨field.toNat, .varint v⟩] :=
  Message.singleton (raw_writeTag (by decide) (h _ (varint_writeVarint v)))

theorem message_writeUint32 (hk : S.kind field.toNat = .uint32) (v : UInt32) :
    Message S (writeUint32 field v) (numberFields field v.toUInt64) := by
  rw [numberFields, writeUint32]
  by_cases hv : v = 0
  · rw [if_pos hv, if_pos (by rw [hv]; rfl)]
    exact Message.nil
  · have hv' : v.toUInt64 ≠ 0 := fun h => hv (by simpa using congrArg UInt64.toUInt32 h)
    rw [if_neg hv, if_neg hv']
    refine message_writeNumber fun pb hpb => ?_
    rw [hk]
    exact ⟨_, rfl, hpb, by rw [UInt32.toNat_toUInt64]; exact v.toNat_lt⟩

theorem message_writeEnum {bound : ℕ} (hk : S.kind field.toNat = .enum bound) {v : UInt32}
    (hbound : v.toNat < bound) :
    Message S (writeEnum field v) (numberFields field v.toUInt64) := by
  rw [numberFields, writeEnum]
  by_cases hv : v = 0
  · rw [if_pos hv, if_pos (by rw [hv]; rfl)]
    exact Message.nil
  · have hv' : v.toUInt64 ≠ 0 := fun h => hv (by simpa using congrArg UInt64.toUInt32 h)
    rw [if_neg hv, if_neg hv']
    refine message_writeNumber fun pb hpb => ?_
    rw [hk]
    exact ⟨_, rfl, hpb, by rw [UInt32.toNat_toUInt64]; exact v.toNat_lt,
      by rw [UInt32.toNat_toUInt64]; exact hbound⟩

theorem message_writeInt64 (hk : S.kind field.toNat = .uint64) (v : Int64) :
    Message S (writeInt64 field v) (numberFields field v.toUInt64) := by
  rw [numberFields, writeInt64]
  by_cases hv : v = 0
  · rw [if_pos hv, if_pos (by rw [hv]; rfl)]
    exact Message.nil
  · have hv' : v.toUInt64 ≠ 0 := fun h => hv (by simpa using congrArg UInt64.toInt64 h)
    rw [if_neg hv, if_neg hv']
    refine message_writeNumber fun pb hpb => ?_
    rw [hk]
    exact ⟨_, rfl, hpb⟩

/-- Writing only what is present. -/
theorem message_writeOptional {α : Type} {write : α → Bytes} {fields : α → List Field}
    {x : Option α} (h : ∀ v, x = some v → Message S (write v) (fields v)) :
    Message S (writeOptional write x) (x.elim [] fields) := by
  cases x with
  | none => exact Message.nil
  | some v => exact h v rfl

end Writers

/-! ## Attachments -/

/-- The fields of an attachment's payload. -/
def attachmentFields (att : Attachment) : List Field :=
  stringFields AttachmentField.name.number att.name ++
    stringFields AttachmentField.mime.number att.mime ++
    [⟨AttachmentField.data.number.toNat, .bytes att.data⟩]

theorem message_attachmentPayload {att : Attachment}
    (h : (attachmentPayload att).length < 2 ^ 64) :
    Message attachmentSchema (attachmentPayload att) (attachmentFields att) := by
  have hdata : attachmentPayload att =
      writeString AttachmentField.name.number att.name ++
        writeString AttachmentField.mime.number att.mime ++
        writeBytes AttachmentField.data.number att.data := rfl
  rw [hdata] at h ⊢
  simp only [List.length_append] at h
  exact ((message_writeString rfl (by omega)).append (message_writeString rfl (by omega))).append
    (message_writeBytes rfl (by omega))

/-- The payload of an attachment decodes to the attachment. -/
theorem attachmentOf_payload {att : Attachment} (h : (attachmentPayload att).length < 2 ^ 64) :
    attachmentOf (attachmentPayload att) = att := by
  have hfold : (attachmentFields att).foldl Attachment.apply emptyAttachment = att := by
    obtain ⟨name, mime, data⟩ := att
    rw [attachmentFields, List.foldl_append, List.foldl_append, stringFields, stringFields]
    by_cases hname : name = [] <;> by_cases hmime : mime = [] <;>
      simp [hname, hmime, emptyAttachment, Attachment.apply, AttachmentField.ofNumber?,
        AttachmentField.number]
  rw [attachmentOf, decodeAttachment_of_message h (message_attachmentPayload h)]
  exact hfold

theorem length_le_writeAttachment (field : UInt32) (att : Attachment) :
    (attachmentPayload att).length ≤ (writeAttachment field att).length :=
  length_le_writeBytes field (attachmentPayload att)

theorem message_writeAttachment {S : Schema} {field : UInt32} (hk : S.kind field.toNat = .message)
    (hnested : ∀ s fs, Message attachmentSchema s fs → S.nested s) {att : Attachment}
    (h : (writeAttachment field att).length < 2 ^ 64) :
    Message S (writeAttachment field att) [⟨field.toNat, .bytes (attachmentPayload att)⟩] := by
  have hlen := Nat.lt_of_le_of_lt (length_le_writeAttachment field att) h
  have hraw : Raw S (writeTag field wireLenDelim ++ _)
      ⟨field.toNat, .bytes (attachmentPayload att)⟩ :=
    raw_writeTag (by decide) (by
      rw [hk]
      exact ⟨_, rfl, delimited_write hlen, hnested _ _ (message_attachmentPayload hlen)⟩)
  rw [writeAttachment, List.append_assoc]
  exact Message.singleton hraw

/-! ## Envelopes -/

/-- The fields in the order of their numbers. -/
def FieldName.all : List FieldName :=
  [.envelopeV, .verb, .conversationId, .inReplyTo, .originChannelId, .senderId, .senderSig,
    .sentAtMs, .nonce, .bodyMime, .body, .maxTokens, .maxWallMs, .maxCostUsdMicros, .attachments,
    .threadKey]

theorem FieldName.mem_all (name : FieldName) : name ∈ FieldName.all := by cases name <;> decide

theorem FieldName.nodup_all : FieldName.all.Nodup := by decide

theorem FieldName.ofNumber?_number (name : FieldName) :
    FieldName.ofNumber? name.number.toNat = some name := by cases name <;> rfl

theorem FieldName.number_injective : Function.Injective fun name : FieldName =>
    name.number.toNat := by
  intro a b h
  have := congrArg FieldName.ofNumber? h
  simpa only [FieldName.ofNumber?_number, Option.some.injEq] using this

theorem FieldName.number_of_ofNumber? {n : ℕ} {name : FieldName}
    (h : FieldName.ofNumber? n = some name) : n = name.number.toNat := by
  unfold FieldName.ofNumber? at h
  split at h <;> cases h <;> rfl

theorem envelopeSchema_kind (name : FieldName) :
    envelopeSchema.kind name.number.toNat = fieldKind name := by cases name <;> rfl

/-- The part of `doEncode` that writes one name. -/
def writeFor (env : Envelope) (includeSig : Bool) (name : FieldName) : Bytes :=
  match name with
  | .envelopeV => writeUint32 name.number env.envelopeV
  | .verb => writeEnum name.number env.verb.toUInt32
  | .conversationId => writeString name.number env.conversationId
  | .inReplyTo => writeOptional (writeString name.number) env.inReplyTo
  | .originChannelId => writeString name.number env.originChannelId
  | .senderId => writeString name.number env.senderId
  | .senderSig =>
    if includeSig then writeOptional (writeBytes name.number) env.senderSig else []
  | .sentAtMs => writeInt64 name.number env.sentAtMs
  | .nonce => writeOptional (writeBytes name.number) env.nonce
  | .bodyMime => writeString name.number env.bodyMime
  | .body => writeBytes name.number env.body
  | .maxTokens => writeOptional (writeUint32 name.number) env.maxTokens
  | .maxWallMs => writeOptional (writeUint32 name.number) env.maxWallMs
  | .maxCostUsdMicros => writeOptional (writeUint32 name.number) env.maxCostUsdMicros
  | .attachments => env.attachments.flatMap (writeAttachment name.number)
  | .threadKey => writeOptional (writeString name.number) env.threadKey

theorem doEncode_eq (env : Envelope) (includeSig : Bool) :
    doEncode env includeSig = FieldName.all.flatMap (writeFor env includeSig) := by
  simp only [FieldName.all, List.flatMap_cons, List.flatMap_nil, writeFor, doEncode, writeBytes,
    List.append_assoc, List.append_nil]

/-- The fields that the envelope has under one name, on the wire. -/
def fieldsFor (env : Envelope) (includeSig : Bool) (name : FieldName) : List Field :=
  let strings := stringFields name.number
  let bytes := fun s => [(⟨name.number.toNat, .bytes s⟩ : Field)]
  let numbers := fun v : UInt32 => numberFields name.number v.toUInt64
  match name with
  | .envelopeV => numbers env.envelopeV
  | .verb => numbers env.verb.toUInt32
  | .conversationId => strings env.conversationId
  | .inReplyTo => env.inReplyTo.elim [] strings
  | .originChannelId => strings env.originChannelId
  | .senderId => strings env.senderId
  | .senderSig => if includeSig then env.senderSig.elim [] bytes else []
  | .sentAtMs => numberFields name.number env.sentAtMs.toUInt64
  | .nonce => env.nonce.elim [] bytes
  | .bodyMime => strings env.bodyMime
  | .body => bytes env.body
  | .maxTokens => env.maxTokens.elim [] numbers
  | .maxWallMs => env.maxWallMs.elim [] numbers
  | .maxCostUsdMicros => env.maxCostUsdMicros.elim [] numbers
  | .attachments => env.attachments.flatMap fun att => bytes (attachmentPayload att)
  | .threadKey => env.threadKey.elim [] strings

/-- The fields of the whole message. -/
def encodedFields (env : Envelope) (includeSig : Bool) : List Field :=
  FieldName.all.flatMap (fieldsFor env includeSig)

/-- A part is no longer than the whole. -/
theorem length_le_flatMap {α : Type} (f : α → Bytes) {l : List α} {x : α} (hx : x ∈ l) :
    (f x).length ≤ (l.flatMap f).length := by
  induction l with
  | nil => cases hx
  | cons y l ih =>
    rw [List.flatMap_cons, List.length_append]
    rcases List.mem_cons.mp hx with rfl | hx
    · omega
    · have := ih hx
      omega

theorem message_writeFor {env : Envelope} {includeSig : Bool} {name : FieldName}
    (h : (writeFor env includeSig name).length < 2 ^ 64) :
    Message envelopeSchema (writeFor env includeSig name) (fieldsFor env includeSig name) := by
  have hstring {fld : FieldName} {x : Option Bytes} (hk : fieldKind fld = .bytes)
      (hlen : (writeOptional (writeString fld.number) x).length < 2 ^ 64) :
      Message envelopeSchema (writeOptional (writeString fld.number) x)
        (x.elim [] (stringFields fld.number)) :=
    message_writeOptional fun v hv => message_writeString ((envelopeSchema_kind fld).trans hk) (by
      rw [hv] at hlen
      exact hlen)
  have hbytes {fld : FieldName} {x : Option Bytes} (hk : fieldKind fld = .bytes)
      (hlen : (writeOptional (writeBytes fld.number) x).length < 2 ^ 64) :
      Message envelopeSchema (writeOptional (writeBytes fld.number) x)
        (x.elim [] fun s => [⟨fld.number.toNat, .bytes s⟩]) :=
    message_writeOptional fun v hv => message_writeBytes ((envelopeSchema_kind fld).trans hk) (by
      rw [hv] at hlen
      exact hlen)
  cases name with
  | envelopeV => exact message_writeUint32 rfl _
  | verb =>
    have hbound : env.verb.toUInt32.toNat < 10 := by cases env.verb <;> decide
    exact message_writeEnum (envelopeSchema_kind .verb) hbound
  | conversationId => exact message_writeString rfl h
  | inReplyTo => exact hstring rfl h
  | originChannelId => exact message_writeString rfl h
  | senderId => exact message_writeString rfl h
  | senderSig =>
    cases includeSig with
    | false => exact Message.nil
    | true => exact hbytes rfl h
  | sentAtMs => exact message_writeInt64 rfl _
  | nonce => exact hbytes rfl h
  | bodyMime => exact message_writeString rfl h
  | body => exact message_writeBytes rfl h
  | maxTokens => exact message_writeOptional fun v _ => message_writeUint32 rfl v
  | maxWallMs => exact message_writeOptional fun v _ => message_writeUint32 rfl v
  | maxCostUsdMicros => exact message_writeOptional fun v _ => message_writeUint32 rfl v
  | attachments =>
    have hnested : ∀ s fs, Message attachmentSchema s fs → envelopeSchema.nested s :=
      fun s fs hs => ⟨fs, hs⟩
    refine Message.flatMap fun att hatt => message_writeAttachment rfl hnested ?_
    exact Nat.lt_of_le_of_lt (length_le_flatMap (writeAttachment _) hatt) h
  | threadKey => exact hstring rfl h

/-- **The encoder writes a message.** -/
theorem message_doEncode {env : Envelope} {includeSig : Bool}
    (h : (doEncode env includeSig).length < 2 ^ 64) :
    Message envelopeSchema (doEncode env includeSig) (encodedFields env includeSig) := by
  rw [doEncode_eq] at h ⊢
  exact Message.flatMap fun name hname =>
    message_writeFor (Nat.lt_of_le_of_lt (length_le_flatMap (writeFor env includeSig) hname) h)

/-! ## Room for the encoding -/

theorem length_writeVarint_le (v : UInt64) : (writeVarint v).length ≤ 10 :=
  (varint_writeVarint v).2.1

theorem length_writeTag_le (field wire : UInt32) : (writeTag field wire).length ≤ 10 :=
  length_writeVarint_le _

theorem length_writeBytes_le (field : UInt32) (s : Bytes) :
    (writeBytes field s).length ≤ 20 + s.length := by
  have htag := length_writeTag_le field wireLenDelim
  have hlen := length_writeVarint_le (UInt64.ofNat s.length)
  rw [writeBytes, List.length_append, List.length_append]
  omega

theorem length_writeString_le (field : UInt32) (s : Bytes) :
    (writeString field s).length ≤ 20 + s.length := by
  have hbytes := length_writeBytes_le field s
  rw [writeString]
  split
  · simp
  · exact hbytes

theorem length_writeNumber_le (field : UInt32) (v : UInt64) :
    (writeTag field wireVarint ++ writeVarint v).length ≤ 20 := by
  have htag := length_writeTag_le field wireVarint
  have hlen := length_writeVarint_le v
  rw [List.length_append]
  omega

theorem length_writeUint32_le (field v : UInt32) : (writeUint32 field v).length ≤ 20 := by
  rw [writeUint32]
  split
  · simp
  · exact length_writeNumber_le field _

theorem length_writeOptional_le {α : Type} {write : α → Bytes} {size : α → ℕ}
    (h : ∀ v, (write v).length ≤ 20 + size v) (x : Option α) :
    (writeOptional write x).length ≤ 20 + (x.elim 0 size) := by
  cases x with
  | none => simp [writeOptional]
  | some v => exact h v

/-- Room for an attachment. -/
def attachmentRoom (att : Attachment) : ℕ :=
  80 + (att.name.length + att.mime.length + att.data.length)

theorem length_writeAttachment_le (field : UInt32) (att : Attachment) :
    (writeAttachment field att).length ≤ attachmentRoom att := by
  have hname := length_writeString_le AttachmentField.name.number att.name
  have hmime := length_writeString_le AttachmentField.mime.number att.mime
  have hdata := length_writeBytes_le AttachmentField.data.number att.data
  have hpay : attachmentPayload att =
      writeString AttachmentField.name.number att.name ++
        writeString AttachmentField.mime.number att.mime ++
        writeBytes AttachmentField.data.number att.data := rfl
  refine (length_writeBytes_le field (attachmentPayload att)).trans ?_
  rw [hpay, List.length_append, List.length_append, attachmentRoom]
  omega

/-- What a field carries besides its tag and its length or number. -/
def contentLength (env : Envelope) : FieldName → ℕ
  | .conversationId => env.conversationId.length
  | .inReplyTo => env.inReplyTo.elim 0 List.length
  | .originChannelId => env.originChannelId.length
  | .senderId => env.senderId.length
  | .senderSig => env.senderSig.elim 0 List.length
  | .nonce => env.nonce.elim 0 List.length
  | .bodyMime => env.bodyMime.length
  | .body => env.body.length
  | .attachments => (env.attachments.map attachmentRoom).sum
  | .threadKey => env.threadKey.elim 0 List.length
  | _ => 0

theorem length_writeFor_le (env : Envelope) (includeSig : Bool) (name : FieldName) :
    (writeFor env includeSig name).length ≤ 20 + contentLength env name := by
  have hnumber (x : Option UInt32) (field : UInt32) :
      (writeOptional (writeUint32 field) x).length ≤ 20 := by
    cases x with
    | none => simp [writeOptional]
    | some v => exact length_writeUint32_le field v
  cases name with
  | envelopeV => exact length_writeUint32_le _ _
  | verb => exact length_writeUint32_le _ _
  | sentAtMs =>
    rw [writeFor, writeInt64]
    split
    · simp
    · exact (length_writeNumber_le _ _).trans (by omega)
  | conversationId | originChannelId | senderId | bodyMime => exact length_writeString_le _ _
  | inReplyTo | threadKey => exact length_writeOptional_le (length_writeString_le _) _
  | nonce => exact length_writeOptional_le (length_writeBytes_le _) _
  | body => exact length_writeBytes_le _ _
  | maxTokens | maxWallMs | maxCostUsdMicros => exact hnumber _ _
  | senderSig =>
    cases includeSig with
    | false => simp [writeFor]
    | true => exact length_writeOptional_le (length_writeBytes_le _) _
  | attachments =>
    have hsum : ((env.attachments.map fun att =>
        (writeAttachment FieldName.attachments.number att).length)).sum ≤
        (env.attachments.map attachmentRoom).sum :=
      List.sum_le_sum fun att _ => length_writeAttachment_le _ att
    rw [writeFor, List.length_flatMap, contentLength]
    omega

/-- **Room for the encoding.**  Twenty bytes a field, and what the fields carry. -/
theorem length_doEncode_le (env : Envelope) (includeSig : Bool) :
    (doEncode env includeSig).length ≤
      (FieldName.all.map fun name => 20 + contentLength env name).sum := by
  rw [doEncode_eq, List.length_flatMap]
  exact List.sum_le_sum fun name _ => length_writeFor_le env includeSig name

end Envelope
end TigerClaw
