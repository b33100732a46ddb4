import TigerClaw.Envelope.Fields
import TigerClaw.Envelope.Safety

/-!
# There and back again

What is left of an envelope after it was written and read, for every envelope.  `written` is the
answer: the writers leave out an optional string that is present and empty and an optional number
that is present and zero, and the decoder reads what was left out as absent.

* `decode_doEncode`: the decoder reads `written env` off the encoding of `env`, and checks it.
* `encode_decode`: an envelope from the builder comes back, when it has no such option.
* `canonicalBytes_determine_iff`: two envelopes from the builder share their canonical bytes
  exactly when they differ in such options alone.
* `relay_stable_iff`: what the decoder accepted survives being passed on exactly when the last
  word of the message on every name that can be left out is not the one that is left out.
-/

namespace TigerClaw
namespace Envelope

open WireFormat

/-! ## What the wire keeps -/

/-- What the decoder reads where `env` was written. -/
def written (env : Envelope) (includeSig : Bool) : Envelope :=
  { env with
    inReplyTo := env.inReplyTo.filter (· ≠ [])
    senderSig := if includeSig then env.senderSig else none
    bodyMime := if env.bodyMime = [] then ascii "application/json" else env.bodyMime
    maxTokens := env.maxTokens.filter (· ≠ 0)
    maxWallMs := env.maxWallMs.filter (· ≠ 0)
    maxCostUsdMicros := env.maxCostUsdMicros.filter (· ≠ 0)
    threadKey := env.threadKey.filter (· ≠ []) }

/-- The local variables of `decode` at the end of the encoding of `env`. -/
def writtenState (env : Envelope) (includeSig : Bool) : DecodeState where
  env := { written env includeSig with attachments := [] }
  attachmentsList := env.attachments
  sawConv := decide (env.conversationId ≠ [])
  sawOrigin := decide (env.originChannelId ≠ [])
  sawSender := decide (env.senderId ≠ [])

theorem number_of_mem_fieldsFor {env : Envelope} {includeSig : Bool} {name : FieldName}
    {f : Field} (h : f ∈ fieldsFor env includeSig name) : f.number = name.number.toNat := by
  have hstring {n : UInt32} {s : Bytes} (h : f ∈ stringFields n s) : f.number = n.toNat := by
    rw [stringFields] at h
    split at h <;> simp_all
  have hnumber {n : UInt32} {v : UInt64} (h : f ∈ numberFields n v) : f.number = n.toNat := by
    rw [numberFields] at h
    split at h <;> simp_all
  have helim {α : Type} {x : Option α} {fields : α → List Field}
      (hf : ∀ v, f ∈ fields v → f.number = name.number.toNat) (h : f ∈ x.elim [] fields) :
      f.number = name.number.toNat := by
    cases x with
    | none => cases h
    | some v => exact hf v h
  unfold fieldsFor at h
  cases name with
  | envelopeV | verb | sentAtMs => exact hnumber h
  | conversationId | originChannelId | senderId | bodyMime => exact hstring h
  | inReplyTo | threadKey => exact helim (fun _ => hstring) h
  | maxTokens | maxWallMs | maxCostUsdMicros => exact helim (fun _ => hnumber) h
  | nonce =>
    exact helim (fun _ hf => by simpa using congrArg Field.number (List.mem_singleton.mp hf)) h
  | body => simpa using congrArg Field.number (List.mem_singleton.mp h)
  | senderSig =>
    cases includeSig with
    | false => cases h
    | true =>
      exact helim (fun _ hf => by simpa using congrArg Field.number (List.mem_singleton.mp hf)) h
  | attachments =>
    obtain ⟨att, -, hf⟩ := List.mem_flatMap.mp h
    simpa using congrArg Field.number (List.mem_singleton.mp hf)

theorem payloads_encodedFields (env : Envelope) (includeSig : Bool) (name : FieldName) :
    payloads (encodedFields env includeSig) name =
      (fieldsFor env includeSig name).map Field.value :=
  values_flatMap FieldName.number_injective (fun _ _ => number_of_mem_fieldsFor)
    FieldName.nodup_all (FieldName.mem_all name)

/-! Every kind of writer, read back. -/

theorem lastBytes_stringFields (n : UInt32) (s : Bytes) :
    lastBytes ((stringFields n s).map Field.value) = if s = [] then none else some s := by
  rw [stringFields]
  split <;> rfl

theorem lastNumber_numberFields (n : UInt32) (v : UInt64) :
    lastNumber ((numberFields n v).map Field.value) = if v = 0 then none else some v := by
  rw [numberFields]
  split <;> rfl

theorem lastBytes_optionalString (n : UInt32) (x : Option Bytes) :
    lastBytes ((x.elim [] (stringFields n)).map Field.value) = x.filter (· ≠ []) := by
  cases x with
  | none => rfl
  | some s =>
    rw [Option.elim_some, lastBytes_stringFields]
    by_cases hs : s = [] <;> simp [hs, Option.filter]

theorem lastBytes_optionalBytes (n : UInt32) (x : Option Bytes) :
    lastBytes ((x.elim [] fun s => [⟨n.toNat, .bytes s⟩]).map Field.value) = x := by
  cases x <;> rfl

theorem lastNumber_optional (n : UInt32) (x : Option UInt32) :
    (lastNumber ((x.elim [] fun v => numberFields n v.toUInt64).map Field.value)).map
      UInt64.toUInt32 = x.filter (· ≠ 0) := by
  cases x with
  | none => rfl
  | some v =>
    rw [Option.elim_some, lastNumber_numberFields]
    by_cases hv : v = 0
    · simp [hv, Option.filter]
    · have hv' : v.toUInt64 ≠ 0 := fun h => hv (by simpa using congrArg UInt64.toUInt32 h)
      simp [hv, hv', Option.filter]

/-- A number that is left out when it is the decoder's initial value. -/
theorem lastNumber_getD {α : Type} (n : UInt32) (v : UInt64) (f : UInt64 → α) :
    ((lastNumber ((numberFields n v).map Field.value)).map f).getD (f 0) = f v := by
  rw [lastNumber_numberFields]
  by_cases hv : v = 0 <;> simp [hv]

theorem lastBytes_getD (n : UInt32) (s d : Bytes) :
    (lastBytes ((stringFields n s).map Field.value)).getD d = if s = [] then d else s := by
  rw [lastBytes_stringFields]
  split <;> rfl

theorem isEmpty_stringFields (n : UInt32) (s : Bytes) :
    (!((stringFields n s).map Field.value).isEmpty) = decide (s ≠ []) := by
  rw [stringFields]
  by_cases hs : s = [] <;> simp [hs]

theorem verbOf_toUInt32 (verb : Verb) : verbOf verb.toUInt32.toUInt64 = verb := by
  cases verb <;> rfl

theorem map_attachmentOf {l : List Attachment}
    (h : ∀ att ∈ l, (attachmentPayload att).length < 2 ^ 64) (n : ℕ) :
    (((l.flatMap fun att => [(⟨n, .bytes (attachmentPayload att)⟩ : Field)]).map
      Field.value).filterMap fun x => (bytesOf x).map attachmentOf) = l := by
  induction l with
  | nil => rfl
  | cons att l ih =>
    rw [List.flatMap_cons, List.map_append, List.filterMap_append,
      ih fun b hb => h b (List.mem_cons_of_mem att hb)]
    simp [bytesOf, attachmentOf_payload (h att List.mem_cons_self)]

theorem length_attachmentPayload_lt {env : Envelope} {includeSig : Bool}
    (h : (doEncode env includeSig).length < 2 ^ 64) {att : Attachment}
    (hatt : att ∈ env.attachments) : (attachmentPayload att).length < 2 ^ 64 := by
  have hpart := length_le_flatMap (writeFor env includeSig) (FieldName.mem_all .attachments)
  have hone := length_le_flatMap (writeAttachment FieldName.attachments.number) hatt
  have hpay := length_le_writeAttachment FieldName.attachments.number att
  rw [doEncode_eq] at h
  have hfor : writeFor env includeSig .attachments =
    env.attachments.flatMap (writeAttachment FieldName.attachments.number) := rfl
  rw [hfor] at hpart
  omega

theorem stateOf_encodedFields {env : Envelope} {includeSig : Bool}
    (h : (doEncode env includeSig).length < 2 ^ 64) :
    stateOf (payloads (encodedFields env includeSig)) = writtenState env includeSig := by
  have hsig : lastBytes ((fieldsFor env includeSig .senderSig).map Field.value) =
      if includeSig then env.senderSig else none := by
    cases includeSig with
    | false => rfl
    | true => exact lastBytes_optionalBytes _ env.senderSig
  have hverb : ((lastNumber ((fieldsFor env includeSig .verb).map Field.value)).map verbOf).getD
      .unspecified = env.verb :=
    (lastNumber_getD _ _ verbOf).trans (verbOf_toUInt32 env.verb)
  have hversion : ((lastNumber ((fieldsFor env includeSig .envelopeV).map Field.value)).map
      UInt64.toUInt32).getD 0 = env.envelopeV :=
    (lastNumber_getD _ _ UInt64.toUInt32).trans (UInt32.toUInt32_toUInt64 env.envelopeV)
  have hsent : ((lastNumber ((fieldsFor env includeSig .sentAtMs).map Field.value)).map
      UInt64.toInt64).getD 0 = env.sentAtMs :=
    (lastNumber_getD _ _ UInt64.toInt64).trans (Int64.toInt64_toUInt64 env.sentAtMs)
  have hstring (s : Bytes) : (if s = [] then [] else s) = s := by split <;> simp_all
  have hattach := map_attachmentOf
    (fun _ hatt => length_attachmentPayload_lt h hatt)
    FieldName.attachments.number.toNat
  simp only [stateOf, payloads_encodedFields, hsig, hverb, hversion, hsent]
  simp only [fieldsFor, lastBytes_getD, lastBytes_optionalString, lastBytes_optionalBytes,
    lastNumber_optional, isEmpty_stringFields, hattach, hstring]
  rfl

/-! ## Reading back what was written -/

/-- **The decoder reads `written env`**, and then makes its checks. -/
theorem decode_doEncode {a : Allocator} {env : Envelope} {includeSig : Bool}
    (h : (doEncode env includeSig).length < 2 ^ 64)
    (ha : a.Serves (doEncode env includeSig).length) :
    decode a ⟨doEncode env includeSig, h⟩ = finish a (writtenState env includeSig) := by
  have hmsg := message_doEncode h
  rw [decode_of_message (b := ⟨_, h⟩) ha hmsg, foldl_apply_of_message hmsg,
    stateOf_encodedFields h]

/-- The encoder hands `env'` to the decoder when it is given `env`. -/
def Passes (a a' : Allocator) (env : Envelope) (includeSig : Bool) (env' : Envelope) : Prop :=
  ∃ bytes, encode a env includeSig = .ok bytes ∧ decode a' bytes = .ok env'

theorem encode_of_serves {a : Allocator} {env : Envelope} {includeSig : Bool}
    (ha : a.Serves (doEncode env includeSig).length) :
    ∃ h, encode a env includeSig = .ok ⟨doEncode env includeSig, h⟩ := by
  obtain ⟨hgrow, hown⟩ := ha _ le_rfl
  refine ⟨a.grow_lt _ hgrow, ?_⟩
  rw [encode, dif_pos hgrow, if_pos hown]

theorem finish_eq_ok {a : Allocator} {st : DecodeState} {env : Envelope} :
    finish a st = .ok env ↔
      st.env.envelopeV = envelopeVersion ∧
        (st.sawConv = true ∧ st.sawOrigin = true ∧ st.sawSender = true) ∧
        st.env.verb ≠ .unspecified ∧ a.own st.attachmentsList.length = true ∧
        env = { st.env with attachments := st.attachmentsList } := by
  unfold finish
  by_cases hversion : st.env.envelopeV = envelopeVersion
  · rw [if_neg (not_not.mpr hversion)]
    by_cases hsaw : st.sawConv = true ∧ st.sawOrigin = true ∧ st.sawSender = true
    · rw [if_neg (by simp [hsaw])]
      by_cases hverb : st.env.verb = .unspecified
      · rw [if_pos hverb]
        simp [hverb]
      · rw [if_neg hverb]
        by_cases hown : a.own st.attachmentsList.length = true
        · rw [if_pos hown]
          simp only [hversion, hsaw, hverb, hown, Outcome.ok.injEq, ne_eq, not_false_eq_true,
            and_self, true_and]
          exact eq_comm
        · rw [if_neg hown]
          simp [hown]
    · have hmissing : (!st.sawConv || !st.sawOrigin || !st.sawSender) = true := by
        cases hc : st.sawConv <;> cases ho : st.sawOrigin <;> cases hs : st.sawSender <;> simp_all
      rw [if_pos hmissing]
      simp [hsaw]
  · rw [if_pos hversion]
    simp [hversion]

/-- No list of attachments is longer than its encoding. -/
theorem length_attachments_le (env : Envelope) (includeSig : Bool) :
    env.attachments.length ≤ (doEncode env includeSig).length := by
  have hone (l : List Attachment) :
      l.length ≤ (l.flatMap (writeAttachment FieldName.attachments.number)).length := by
    induction l with
    | nil => exact le_rfl
    | cons att l ih =>
      have hpos := (varint_writeVarint
        ((FieldName.attachments.number.toUInt64 <<< 3) ||| wireLenDelim.toUInt64)).length_pos
      rw [List.flatMap_cons, List.length_append, List.length_cons, writeAttachment, writeTag,
        List.length_append, List.length_append]
      omega
  have hpart := length_le_flatMap (writeFor env includeSig) (FieldName.mem_all .attachments)
  rw [doEncode_eq]
  exact (hone env.attachments).trans hpart

/-- **What passes**, for an envelope of this version with a verb. -/
theorem passes_iff {a a' : Allocator} {env env' : Envelope} {includeSig : Bool}
    (hversion : env.envelopeV = envelopeVersion) (hverb : env.verb ≠ .unspecified)
    (ha : a.Serves (doEncode env includeSig).length)
    (ha' : a'.Serves (doEncode env includeSig).length) :
    Passes a a' env includeSig env' ↔
      (env.conversationId ≠ [] ∧ env.originChannelId ≠ [] ∧ env.senderId ≠ []) ∧
        env' = written env includeSig := by
  obtain ⟨h, henc⟩ := encode_of_serves ha
  have hpass : Passes a a' env includeSig env' ↔
      finish a' (writtenState env includeSig) = .ok env' := by
    rw [Passes, henc]
    constructor
    · rintro ⟨bytes, hb, hdec⟩
      obtain rfl := Except.ok.inj hb
      rw [← hdec, decode_doEncode h ha']
    · intro hfin
      exact ⟨_, rfl, (decode_doEncode h ha').trans hfin⟩
  have hown := (ha' _ (length_attachments_le env includeSig)).2
  rw [hpass, finish_eq_ok]
  simp [writtenState, written, hversion, hverb, hown]

/-! ## Options that are present with their default -/

/-- No option is present and empty, or present and zero. -/
structure StrictOptions (env : Envelope) : Prop where
  inReplyTo : env.inReplyTo ≠ some []
  threadKey : env.threadKey ≠ some []
  maxTokens : env.maxTokens ≠ some 0
  maxWallMs : env.maxWallMs ≠ some 0
  maxCostUsdMicros : env.maxCostUsdMicros ≠ some 0

section Filter

variable {α : Type} [DecidableEq α] {d : α}

theorem filter_ne_eq_self {x : Option α} : x.filter (· ≠ d) = x ↔ x ≠ some d := by
  cases x with
  | none => simp
  | some v => by_cases hv : v = d <;> simp [Option.filter, hv]

/-- Two options look the same without their default exactly when they look the same with it. -/
theorem filter_ne_eq_iff {x y : Option α} :
    x.filter (· ≠ d) = y.filter (· ≠ d) ↔ x.getD d = y.getD d := by
  cases x with
  | none =>
    cases y with
    | none => simp
    | some w =>
      by_cases hw : w = d
      · simp [Option.filter, hw]
      · simpa [Option.filter, hw] using fun h => hw h.symm
  | some v =>
    cases y with
    | none => by_cases hv : v = d <;> simp [Option.filter, hv]
    | some w =>
      by_cases hv : v = d <;> by_cases hw : w = d <;> simp [Option.filter, hv, hw]
      exact fun h => hw h.symm

end Filter

theorem written_eq_self_iff {env : Envelope} :
    written env true = env ↔ StrictOptions env ∧ env.bodyMime ≠ [] := by
  have hmime : (if env.bodyMime = [] then ascii "application/json" else env.bodyMime) =
      env.bodyMime ↔ env.bodyMime ≠ [] := by
    by_cases h : env.bodyMime = []
    · rw [if_pos h, h]
      simp [ascii]
    · simp [h]
  constructor
  · intro h
    refine ⟨⟨?_, ?_, ?_, ?_, ?_⟩, hmime.mp (congrArg Envelope.bodyMime h)⟩
    · exact filter_ne_eq_self.mp (congrArg Envelope.inReplyTo h)
    · exact filter_ne_eq_self.mp (congrArg Envelope.threadKey h)
    · exact filter_ne_eq_self.mp (congrArg Envelope.maxTokens h)
    · exact filter_ne_eq_self.mp (congrArg Envelope.maxWallMs h)
    · exact filter_ne_eq_self.mp (congrArg Envelope.maxCostUsdMicros h)
  · rintro ⟨h, hm⟩
    rw [written, filter_ne_eq_self.mpr h.inReplyTo, filter_ne_eq_self.mpr h.threadKey,
      filter_ne_eq_self.mpr h.maxTokens, filter_ne_eq_self.mpr h.maxWallMs,
      filter_ne_eq_self.mpr h.maxCostUsdMicros, hmime.mpr hm]
    rfl

/-- Leaving the signature out loses the signature. -/
theorem written_false {env : Envelope} (h : written env true = env) :
    written env false = { env with senderSig := none } := by
  have hsplit : written env false = { written env true with senderSig := none } := rfl
  rw [hsplit, h]

/-! ## Envelopes from the builder -/

/-- An envelope that the builder accepted, with or without a signature put on it afterwards. -/
def Signed (env : Envelope) : Prop := Accepted { env with senderSig := none }

/-- What the builder checked is still so once the signature is on. -/
theorem Signed.checked {env : Envelope} (h : Signed env) :
    env.envelopeV = envelopeVersion ∧ env.verb ≠ .unspecified ∧
      (env.conversationId ≠ [] ∧ env.originChannelId ≠ [] ∧ env.senderId ≠ []) ∧
      env.bodyMime ≠ [] := by
  have hvalid := Accepted.valid h
  exact ⟨hvalid.envelopeV, hvalid.verb,
    ⟨hvalid.conversationId, hvalid.originChannelId, hvalid.senderId⟩, hvalid.bodyMime⟩

/-- **Envelopes from the builder come back.** -/
theorem encode_decode {env : Envelope} (h : Signed env) (hopt : StrictOptions env)
    {a a' : Allocator} {includeSig : Bool} (ha : a.Serves (doEncode env includeSig).length)
    (ha' : a'.Serves (doEncode env includeSig).length) :
    Passes a a' env includeSig (if includeSig then env else { env with senderSig := none }) := by
  obtain ⟨hversion, hverb, hids, hmime⟩ := h.checked
  have hself : written env true = env := written_eq_self_iff.mpr ⟨hopt, hmime⟩
  refine (passes_iff hversion hverb ha ha').mpr ⟨hids, ?_⟩
  cases includeSig with
  | true => exact hself.symm
  | false => exact (written_false hself).symm

/-- A message with a signature and a nonce that are present and empty. -/
def greeting : Envelope where
  verb := .userMsg
  conversationId := ascii "c"
  originChannelId := ascii "o"
  senderId := ascii "s"
  senderSig := some []
  sentAtMs := 1
  nonce := some []
  bodyMime := ascii "text/plain"
  body := []
  maxTokens := some 300
  attachments := [{ name := [], mime := [], data := [0xff] }]

theorem signed_greeting : Signed greeting :=
  ⟨[.verb .userMsg, .conversationId (ascii "c"), .originChannelId (ascii "o"),
    .senderId (ascii "s"), .sentAtMs 1, .nonce [], .bodyMime (ascii "text/plain"), .body [],
    .maxTokens 300, .attachments [{ name := [], mime := [], data := [0xff] }]], rfl⟩

theorem ample_serves_greeting (includeSig : Bool) :
    Allocator.ample.Serves (doEncode greeting includeSig).length :=
  Allocator.ample_serves ((length_doEncode_le greeting includeSig).trans_lt (by decide))

theorem encode_decode_greeting :
    Passes .ample .ample greeting true greeting ∧
      Passes .ample .ample greeting false { greeting with senderSig := none } :=
  ⟨encode_decode signed_greeting (by constructor <;> decide) (ample_serves_greeting true)
      (ample_serves_greeting true),
    encode_decode signed_greeting (by constructor <;> decide) (ample_serves_greeting false)
      (ample_serves_greeting false)⟩

/-! ## Canonical bytes -/

/-- Equal but for the signature. -/
def AgreeExceptSig (env env' : Envelope) : Prop :=
  { env with senderSig := none } = { env' with senderSig := none }

/-- The envelope without its signature and without the options that the writers may leave out. -/
def bare (env : Envelope) : Envelope :=
  { env with
    senderSig := none
    inReplyTo := none
    threadKey := none
    maxTokens := none
    maxWallMs := none
    maxCostUsdMicros := none }

/-- Equal but for the signature, when an absent option counts as one with its default. -/
structure SameUpToDefaults (env env' : Envelope) : Prop where
  bare : bare env = bare env'
  inReplyTo : env.inReplyTo.getD [] = env'.inReplyTo.getD []
  threadKey : env.threadKey.getD [] = env'.threadKey.getD []
  maxTokens : env.maxTokens.getD 0 = env'.maxTokens.getD 0
  maxWallMs : env.maxWallMs.getD 0 = env'.maxWallMs.getD 0
  maxCostUsdMicros : env.maxCostUsdMicros.getD 0 = env'.maxCostUsdMicros.getD 0

/-- An option is absent in one of the envelopes and not in the other, or has two values. -/
def OptionsDiffer (env env' : Envelope) : Prop :=
  env.inReplyTo ≠ env'.inReplyTo ∨ env.threadKey ≠ env'.threadKey ∨
    env.maxTokens ≠ env'.maxTokens ∨ env.maxWallMs ≠ env'.maxWallMs ∨
    env.maxCostUsdMicros ≠ env'.maxCostUsdMicros

theorem agreeExceptSig_iff {env env' : Envelope} :
    AgreeExceptSig env env' ↔ bare env = bare env' ∧ ¬ OptionsDiffer env env' := by
  simp only [AgreeExceptSig, bare, OptionsDiffer, Envelope.mk.injEq, not_or, not_not]
  tauto

theorem written_eq_written_iff {env env' : Envelope} (h : env.bodyMime ≠ [])
    (h' : env'.bodyMime ≠ []) :
    written env false = written env' false ↔ SameUpToDefaults env env' := by
  have hsplit : SameUpToDefaults env env' ↔
      bare env = bare env' ∧ env.inReplyTo.getD [] = env'.inReplyTo.getD [] ∧
        env.threadKey.getD [] = env'.threadKey.getD [] ∧
        env.maxTokens.getD 0 = env'.maxTokens.getD 0 ∧
        env.maxWallMs.getD 0 = env'.maxWallMs.getD 0 ∧
        env.maxCostUsdMicros.getD 0 = env'.maxCostUsdMicros.getD 0 :=
    ⟨fun ⟨h₁, h₂, h₃, h₄, h₅, h₆⟩ => ⟨h₁, h₂, h₃, h₄, h₅, h₆⟩,
      fun ⟨h₁, h₂, h₃, h₄, h₅, h₆⟩ => ⟨h₁, h₂, h₃, h₄, h₅, h₆⟩⟩
  rw [hsplit]
  simp only [written, bare, Envelope.mk.injEq, if_neg h, if_neg h', filter_ne_eq_iff]
  tauto

/-- What the wire does not keep is not on the wire. -/
theorem doEncode_written {env : Envelope} (h : env.bodyMime ≠ []) :
    doEncode (written env false) false = doEncode env false := by
  have hstring (n : UInt32) (x : Option Bytes) :
      writeOptional (writeString n) (x.filter (· ≠ [])) = writeOptional (writeString n) x := by
    cases x with
    | none => rfl
    | some s => by_cases hs : s = [] <;> simp [Option.filter, hs, writeOptional, writeString]
  have hnumber (n : UInt32) (x : Option UInt32) :
      writeOptional (writeUint32 n) (x.filter (· ≠ 0)) = writeOptional (writeUint32 n) x := by
    cases x with
    | none => rfl
    | some v => by_cases hv : v = 0 <;> simp [Option.filter, hv, writeOptional, writeUint32]
  simp only [doEncode, written, if_neg h, hstring, hnumber, Bool.false_eq_true, if_false]

/-- **Canonical bytes determine what the wire keeps**, and nothing else. -/
theorem canonicalBytes_eq_iff {a a' : Allocator} {env env' : Envelope} (h : Signed env)
    (h' : Signed env') {b b' : Slice} (hb : canonicalBytes a env = .ok b)
    (hb' : canonicalBytes a' env' = .ok b') : b = b' ↔ SameUpToDefaults env env' := by
  obtain ⟨hversion, hverb, hids, hmime⟩ := h.checked
  obtain ⟨hversion', hverb', hids', hmime'⟩ := h'.checked
  have hbytes {a : Allocator} {env : Envelope} {b : Slice} (hb : canonicalBytes a env = .ok b) :
      b.1 = doEncode env false := by
    rw [canonicalBytes, encode] at hb
    split at hb
    · split at hb
      · rw [← Except.ok.inj hb]
      · cases hb
    · cases hb
  have hread {env : Envelope} {b : Slice} (hversion : env.envelopeV = envelopeVersion)
      (hverb : env.verb ≠ .unspecified) (hb : b.1 = doEncode env false)
      (hids : env.conversationId ≠ [] ∧ env.originChannelId ≠ [] ∧ env.senderId ≠ []) :
      decode .ample b = .ok (written env false) := by
    have hserve := Allocator.ample_serves (hb ▸ b.2)
    obtain ⟨bytes, henc, hdec⟩ := (passes_iff hversion hverb hserve hserve).mpr ⟨hids, rfl⟩
    have hcanon := hbytes (show canonicalBytes Allocator.ample env = .ok bytes from henc)
    rwa [show b = bytes from Subtype.ext (hb.trans hcanon.symm)]
  have hval : b = b' ↔ b.1 = b'.1 := Subtype.ext_iff
  rw [← written_eq_written_iff hmime hmime', hval, hbytes hb, hbytes hb']
  constructor
  · intro heq
    have hdec := hread hversion hverb (hbytes hb) hids
    rw [hread hversion' hverb' ((hbytes hb).trans heq) hids'] at hdec
    exact (Outcome.ok.inj hdec).symm
  · intro heq
    rw [← doEncode_written hmime, heq, doEncode_written hmime']

/-- **Equal canonical bytes mean equal content** exactly for envelopes that do not differ in
left-out options alone. -/
theorem canonicalBytes_determine_iff {a a' : Allocator} {env env' : Envelope} (h : Signed env)
    (h' : Signed env') {b b' : Slice} (hb : canonicalBytes a env = .ok b)
    (hb' : canonicalBytes a' env' = .ok b') :
    (b = b' → AgreeExceptSig env env') ↔
      ¬ (SameUpToDefaults env env' ∧ OptionsDiffer env env') := by
  rw [canonicalBytes_eq_iff h h' hb hb', agreeExceptSig_iff]
  constructor
  · rintro hagree ⟨hsame, hdiffer⟩
    exact (hagree hsame).2 hdiffer
  · exact fun hnot hsame => ⟨hsame.bare, fun hdiffer => hnot ⟨hsame, hdiffer⟩⟩

/-- The greeting as a reply to nothing in particular. -/
def emptyReply : Envelope := { greeting with inReplyTo := some [] }

theorem signed_emptyReply : Signed emptyReply :=
  ⟨[.verb .userMsg, .conversationId (ascii "c"), .inReplyTo [], .originChannelId (ascii "o"),
    .senderId (ascii "s"), .sentAtMs 1, .nonce [], .bodyMime (ascii "text/plain"), .body [],
    .maxTokens 300, .attachments [{ name := [], mime := [], data := [0xff] }]], rfl⟩

theorem canonicalBytes_greeting : ∃ b, canonicalBytes .ample greeting = .ok b :=
  ⟨_, (encode_of_serves (ample_serves_greeting false)).choose_spec⟩

/-- The writers make no difference between the two. -/
theorem canonicalBytes_emptyReply :
    canonicalBytes .ample emptyReply = canonicalBytes .ample greeting := by
  have hbytes : doEncode emptyReply false = doEncode greeting false := rfl
  simp only [canonicalBytes, encode, hbytes]

theorem canonicalBytes_determine_greeting :
    ∃ b b', canonicalBytes .ample greeting = .ok b ∧ canonicalBytes .ample emptyReply = .ok b' ∧
      ((b = b' → AgreeExceptSig greeting emptyReply) ↔
        ¬ (SameUpToDefaults greeting emptyReply ∧ OptionsDiffer greeting emptyReply)) := by
  obtain ⟨b, hb⟩ := canonicalBytes_greeting
  have hb' := canonicalBytes_emptyReply.trans hb
  exact ⟨b, b, hb, hb', canonicalBytes_determine_iff signed_greeting signed_emptyReply hb hb'⟩

theorem canonicalBytes_not_determine :
    ¬ ∀ (a a' : Allocator) (env env' : Envelope) (b b' : Slice), Accepted env → Accepted env' →
      canonicalBytes a env = .ok b → canonicalBytes a' env' = .ok b' → b = b' →
      AgreeExceptSig env env' := by
  intro hall
  obtain ⟨b, hb⟩ := canonicalBytes_greeting
  have hagree := hall .ample .ample { greeting with senderSig := none }
    { emptyReply with senderSig := none } b b signed_greeting signed_emptyReply hb
    (canonicalBytes_emptyReply.trans hb) rfl
  have hreply := congrArg Envelope.inReplyTo hagree
  cases hreply

/-! ## Passing on what was received -/

/-- The names under which the writers leave out an empty string. -/
def omittedEmpty : List FieldName :=
  [.conversationId, .inReplyTo, .originChannelId, .senderId, .bodyMime, .threadKey]

/-- The names of the options that the writers leave out when they are zero. -/
def omittedZero : List FieldName := [.maxTokens, .maxWallMs, .maxCostUsdMicros]

/-- The last word of the message on a name is not one that the writers leave out. -/
structure Definite (fs : List Field) : Prop where
  string : ∀ name ∈ omittedEmpty, lastValue name.number.toNat fs ≠ some (.bytes [])
  number : ∀ name ∈ omittedZero, lastValue name.number.toNat fs ≠ some (.varint 0)

section LastWord

variable {xs : List Value}

theorem lastBytes_ne_iff (xs : List Value) :
    lastBytes xs ≠ some [] ↔ xs.getLast? ≠ some (.bytes []) := by
  rw [lastBytes]
  rcases xs.getLast? with _ | x
  · simp
  · cases x <;> simp [bytesOf]

theorem lastBytes_getD_ne_iff {d : Bytes} (hfits : ∀ x ∈ xs, ∃ s, x = .bytes s)
    (hd : xs ≠ [] ∨ d ≠ []) : (lastBytes xs).getD d ≠ [] ↔ xs.getLast? ≠ some (.bytes []) := by
  rw [lastBytes]
  cases hlast : xs.getLast? with
  | none =>
    have hnil := List.getLast?_eq_none_iff.mp hlast
    simp [hd.resolve_left (not_not.mpr hnil)]
  | some x =>
    obtain ⟨s, rfl⟩ := hfits x (List.mem_of_getLast? hlast)
    simp [bytesOf]

theorem lastNumber_ne_iff (hfits : ∀ x ∈ xs, ∃ v, x = .varint v ∧ v.toNat < 2 ^ 32) :
    (lastNumber xs).map UInt64.toUInt32 ≠ some 0 ↔ xs.getLast? ≠ some (.varint 0) := by
  rw [lastNumber]
  cases hlast : xs.getLast? with
  | none => simp
  | some x =>
    obtain ⟨v, rfl, hv⟩ := hfits x (List.mem_of_getLast? hlast)
    have hzero : v.toUInt32 = 0 ↔ v = 0 := by
      constructor
      · intro h
        rw [← toUInt64_toUInt32_of_lt hv, h]
        rfl
      · rintro rfl
        rfl
    simpa [numberOf] using not_congr hzero

end LastWord

/-- What the decoder accepted has its fields from the last payloads of any reading of the
message. -/
theorem finish_of_decode {a : Allocator} {b : Slice} {env : Envelope}
    (h : decode a b = .ok env) {fs : List Field} (hfs : Message envelopeSchema b.1 fs) :
    finish .ample (stateOf (payloads fs)) = .ok env := by
  have hread {gs : List Field} (hgs : Message envelopeSchema b.1 gs) :
      decode .ample b = finish .ample (stateOf (payloads gs)) := by
    rw [decode_of_message (Allocator.ample_serves b.2) hgs, foldl_apply_of_message hgs]
  obtain ⟨gs, hgs, hfin⟩ := message_of_decode h
  rw [foldl_apply_of_message hgs, finish_eq_ok] at hfin
  obtain ⟨hversion, hsaw, hverb, -, henv⟩ := hfin
  rw [← hread hfs, hread hgs, finish_eq_ok]
  exact ⟨hversion, hsaw, hverb, rfl, henv⟩

/-- A definite message is one that was received without a field the writers leave out. -/
theorem definite_iff {b : Bytes} {fs : List Field} (hfs : Message envelopeSchema b fs)
    {env : Envelope} (henv : env = { (stateOf (payloads fs)).env with
      attachments := (stateOf (payloads fs)).attachmentsList })
    (hconv : payloads fs .conversationId ≠ []) (horigin : payloads fs .originChannelId ≠ [])
    (hsender : payloads fs .senderId ≠ []) :
    Definite fs ↔
      (env.conversationId ≠ [] ∧ env.originChannelId ≠ [] ∧ env.senderId ≠ []) ∧
        StrictOptions env ∧ env.bodyMime ≠ [] := by
  subst henv
  have hbytes (name : FieldName) (hk : fieldKind name = .bytes) :
      ∀ x ∈ payloads fs name, ∃ s, x = .bytes s := by
    intro x hx
    have hfits := fits_of_mem_payloads hfs hx
    rw [Fits, hk] at hfits
    exact hfits
  have hnumber (name : FieldName) (hk : fieldKind name = .uint32) :
      ∀ x ∈ payloads fs name, ∃ v, x = .varint v ∧ v.toNat < 2 ^ 32 := by
    intro x hx
    have hfits := fits_of_mem_payloads hfs hx
    rw [Fits, hk] at hfits
    exact hfits
  have hid {name : FieldName} (hk : fieldKind name = .bytes) (hne : payloads fs name ≠ []) :=
    lastBytes_getD_ne_iff (hbytes name hk) (.inl hne : _ ∨ ([] : Bytes) ≠ [])
  have hmime := lastBytes_getD_ne_iff (d := ascii "application/json")
    (hbytes .bodyMime rfl) (.inr (by decide))
  have hreply := lastBytes_ne_iff (payloads fs .inReplyTo)
  have hthread := lastBytes_ne_iff (payloads fs .threadKey)
  have htokens := lastNumber_ne_iff (hnumber .maxTokens rfl)
  have hwall := lastNumber_ne_iff (hnumber .maxWallMs rfl)
  have hcost := lastNumber_ne_iff (hnumber .maxCostUsdMicros rfl)
  constructor
  · rintro ⟨hs, hn⟩
    simp only [omittedEmpty, List.forall_mem_cons] at hs
    simp only [omittedZero, List.forall_mem_cons] at hn
    obtain ⟨h₁, h₂, h₃, h₄, h₅, h₆, -⟩ := hs
    obtain ⟨h₇, h₈, h₉, -⟩ := hn
    exact ⟨⟨(hid rfl hconv).mpr h₁, (hid rfl horigin).mpr h₃, (hid rfl hsender).mpr h₄⟩,
      ⟨hreply.mpr h₂, hthread.mpr h₆, htokens.mpr h₇, hwall.mpr h₈, hcost.mpr h₉⟩, hmime.mpr h₅⟩
  · rintro ⟨⟨h₁, h₂, h₃⟩, hopt, h₄⟩
    refine ⟨?_, ?_⟩
    · simp only [omittedEmpty, List.forall_mem_cons]
      exact ⟨(hid rfl hconv).mp h₁, hreply.mp hopt.inReplyTo, (hid rfl horigin).mp h₂,
        (hid rfl hsender).mp h₃, hmime.mp h₄, hthread.mp hopt.threadKey, by simp⟩
    · simp only [omittedZero, List.forall_mem_cons]
      exact ⟨htokens.mp hopt.maxTokens, hwall.mp hopt.maxWallMs, hcost.mp hopt.maxCostUsdMicros,
        by simp⟩

/-- **Relay stability.**  A received envelope survives being passed on exactly when the last word
of the message it was read from is definite. -/
theorem relay_stable_iff {a₀ a a' : Allocator} {b : Slice} {env : Envelope}
    (h : decode a₀ b = .ok env) (ha : a.Serves (doEncode env true).length)
    (ha' : a'.Serves (doEncode env true).length) :
    (∃ fs, Message envelopeSchema b.1 fs) ∧
      ∀ fs, Message envelopeSchema b.1 fs → (Passes a a' env true env ↔ Definite fs) := by
  refine ⟨(message_of_decode h).imp fun _ hfs => hfs.1, fun fs hfs => ?_⟩
  obtain ⟨hversion, ⟨hconv, horigin, hsender⟩, hverb, -, henv⟩ :=
    finish_eq_ok.mp (finish_of_decode h hfs)
  have hseen {name : FieldName} (hs : (!(payloads fs name).isEmpty) = true) :
      payloads fs name ≠ [] := by simpa using hs
  have hversion' : env.envelopeV = envelopeVersion := by rw [henv]; exact hversion
  have hverb' : env.verb ≠ .unspecified := by rw [henv]; exact hverb
  rw [passes_iff hversion' hverb' ha ha', eq_comm, written_eq_self_iff,
    definite_iff hfs henv (hseen hconv) (hseen horigin) (hseen hsender)]

/-- A message whose conversation is present and empty. -/
def emptyConversation : Slice :=
  ⟨[0x08, 1, 0x10, 1, 0x1a, 0, 0x2a, 1, 0x6f, 0x32, 1, 0x73], by decide⟩

/-- What the decoder makes of it. -/
def emptyConversationEnvelope : Envelope where
  verb := .userMsg
  conversationId := []
  originChannelId := ascii "o"
  senderId := ascii "s"
  sentAtMs := 0
  body := []

theorem decode_emptyConversation :
    decode .ample emptyConversation = .ok emptyConversationEnvelope := rfl

theorem ample_serves_emptyConversation :
    Allocator.ample.Serves (doEncode emptyConversationEnvelope true).length :=
  Allocator.ample_serves ((length_doEncode_le emptyConversationEnvelope true).trans_lt (by decide))

theorem relay_stable_emptyConversation :
    (∃ fs, Message envelopeSchema emptyConversation.1 fs) ∧
      ∀ fs, Message envelopeSchema emptyConversation.1 fs →
        (Passes .ample .ample emptyConversationEnvelope true emptyConversationEnvelope ↔
          Definite fs) :=
  relay_stable_iff decode_emptyConversation ample_serves_emptyConversation
    ample_serves_emptyConversation

/-- The relay's own encoding is refused. -/
theorem relay_not_stable :
    ¬ ∀ (a₀ a a' : Allocator) (b : Slice) (env : Envelope), decode a₀ b = .ok env →
      a.Serves (doEncode env true).length → a'.Serves (doEncode env true).length →
      Passes a a' env true env := by
  intro hall
  have hpass := hall .ample .ample .ample _ _ decode_emptyConversation
    ample_serves_emptyConversation ample_serves_emptyConversation
  rw [passes_iff rfl (by decide) ample_serves_emptyConversation
    ample_serves_emptyConversation] at hpass
  exact hpass.1.1 rfl

end Envelope
end TigerClaw
