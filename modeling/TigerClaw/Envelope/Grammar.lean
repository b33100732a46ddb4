import TigerClaw.Envelope.Reader

/-!
# Decoding as reading a grammar

The two loops of the decoder are compared with the wire grammar.  `envelopeSchema` and
`attachmentSchema` give every field number its kind; `DecodeState.apply` and `Attachment.apply`
say what a field assigns.

* `decodeField_eq`, `decodeAttachmentField_eq`: one turn of each loop is `readField` and an
  assignment.
* `FieldBody`: what a loop body has to satisfy for the loop to read messages.
  `FieldBody.message_of_ok`, `FieldBody.ok_of_message` and `FieldBody.loop_traps_iff` are proved
  for every such body, by induction on the fuel and on the message.
* `message_of_decode`, `decode_of_message`: the decoder accepts exactly the messages of the grammar
  that pass its final checks.
* `hazardous_of_decode`, `decode_traps_of_hazardous`: it trips exactly on the byte strings that
  run into an out-of-range field.
-/

namespace TigerClaw
namespace Envelope

open WireFormat Reader

/-! ## Loops that read fields -/

section Loop

variable {ε σ : Type}

/-- A loop body that reads one field and assigns it.  `I` is what the loop maintains; it is only
needed for the body to succeed. -/
structure FieldBody (S : Schema) (body : σ → Reader → Outcome ε (σ × Reader))
    (apply : σ → Field → σ) (I : σ → Reader → Prop) : Prop where
  raw_of_ok : ∀ st r st' r', body st r = .ok (st', r') →
    ∃ fb f, Reads r fb r' ∧ Raw S fb f ∧ st' = apply st f
  ok_of_raw : ∀ st r fb rest f, r.len < 2 ^ 64 → I st r → Raw S fb f → r.rest = fb ++ rest →
    body st r = .ok (apply st f, ⟨r.pos + fb.length, rest⟩) ∧
      I (apply st f) ⟨r.pos + fb.length, rest⟩
  traps_iff : ∀ st r, r.len < 2 ^ 64 → ((body st r).Traps ↔ Hazard S r.pos r.rest)

theorem whileMore_of_more {body : σ → Reader → Outcome ε (σ × Reader)} {fuel : ℕ} {st : σ}
    {r : Reader} (h : r.rest ≠ []) :
    whileMore body (fuel + 1) st r = (body st r >>= fun p => whileMore body fuel p.1 p.2) := by
  rw [whileMore, if_pos (hasMore_iff.mpr h)]

theorem whileMore_of_end {body : σ → Reader → Outcome ε (σ × Reader)} {fuel : ℕ} {st : σ}
    {r : Reader} (h : r.rest = []) : whileMore body fuel st r = .ok st := by
  cases fuel with
  | zero => rfl
  | succ fuel =>
    have hmore : ¬ r.hasMore = true := by rw [hasMore_iff]; simpa using h
    rw [whileMore, if_neg hmore]

/-- An error of the loop is an error of its body, in a state that the loop can be in. -/
theorem whileMore_error {body : σ → Reader → Outcome ε (σ × Reader)} {J : σ → Reader → Prop}
    {P : ε → Prop} (hstep : ∀ st r st' r', J st r → body st r = .ok (st', r') → J st' r')
    (hbody : ∀ st r e, J st r → body st r = .error e → P e) {fuel : ℕ} {st : σ} {r : Reader}
    {e : ε} (hJ : J st r) (h : whileMore body fuel st r = .error e) : P e := by
  induction fuel generalizing st r with
  | zero => cases h
  | succ fuel ih =>
    by_cases hr : r.rest = []
    · rw [whileMore_of_end hr] at h
      cases h
    · rw [whileMore_of_more hr, Outcome.bind_eq_error] at h
      rcases h with h | ⟨p, hp, h⟩
      · exact hbody st r e hJ h
      · exact ih (hstep st r p.1 p.2 hJ hp) h

/-- What every turn keeps, the loop keeps. -/
theorem whileMore_invariant {body : σ → Reader → Outcome ε (σ × Reader)} {J : σ → Reader → Prop}
    (hstep : ∀ st r st' r', J st r → body st r = .ok (st', r') → J st' r') {fuel : ℕ} {st st' : σ}
    {r : Reader} (hJ : J st r) (h : whileMore body fuel st r = .ok st') : ∃ r', J st' r' := by
  induction fuel generalizing st r with
  | zero =>
    obtain rfl := Outcome.ok.inj h
    exact ⟨r, hJ⟩
  | succ fuel ih =>
    by_cases hr : r.rest = []
    · rw [whileMore_of_end hr] at h
      obtain rfl := Outcome.ok.inj h
      exact ⟨r, hJ⟩
    · rw [whileMore_of_more hr, Outcome.bind_eq_ok] at h
      obtain ⟨p, hp, h⟩ := h
      exact ih (hstep st r p.1 p.2 hJ hp) h

namespace FieldBody

variable {S : Schema} {body : σ → Reader → Outcome ε (σ × Reader)} {apply : σ → Field → σ}
  {I : σ → Reader → Prop}

/-- **What the loop accepts is a message.** -/
theorem message_of_ok (hb : FieldBody S body apply I) {fuel : ℕ} {st st' : σ} {r : Reader}
    (hfuel : r.rest.length ≤ fuel) (h : whileMore body fuel st r = .ok st') :
    ∃ fs, Message S r.rest fs ∧ st' = fs.foldl apply st := by
  induction fuel generalizing st r with
  | zero =>
    have hr : r.rest = [] := List.length_eq_zero_iff.mp (by omega)
    rw [whileMore] at h
    exact ⟨[], by rw [hr]; exact Message.nil, (Outcome.ok.inj h).symm⟩
  | succ fuel ih =>
    by_cases hr : r.rest = []
    · rw [whileMore_of_end hr] at h
      exact ⟨[], by rw [hr]; exact Message.nil, (Outcome.ok.inj h).symm⟩
    · rw [whileMore_of_more hr, Outcome.bind_eq_ok] at h
      obtain ⟨⟨st₁, r₁⟩, h₁, h₂⟩ := h
      obtain ⟨fb, f, hread, hraw, rfl⟩ := hb.raw_of_ok _ _ _ _ h₁
      have hpos := hraw.length_pos
      have hlen : r.rest.length = fb.length + r₁.rest.length := by
        rw [hread.rest, List.length_append]
      obtain ⟨fs, hfs, hst⟩ := ih (r := r₁) (by omega) h₂
      exact ⟨f :: fs, by rw [hread.rest]; exact Message.cons hraw hfs, hst⟩

/-- **The loop passes through a message** at the front of what is unread. -/
theorem pass (hb : FieldBody S body apply I) {p : Bytes} {fs : List Field} (hp : Message S p fs)
    {fuel : ℕ} {st : σ} {r : Reader} {rest : Bytes} (hlen : r.len < 2 ^ 64)
    (hfuel : r.rest.length ≤ fuel) (hI : I st r) (hr : r.rest = p ++ rest) :
    ∃ fuel', rest.length ≤ fuel' ∧
      whileMore body fuel st r =
        whileMore body fuel' (fs.foldl apply st) ⟨r.pos + p.length, rest⟩ ∧
      I (fs.foldl apply st) ⟨r.pos + p.length, rest⟩ := by
  induction hp generalizing fuel st r with
  | nil =>
    obtain ⟨pos, q⟩ := r
    obtain rfl : q = rest := hr
    exact ⟨fuel, hfuel, rfl, hI⟩
  | cons hraw hmsg ih =>
    rename_i fb q f fs
    have hpos := hraw.length_pos
    rw [List.append_assoc] at hr
    have hl : r.rest.length = fb.length + (q ++ rest).length := by rw [hr, List.length_append]
    have hne : r.rest ≠ [] := fun h => by rw [h] at hl; simp at hl; omega
    obtain ⟨fuel, rfl⟩ : ∃ n, fuel = n + 1 := ⟨fuel - 1, by omega⟩
    obtain ⟨hbody, hI'⟩ := hb.ok_of_raw st r fb (q ++ rest) f hlen hI hraw hr
    have hlen' : (⟨r.pos + fb.length, q ++ rest⟩ : Reader).len < 2 ^ 64 := by
      simp only [Reader.len] at hlen ⊢
      omega
    obtain ⟨fuel', hfuel', heq, hI''⟩ :=
      ih (r := ⟨r.pos + fb.length, q ++ rest⟩) hlen' (show (q ++ rest).length ≤ fuel by omega)
        hI' rfl
    refine ⟨fuel', hfuel', ?_, ?_⟩
    · rw [whileMore_of_more hne, hbody, Outcome.ok_bind, heq, List.length_append, List.foldl_cons,
        ← Nat.add_assoc]
    · rw [List.length_append, ← Nat.add_assoc]
      exact hI''

/-- **Every message is accepted.** -/
theorem ok_of_message (hb : FieldBody S body apply I) {fs : List Field} {fuel : ℕ} (st : σ)
    (r : Reader) (hlen : r.len < 2 ^ 64) (hfuel : r.rest.length ≤ fuel) (hI : I st r)
    (h : Message S r.rest fs) : whileMore body fuel st r = .ok (fs.foldl apply st) := by
  obtain ⟨fuel', -, heq, -⟩ := hb.pass h hlen hfuel hI (List.append_nil _).symm
  rw [heq, whileMore_of_end rfl]

/-- A loop that trips does so on an out-of-range field behind a message. -/
theorem hazard_of_traps (hb : FieldBody S body apply I) {fuel : ℕ} {st : σ} {r : Reader}
    (hlen : r.len < 2 ^ 64) (h : (whileMore body fuel st r).Traps) :
    ∃ p fs q, r.rest = p ++ q ∧ Message S p fs ∧ Hazard S (r.pos + p.length) q := by
  induction fuel generalizing st r with
  | zero => simp [whileMore] at h
  | succ fuel ih =>
    by_cases hr : r.rest = []
    · rw [whileMore_of_end hr] at h
      simp at h
    · rw [whileMore_of_more hr, Outcome.traps_bind, hb.traps_iff _ _ hlen] at h
      rcases h with h | ⟨⟨st₁, r₁⟩, h₁, h₂⟩
      · exact ⟨[], [], r.rest, rfl, Message.nil, h⟩
      · obtain ⟨fb, f, hread, hraw, rfl⟩ := hb.raw_of_ok _ _ _ _ h₁
        obtain ⟨p, fs, q, hq, hp, hz⟩ := ih (by rw [hread.len]; exact hlen) h₂
        refine ⟨fb ++ p, f :: fs, q, ?_, Message.cons hraw hp, ?_⟩
        · rw [hread.rest, hq, List.append_assoc]
        · rw [List.length_append, ← Nat.add_assoc, ← hread.pos]
          exact hz

/-- **The loop trips exactly on an out-of-range field behind a message.** -/
theorem loop_traps_iff (hb : FieldBody S body apply I) {fuel : ℕ} (st : σ) (r : Reader)
    (hlen : r.len < 2 ^ 64) (hfuel : r.rest.length ≤ fuel) (hI : I st r)
    (hnil : ∀ off, ¬ Hazard S off []) :
    (whileMore body fuel st r).Traps ↔
      ∃ p fs q, r.rest = p ++ q ∧ Message S p fs ∧ Hazard S (r.pos + p.length) q := by
  refine ⟨hb.hazard_of_traps hlen, ?_⟩
  rintro ⟨p, fs, q, hr, hp, hz⟩
  obtain ⟨fuel', hfuel', heq, -⟩ := hb.pass hp hlen hfuel hI hr
  have hne : q ≠ [] := by
    rintro rfl
    exact hnil _ hz
  have hqpos := List.length_pos_iff.mpr hne
  obtain ⟨fuel'', rfl⟩ : ∃ n, fuel' = n + 1 := ⟨fuel' - 1, by omega⟩
  have hlen' : (⟨r.pos + p.length, q⟩ : Reader).len < 2 ^ 64 := by
    simp only [Reader.len, hr, List.length_append] at hlen ⊢
    omega
  rw [heq, whileMore_of_more hne, Outcome.traps_bind, hb.traps_iff _ _ hlen']
  exact .inl hz

end FieldBody

/-- There is nothing out of range in nothing. -/
theorem not_hazard_nil (S : Schema) (off : ℕ) : ¬ Hazard S off [] := by
  rintro (h | ⟨tb, t, r, hnil, ht, -⟩)
  · simp [Overlong, Base128.leading] at h
  · have := ht.length_pos
    have := congrArg List.length hnil
    simp at this
    omega

end Loop

/-! ## Attachments -/

def attachmentKind (n : ℕ) : Kind :=
  match AttachmentField.ofNumber? n with
  | some _ => .bytes
  | none => .unknown

/-- Attachments hold no messages. -/
def attachmentSchema : Schema where
  kind := attachmentKind
  nested := fun _ => False
  nestedHazard := fun _ => False

def noNested : NestedReader attachmentSchema where
  read := fun _ => .error .unknownWireType
  nested_of_ok := fun _ h => by cases h
  ok_of_nested := fun _ _ h => absurd h id
  traps_iff := fun _ _ => by simp [attachmentSchema]

/-- What a field assigns to an attachment. -/
def Attachment.apply (att : Attachment) (f : Field) : Attachment :=
  match AttachmentField.ofNumber? f.number, f.value with
  | some .name, .bytes s => { att with name := s }
  | some .mime, .bytes s => { att with mime := s }
  | some .data, .bytes s => { att with data := s }
  | _, _ => att

def emptyAttachment : Attachment := { name := [], mime := [], data := [] }

theorem decodeAttachmentField_eq (att : Attachment) (r : Reader) :
    decodeAttachmentField att r =
      (readField attachmentSchema.kind noNested.read r >>= fun p =>
        pure (att.apply p.1, p.2)) := by
  unfold decodeAttachmentField readField
  rcases r.readVarint with ⟨t, r₁⟩ | e | t
  · simp only [Outcome.ok_bind]
    rcases (intCastU32 (t >>> 3) : Outcome ReadError UInt32) with field | e | t'
    · simp only [Outcome.ok_bind]
      rcases (intCastU32 (t &&& 0x7) : Outcome ReadError UInt32) with wire | e | t'
      · simp only [Outcome.ok_bind, attachmentSchema, attachmentKind]
        rcases hn : AttachmentField.ofNumber? field.toNat with _ | fld
        · simp only [readValue]
          rcases r₁.skipField wire with r₂ | e | t' <;> simp [Attachment.apply, hn]
        · rcases hs : r₁.readString with ⟨s, r₂⟩ | e | t' <;>
            cases fld <;> simp [readValue, Attachment.apply, hn, hs]
      · rfl
      · rfl
    · rfl
    · rfl
  · rfl
  · rfl

theorem attachmentBody :
    FieldBody attachmentSchema decodeAttachmentField Attachment.apply fun _ _ => True where
  raw_of_ok := by
    intro att r att' r' h
    rw [decodeAttachmentField_eq, Outcome.bind_eq_ok] at h
    obtain ⟨⟨f, r₁⟩, hf, h⟩ := h
    obtain ⟨rfl, rfl⟩ := by simpa using h
    obtain ⟨fb, hread, hraw⟩ := raw_of_readField noNested hf
    exact ⟨fb, f, hread, hraw, rfl⟩
  ok_of_raw := by
    intro att r fb rest f hlen _ hraw hr
    rw [decodeAttachmentField_eq, readField_of_raw noNested hlen hraw hr]
    exact ⟨rfl, trivial⟩
  traps_iff := by
    intro att r hlen
    rw [decodeAttachmentField_eq, Outcome.traps_bind, traps_readField noNested hlen]
    simp

/-- **The decoder of attachments accepts exactly the messages of the attachment grammar.** -/
theorem decodeAttachment_of_message {s : Bytes} {fs : List Field} (hlen : s.length < 2 ^ 64)
    (h : Message attachmentSchema s fs) :
    decodeAttachment s = .ok (fs.foldl Attachment.apply emptyAttachment) :=
  attachmentBody.ok_of_message emptyAttachment ⟨0, s⟩ (by simpa [Reader.len] using hlen) le_rfl
    trivial h

theorem message_of_decodeAttachment {s : Bytes} {att : Attachment}
    (h : decodeAttachment s = .ok att) :
    ∃ fs, Message attachmentSchema s fs ∧ att = fs.foldl Attachment.apply emptyAttachment :=
  attachmentBody.message_of_ok (r := ⟨0, s⟩) le_rfl h

theorem decodeAttachment_traps_iff {s : Bytes} (hlen : s.length < 2 ^ 64) :
    (decodeAttachment s).Traps ↔ Hazardous attachmentSchema s := by
  have h := attachmentBody.loop_traps_iff emptyAttachment ⟨0, s⟩
    (by simpa [Reader.len] using hlen) (le_refl s.length) trivial (not_hazard_nil _)
  simp only [Nat.zero_add] at h
  exact h

/-! ## Envelopes -/

def fieldKind : FieldName → Kind
  | .envelopeV => .uint32
  | .verb => .enum 10
  | .sentAtMs => .uint64
  | .maxTokens => .uint32
  | .maxWallMs => .uint32
  | .maxCostUsdMicros => .uint32
  | .attachments => .message
  | _ => .bytes

def envelopeKind (n : ℕ) : Kind :=
  match FieldName.ofNumber? n with
  | some name => fieldKind name
  | none => .unknown

/-- Attachments are the nested messages. -/
def envelopeSchema : Schema where
  kind := envelopeKind
  nested := fun s => ∃ fs, Message attachmentSchema s fs
  nestedHazard := Hazardous attachmentSchema

def nestedAttachment : NestedReader envelopeSchema where
  read := fun s => do
    let _ ← decodeAttachment s
    pure ()
  nested_of_ok := by
    intro s h
    obtain ⟨att, hatt, -⟩ := Outcome.bind_eq_ok.mp h
    obtain ⟨fs, hfs, -⟩ := message_of_decodeAttachment hatt
    exact ⟨fs, hfs⟩
  ok_of_nested := by
    rintro s hlen ⟨fs, hfs⟩
    rw [decodeAttachment_of_message hlen hfs]
    rfl
  traps_iff := by
    intro s hlen
    rw [Outcome.traps_bind, decodeAttachment_traps_iff hlen]
    simp [envelopeSchema]

/-- The attachment in a payload that decodes. -/
def attachmentOf (s : Bytes) : Attachment :=
  match decodeAttachment s with
  | .ok att => att
  | _ => emptyAttachment

/-- What a field assigns to the local variables of `decode`. -/
def DecodeState.apply (st : DecodeState) (f : Field) : DecodeState :=
  match FieldName.ofNumber? f.number, f.value with
  | some .envelopeV, .varint v => { st with env := { st.env with envelopeV := v.toUInt32 } }
  | some .verb, .varint v =>
    match verbFromInt v.toUInt32 with
    | .ok verb => { st with env := { st.env with verb := verb } }
    | .error _ => st
  | some .conversationId, .bytes s =>
    { st with env := { st.env with conversationId := s }, sawConv := true }
  | some .inReplyTo, .bytes s => { st with env := { st.env with inReplyTo := some s } }
  | some .originChannelId, .bytes s =>
    { st with env := { st.env with originChannelId := s }, sawOrigin := true }
  | some .senderId, .bytes s =>
    { st with env := { st.env with senderId := s }, sawSender := true }
  | some .senderSig, .bytes s => { st with env := { st.env with senderSig := some s } }
  | some .sentAtMs, .varint v => { st with env := { st.env with sentAtMs := v.toInt64 } }
  | some .nonce, .bytes s => { st with env := { st.env with nonce := some s } }
  | some .bodyMime, .bytes s => { st with env := { st.env with bodyMime := s } }
  | some .body, .bytes s => { st with env := { st.env with body := s } }
  | some .maxTokens, .varint v =>
    { st with env := { st.env with maxTokens := some v.toUInt32 } }
  | some .maxWallMs, .varint v =>
    { st with env := { st.env with maxWallMs := some v.toUInt32 } }
  | some .maxCostUsdMicros, .varint v =>
    { st with env := { st.env with maxCostUsdMicros := some v.toUInt32 } }
  | some .attachments, .bytes s =>
    { st with attachmentsList := st.attachmentsList ++ [attachmentOf s] }
  | some .threadKey, .bytes s => { st with env := { st.env with threadKey := some s } }
  | _, _ => st

/-- The assignment of one turn, with the growth of the attachment list. -/
def assign (a : Allocator) (st : DecodeState) (f : Field) (r : Reader) :
    Outcome PlugError (DecodeState × Reader) :=
  if FieldName.ofNumber? f.number = some .attachments ∧
      ¬ a.grow (st.attachmentsList.length + 1) = true then .error .internal
  else .ok (st.apply f, r)

theorem verbFromInt_isOk (v : UInt32) : (∃ verb, verbFromInt v = .ok verb) ↔ v.toNat < 10 := by
  unfold verbFromInt
  split <;> simp_all
  omega

theorem decodeField_eq (a : Allocator) (st : DecodeState) (r : Reader) :
    decodeField a st r =
      ((readField envelopeSchema.kind nestedAttachment.read r).catchAs .badInput >>= fun p =>
        assign a st p.1 p.2) := by
  unfold decodeField readField
  rcases r.readVarint with ⟨t, r₁⟩ | e | t
  · simp only [Outcome.ok_bind, Outcome.catchAs_ok]
    by_cases hf : (t >>> 3).toNat < 2 ^ 32
    · have hw : (t &&& 0x7).toNat < 2 ^ 32 := by rw [toNat_tag_wire]; omega
      simp only [intCastU32_of_lt hf, intCastU32_of_lt hw, Outcome.ok_bind, envelopeSchema,
        envelopeKind]
      generalize (t >>> 3).toUInt32.toNat = n
      generalize (t &&& 0x7).toUInt32 = wire
      rcases hn : FieldName.ofNumber? n with _ | name
      · simp only [readValue]
        rcases r₁.skipField wire with r₂ | e | t' <;>
          simp [assign, DecodeState.apply, hn]
      · cases name
        case verb =>
          simp only [fieldKind, readValue]
          rcases r₁.readVarint with ⟨v, r₂⟩ | e | t'
          · simp only [Outcome.ok_bind, Outcome.catchAs_ok]
            by_cases hv : v.toNat < 2 ^ 32
            · have hiff := verbFromInt_isOk v.toUInt32
              rw [toNat_toUInt32_of_lt hv] at hiff
              simp only [intCastU32_of_lt hv, Outcome.ok_bind, toNat_toUInt32_of_lt hv,
                toUInt64_toUInt32_of_lt hv]
              by_cases h10 : v.toNat < 10
              · obtain ⟨verb, hverb⟩ := hiff.mpr h10
                simp [hverb, h10, assign, DecodeState.apply, hn]
              · rcases hverb : verbFromInt v.toUInt32 with e | verb
                · simp [h10]
                · exact absurd (hiff.mp ⟨verb, hverb⟩) h10
            · simp only [intCastU32, if_neg hv]
              rfl
          · rfl
          · rfl
        case sentAtMs =>
          simp only [fieldKind, readValue]
          rcases r₁.readVarint with ⟨v, r₂⟩ | e | t' <;> simp [assign, DecodeState.apply, hn]
        case attachments =>
          simp only [fieldKind, readValue, nestedAttachment]
          rcases r₁.readString with ⟨s, r₂⟩ | e | t'
          · simp only [Outcome.ok_bind, Outcome.catchAs_ok]
            rcases hatt : decodeAttachment s with att | e | t' <;>
              simp [assign, DecodeState.apply, attachmentOf, hn, hatt]
            split <;> simp_all
          · rfl
          · rfl
        case envelopeV | maxTokens | maxWallMs | maxCostUsdMicros =>
          simp only [fieldKind, readValue]
          rcases r₁.readVarint with ⟨v, r₂⟩ | e | t'
          · simp only [Outcome.ok_bind, Outcome.catchAs_ok]
            by_cases hv : v.toNat < 2 ^ 32
            · simp only [intCastU32_of_lt hv, Outcome.ok_bind, toUInt64_toUInt32_of_lt hv]
              simp [assign, DecodeState.apply, hn]
            · simp only [intCastU32, if_neg hv]
              rfl
          · rfl
          · rfl
        all_goals
          simp only [fieldKind, readValue]
          rcases r₁.readString with ⟨s, r₂⟩ | e | t' <;> simp [assign, DecodeState.apply, hn]
    · simp only [intCastU32, if_neg hf]
      rfl
  · rfl
  · rfl

/-- What the loop of `decode` maintains: every attachment took at least a byte, so the list never
asks for more items than there are bytes. -/
def Counted (n : ℕ) (st : DecodeState) (r : Reader) : Prop :=
  r.len = n ∧ st.attachmentsList.length ≤ r.pos

theorem DecodeState.length_apply_le (st : DecodeState) (f : Field) :
    (st.apply f).attachmentsList.length ≤ st.attachmentsList.length + 1 := by
  unfold DecodeState.apply
  split <;> try split
  all_goals simp

/-- The list of attachments has room for another one. -/
theorem Counted.length_lt {n : ℕ} {st : DecodeState} {r : Reader} (h : Counted n st r)
    (hr : r.rest ≠ []) : st.attachmentsList.length + 1 ≤ n := by
  obtain ⟨hlen, hle⟩ := h
  have hpos := List.length_pos_iff.mpr hr
  simp only [Reader.len] at hlen
  omega

theorem Counted.apply {n : ℕ} {st : DecodeState} {r r' : Reader} {fb : Bytes} {f : Field}
    (h : Counted n st r) (hread : Reads r fb r') (hpos : 0 < fb.length) :
    Counted n (st.apply f) r' := by
  have hle := st.length_apply_le f
  have := h.2
  exact ⟨hread.len.trans h.1, by rw [hread.pos]; omega⟩

theorem envelopeBody (a : Allocator) :
    FieldBody envelopeSchema (decodeField a) DecodeState.apply
      fun st r => ∃ n, a.Serves n ∧ Counted n st r where
  raw_of_ok := by
    intro st r st' r' h
    rw [decodeField_eq, Outcome.bind_eq_ok] at h
    obtain ⟨⟨f, r₁⟩, hf, h⟩ := h
    rw [Outcome.catchAs_eq_ok] at hf
    obtain ⟨fb, hread, hraw⟩ := raw_of_readField nestedAttachment hf
    rw [assign] at h
    split at h
    · cases h
    · obtain ⟨rfl, rfl⟩ := by simpa using h
      exact ⟨fb, f, hread, hraw, rfl⟩
  ok_of_raw := by
    intro st r fb rest f hlen hI hraw hr
    obtain ⟨n, hserve, hcount⟩ := hI
    have hpos := hraw.length_pos
    have hread : Reads r fb ⟨r.pos + fb.length, rest⟩ := ⟨hr, rfl⟩
    refine ⟨?_, n, hserve, hcount.apply hread hpos⟩
    have hroom := hcount.length_lt (hread.rest_ne_nil hpos)
    rw [decodeField_eq, readField_of_raw nestedAttachment hlen hraw hr, Outcome.catchAs_ok,
      Outcome.ok_bind, assign, if_neg]
    exact fun h => h.2 (hserve _ hroom).1
  traps_iff := by
    intro st r hlen
    rw [decodeField_eq, Outcome.traps_bind, Outcome.traps_catchAs,
      traps_readField nestedAttachment hlen]
    refine or_iff_left ?_
    rintro ⟨p, -, h⟩
    rw [assign] at h
    split at h <;> simp at h

/-! ## The whole decoder -/

theorem counted_start (b : Bytes) : Counted b.length DecodeState.start ⟨0, b⟩ :=
  ⟨by simp [Reader.len], le_rfl⟩

/-- **What decodes is a message**, and the envelope is what its fields assign. -/
theorem message_of_decode {a : Allocator} {b : Slice} {env : Envelope}
    (h : decode a b = .ok env) :
    ∃ fs, Message envelopeSchema b.1 fs ∧
      finish a (fs.foldl DecodeState.apply DecodeState.start) = .ok env := by
  obtain ⟨st, hst, hfin⟩ := Outcome.bind_eq_ok.mp h
  obtain ⟨fs, hfs, rfl⟩ := (envelopeBody a).message_of_ok (r := ⟨0, b.1⟩) le_rfl hst
  exact ⟨fs, hfs, hfin⟩

/-- **Every message is read to its end** when the allocator serves it; what is left to decide are
the final checks. -/
theorem decode_of_message {a : Allocator} {b : Slice} {fs : List Field}
    (ha : a.Serves b.1.length) (h : Message envelopeSchema b.1 fs) :
    decode a b = finish a (fs.foldl DecodeState.apply DecodeState.start) := by
  have hlen : (⟨0, b.1⟩ : Reader).len = b.1.length := by simp [Reader.len]
  have hloop := (envelopeBody a).ok_of_message DecodeState.start ⟨0, b.1⟩
    (by rw [hlen]; exact b.2) (le_refl b.1.length) ⟨_, ha, counted_start b.1⟩ h
  rw [decode, hloop, Outcome.ok_bind]

/-- Every turn of the loop of `decode` counts. -/
theorem counted_decodeField {a : Allocator} {n : ℕ} {st st' : DecodeState} {r r' : Reader}
    (hcount : Counted n st r) (h : decodeField a st r = .ok (st', r')) : Counted n st' r' := by
  obtain ⟨fb, f, hread, hraw, rfl⟩ := (envelopeBody a).raw_of_ok st r st' r' h
  exact hcount.apply hread hraw.length_pos

theorem not_traps_finish (a : Allocator) (st : DecodeState) : ¬ (finish a st).Traps := by
  unfold finish
  split; · simp
  split; · simp
  split; · simp
  split <;> simp

/-- A decoder that trips does so on an out-of-range field, whatever the allocator. -/
theorem hazardous_of_decode {a : Allocator} {b : Slice} (h : (decode a b).Traps) :
    Hazardous envelopeSchema b.1 := by
  rw [decode, Outcome.traps_bind] at h
  rcases h with h | ⟨st, -, h⟩
  · obtain ⟨p, fs, q, hb, hp, hz⟩ := (envelopeBody a).hazard_of_traps (r := ⟨0, b.1⟩)
      (by simpa [Reader.len] using b.2) h
    rw [Nat.zero_add] at hz
    exact ⟨p, fs, q, hb, hp, hz⟩
  · exact absurd h (not_traps_finish a st)

/-- An out-of-range field trips the decoder that gets to it. -/
theorem decode_traps_of_hazardous {a : Allocator} {b : Slice} (ha : a.Serves b.1.length)
    (h : Hazardous envelopeSchema b.1) : (decode a b).Traps := by
  have hlen : (⟨0, b.1⟩ : Reader).len = b.1.length := by simp [Reader.len]
  have hloop := ((envelopeBody a).loop_traps_iff DecodeState.start ⟨0, b.1⟩
    (by rw [hlen]; exact b.2) (le_refl b.1.length) ⟨_, ha, counted_start b.1⟩
    (not_hazard_nil _)).mpr
  simp only [Nat.zero_add] at hloop
  rw [decode, Outcome.traps_bind]
  exact .inl (hloop h)

end Envelope
end TigerClaw
