import TigerClaw.Envelope.Encoding
import Mathlib.Data.List.Induction
import Mathlib.Logic.Function.Basic

/-!
# What a message assigns

The loop of `decode` goes through the fields of a message in order.  What it leaves behind depends
only on what the message carries under each name: the last payload, except for attachments, which
are all kept.

* `stateOf`: the local variables of `decode`, read off the payloads of every name.
* `foldl_apply`: the loop computes `stateOf`.  The induction is on the message from its end, and
  one field changes the payloads of one name.
-/

namespace TigerClaw
namespace Envelope

open WireFormat

/-! ## Payloads of a name -/

def numberOf : Value → Option UInt64
  | .varint v => some v
  | _ => none

def bytesOf : Value → Option Bytes
  | .bytes s => some s
  | _ => none

def lastNumber (xs : List Value) : Option UInt64 := xs.getLast?.bind numberOf

def lastBytes (xs : List Value) : Option Bytes := xs.getLast?.bind bytesOf

@[simp] theorem lastNumber_concat (xs : List Value) (x : Value) :
    lastNumber (xs ++ [x]) = numberOf x := by
  rw [lastNumber, List.getLast?_concat]
  rfl

@[simp] theorem lastBytes_concat (xs : List Value) (x : Value) :
    lastBytes (xs ++ [x]) = bytesOf x := by
  rw [lastBytes, List.getLast?_concat]
  rfl

/-- `verbFromInt`, where it has an answer. -/
def verbOf (v : UInt64) : Verb :=
  match verbFromInt v.toUInt32 with
  | .ok verb => verb
  | .error _ => .unspecified

/-- The payload is one that the decoder accepts under this name. -/
def Fits (name : FieldName) (x : Value) : Prop :=
  match fieldKind name with
  | .uint32 => ∃ v, x = .varint v ∧ v.toNat < 2 ^ 32
  | .enum bound => ∃ v, x = .varint v ∧ v.toNat < 2 ^ 32 ∧ v.toNat < bound
  | .uint64 => ∃ v, x = .varint v
  | .bytes => ∃ s, x = .bytes s
  | .message => ∃ s, x = .bytes s
  | .unknown => False

theorem Fits.of_raw {fb : Bytes} {f : Field} {name : FieldName} (h : Raw envelopeSchema fb f)
    (hname : FieldName.ofNumber? f.number = some name) : Fits name f.value := by
  obtain ⟨tb, t, pb, -, -, -, -, hpay⟩ := h
  have hkind : envelopeSchema.kind f.number = fieldKind name := by
    simp only [envelopeSchema, envelopeKind, hname]
  rw [hkind] at hpay
  unfold Fits
  unfold Payload at hpay
  cases hk : fieldKind name with
  | uint32 =>
    rw [hk] at hpay
    obtain ⟨v, hx, -, hlt⟩ := hpay
    exact ⟨v, hx, hlt⟩
  | enum bound =>
    rw [hk] at hpay
    obtain ⟨v, hx, -, hlt, hbound⟩ := hpay
    exact ⟨v, hx, hlt, hbound⟩
  | uint64 =>
    rw [hk] at hpay
    obtain ⟨v, hx, -⟩ := hpay
    exact ⟨v, hx⟩
  | bytes =>
    rw [hk] at hpay
    obtain ⟨s, hx, -⟩ := hpay
    exact ⟨s, hx⟩
  | message =>
    rw [hk] at hpay
    obtain ⟨s, hx, -⟩ := hpay
    exact ⟨s, hx⟩
  | unknown => cases name <;> cases hk

/-- The payloads that a message carries under each name. -/
def payloads (fs : List Field) (name : FieldName) : List Value := values name.number.toNat fs

/-- Everything a message carries fits. -/
theorem fits_of_mem_payloads {b : Bytes} {fs : List Field} (h : Message envelopeSchema b fs)
    {name : FieldName} {x : Value} (hx : x ∈ payloads fs name) : Fits name x := by
  induction h with
  | nil => cases hx
  | cons hraw hrest ih =>
    rename_i f fs
    rw [payloads, ← List.singleton_append, values_append, List.mem_append] at hx
    rcases hx with hx | hx
    · by_cases hf : f.number = name.number.toNat
      · rw [values_of_forall_eq (by simpa using hf), List.map_singleton,
          List.mem_singleton] at hx
        rw [hx]
        exact Fits.of_raw hraw (by rw [hf, FieldName.ofNumber?_number])
      · rw [values_of_forall_ne (by simpa using hf)] at hx
        cases hx
    · exact ih hx

/-! ## The local variables -/

/-- The local variables of `decode` after a message with these payloads. -/
def stateOf (p : FieldName → List Value) : DecodeState where
  env :=
    { envelopeV := ((lastNumber (p .envelopeV)).map UInt64.toUInt32).getD 0
      verb := ((lastNumber (p .verb)).map verbOf).getD .unspecified
      conversationId := (lastBytes (p .conversationId)).getD []
      inReplyTo := lastBytes (p .inReplyTo)
      originChannelId := (lastBytes (p .originChannelId)).getD []
      senderId := (lastBytes (p .senderId)).getD []
      senderSig := lastBytes (p .senderSig)
      sentAtMs := ((lastNumber (p .sentAtMs)).map UInt64.toInt64).getD 0
      nonce := lastBytes (p .nonce)
      bodyMime := (lastBytes (p .bodyMime)).getD (ascii "application/json")
      body := (lastBytes (p .body)).getD []
      maxTokens := (lastNumber (p .maxTokens)).map UInt64.toUInt32
      maxWallMs := (lastNumber (p .maxWallMs)).map UInt64.toUInt32
      maxCostUsdMicros := (lastNumber (p .maxCostUsdMicros)).map UInt64.toUInt32
      threadKey := lastBytes (p .threadKey) }
  attachmentsList := (p .attachments).filterMap fun x => (bytesOf x).map attachmentOf
  sawConv := !(p .conversationId).isEmpty
  sawOrigin := !(p .originChannelId).isEmpty
  sawSender := !(p .senderId).isEmpty

/-- **One field.**  It adds a payload to its name, and `apply` is what that does to the state. -/
theorem apply_stateOf {name : FieldName} {x : Value} (h : Fits name x)
    (p : FieldName → List Value) :
    (stateOf p).apply ⟨name.number.toNat, x⟩ =
      stateOf (Function.update p name (p name ++ [x])) := by
  unfold Fits at h
  unfold DecodeState.apply
  rw [FieldName.ofNumber?_number]
  cases name
  case verb =>
    obtain ⟨v, rfl, hlt, hbound⟩ := h
    obtain ⟨verb, hverb⟩ := (verbFromInt_isOk v.toUInt32).mpr (by
      rw [toNat_toUInt32_of_lt hlt]
      exact hbound)
    simp [stateOf, Function.update, numberOf, verbOf, hverb]
  case envelopeV | maxTokens | maxWallMs | maxCostUsdMicros =>
    obtain ⟨v, rfl, -⟩ := h
    simp [stateOf, Function.update, numberOf]
  case sentAtMs =>
    obtain ⟨v, rfl⟩ := h
    simp [stateOf, Function.update, numberOf]
  all_goals
    obtain ⟨s, rfl⟩ := h
    simp [stateOf, Function.update, bytesOf]

/-- A field with no name adds no payload to any. -/
theorem payloads_concat_of_none {fs : List Field} {f : Field}
    (h : FieldName.ofNumber? f.number = none) : payloads (fs ++ [f]) = payloads fs := by
  funext name
  have hne : f.number ≠ name.number.toNat := by
    intro hf
    rw [hf, FieldName.ofNumber?_number] at h
    cases h
  have hall : ∀ g ∈ [f], g.number ≠ name.number.toNat := by simpa using hne
  rw [payloads, values_append, values_of_forall_ne hall, List.append_nil]
  rfl

theorem payloads_concat_of_some {fs : List Field} {f : Field} {name : FieldName}
    (h : FieldName.ofNumber? f.number = some name) :
    payloads (fs ++ [f]) =
      Function.update (payloads fs) name (payloads fs name ++ [f.value]) := by
  have hf := FieldName.number_of_ofNumber? h
  funext other
  by_cases ho : other = name
  · subst ho
    have hall : ∀ g ∈ [f], g.number = other.number.toNat := by simpa using hf
    rw [Function.update_self, payloads, values_append, values_of_forall_eq hall]
    rfl
  · have hne : f.number ≠ other.number.toNat := by
      intro hf'
      exact ho (FieldName.number_injective (hf'.symm.trans hf))
    have hall : ∀ g ∈ [f], g.number ≠ other.number.toNat := by simpa using hne
    rw [Function.update_of_ne ho, payloads, values_append, values_of_forall_ne hall,
      List.append_nil]
    rfl

/-- **The whole loop.** -/
theorem foldl_apply {fs : List Field}
    (h : ∀ f ∈ fs, ∀ name, FieldName.ofNumber? f.number = some name → Fits name f.value) :
    fs.foldl DecodeState.apply DecodeState.start = stateOf (payloads fs) := by
  induction fs using List.reverseRecOn with
  | nil => rfl
  | append_singleton fs f ih =>
    rw [List.foldl_append, ih fun g hg => h g (List.mem_append_left _ hg)]
    change (stateOf (payloads fs)).apply f = _
    cases hname : FieldName.ofNumber? f.number with
    | none =>
      rw [payloads_concat_of_none hname, DecodeState.apply, hname]
    | some name =>
      have hfits := h f (List.mem_append_right _ List.mem_cons_self) name hname
      obtain ⟨number, x⟩ := f
      obtain rfl : number = name.number.toNat := FieldName.number_of_ofNumber? hname
      rw [payloads_concat_of_some hname, apply_stateOf hfits]

theorem foldl_apply_of_message {b : Bytes} {fs : List Field} (h : Message envelopeSchema b fs) :
    fs.foldl DecodeState.apply DecodeState.start = stateOf (payloads fs) := by
  refine foldl_apply fun f hf name hname => fits_of_mem_payloads h ?_
  exact List.mem_map_of_mem
    (List.mem_filter.mpr ⟨hf, beq_iff_eq.mpr (FieldName.number_of_ofNumber? hname)⟩)

end Envelope
end TigerClaw
