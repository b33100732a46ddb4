import TigerClaw.Basic

/-!
# Envelopes and their builder

`src/envelope.zig`: the message that crosses every process boundary, and the builder that checks
it.

`Accepted` collects what the builder lets through: the builder's fields are reached through its
setters only, so the schema version keeps its default and no signature is present, and `build`
adds its own checks.
-/

namespace TigerClaw

namespace Envelope

/-- The schema version decoders insist on. -/
def envelopeVersion : UInt32 := 1

/-- Kinds of envelopes.  The wire value of a verb is its position. -/
inductive Verb where
  | unspecified
  | userMsg
  | toolCall
  | toolResult
  | reply
  | retract
  | hello
  | helloAck
  | refuse
  | heartbeat
  deriving DecidableEq

/-- `@intFromEnum`. -/
def Verb.toUInt32 : Verb → UInt32
  | .unspecified => 0
  | .userMsg => 1
  | .toolCall => 2
  | .toolResult => 3
  | .reply => 4
  | .retract => 5
  | .hello => 6
  | .helloAck => 7
  | .refuse => 8
  | .heartbeat => 9

/-- Attachment carried inline in an envelope. -/
structure Attachment where
  name : Bytes
  mime : Bytes
  data : Bytes
  deriving DecidableEq

end Envelope

open Envelope in
/-- The message, with the defaults of the source. -/
structure Envelope where
  envelopeV : UInt32 := envelopeVersion
  verb : Verb
  conversationId : Bytes
  inReplyTo : Option Bytes := none
  originChannelId : Bytes
  senderId : Bytes
  senderSig : Option Bytes := none
  sentAtMs : Int64
  nonce : Option Bytes := none
  bodyMime : Bytes := ascii "application/json"
  body : Bytes
  maxTokens : Option UInt32 := none
  maxWallMs : Option UInt32 := none
  maxCostUsdMicros : Option UInt32 := none
  attachments : List Attachment := []
  threadKey : Option Bytes := none
  deriving DecidableEq

namespace Envelope

/-- The builder holds the envelope under construction. -/
structure Builder where
  env : Envelope

namespace Builder

def init : Builder where
  env :=
    { verb := .unspecified
      conversationId := []
      originChannelId := []
      senderId := []
      sentAtMs := 0
      body := [] }

/-- The setters. -/
inductive Setter where
  | verb (v : Verb)
  | conversationId (id : Bytes)
  | inReplyTo (id : Bytes)
  | originChannelId (id : Bytes)
  | senderId (id : Bytes)
  | sentAtMs (ms : Int64)
  | nonce (n : Bytes)
  | bodyMime (mime : Bytes)
  | body (b : Bytes)
  | maxTokens (t : UInt32)
  | maxWallMs (ms : UInt32)
  | maxCostUsdMicros (c : UInt32)
  | attachments (a : List Attachment)
  | threadKey (k : Bytes)

/-- Call one setter. -/
def set (self : Builder) : Setter → Builder
  | .verb v => ⟨{ self.env with verb := v }⟩
  | .conversationId id => ⟨{ self.env with conversationId := id }⟩
  | .inReplyTo id => ⟨{ self.env with inReplyTo := some id }⟩
  | .originChannelId id => ⟨{ self.env with originChannelId := id }⟩
  | .senderId id => ⟨{ self.env with senderId := id }⟩
  | .sentAtMs ms => ⟨{ self.env with sentAtMs := ms }⟩
  | .nonce n => ⟨{ self.env with nonce := some n }⟩
  | .bodyMime mime => ⟨{ self.env with bodyMime := mime }⟩
  | .body b => ⟨{ self.env with body := b }⟩
  | .maxTokens t => ⟨{ self.env with maxTokens := some t }⟩
  | .maxWallMs ms => ⟨{ self.env with maxWallMs := some ms }⟩
  | .maxCostUsdMicros c => ⟨{ self.env with maxCostUsdMicros := some c }⟩
  | .attachments a => ⟨{ self.env with attachments := a }⟩
  | .threadKey k => ⟨{ self.env with threadKey := some k }⟩

/-- Validate and return the envelope. -/
def build (self : Builder) : Except PlugError Envelope :=
  if self.env.verb = .unspecified then .error .badInput
  else if self.env.conversationId.length = 0 then .error .badInput
  else if self.env.originChannelId.length = 0 then .error .badInput
  else if self.env.senderId.length = 0 then .error .badInput
  else if self.env.sentAtMs < 0 then .error .badInput
  else if self.env.bodyMime.length = 0 then .error .badInput
  else .ok self.env

end Builder

/-- Some sequence of setter calls on a fresh builder builds this envelope. -/
def Accepted (env : Envelope) : Prop :=
  ∃ calls : List Builder.Setter, (calls.foldl Builder.set Builder.init).build = .ok env

/-- What `Accepted` gives the codec. -/
structure Valid (env : Envelope) : Prop where
  envelopeV : env.envelopeV = envelopeVersion
  senderSig : env.senderSig = none
  verb : env.verb ≠ .unspecified
  conversationId : env.conversationId ≠ []
  originChannelId : env.originChannelId ≠ []
  senderId : env.senderId ≠ []
  bodyMime : env.bodyMime ≠ []

/-- No setter touches the schema version or the signature. -/
theorem Builder.foldl_set (calls : List Builder.Setter) (b : Builder)
    (h : b.env.envelopeV = envelopeVersion ∧ b.env.senderSig = none) :
    (calls.foldl Builder.set b).env.envelopeV = envelopeVersion ∧
      (calls.foldl Builder.set b).env.senderSig = none := by
  induction calls generalizing b with
  | nil => exact h
  | cons s calls ih => exact ih (b.set s) (by cases s <;> exact h)

/-- `build` returns the envelope it checked. -/
theorem Builder.build_eq_ok {b : Builder} {env : Envelope} (h : b.build = .ok env) :
    env = b.env ∧ env.verb ≠ .unspecified ∧ env.conversationId ≠ [] ∧
      env.originChannelId ≠ [] ∧ env.senderId ≠ [] ∧ 0 ≤ env.sentAtMs ∧ env.bodyMime ≠ [] := by
  unfold Builder.build at h
  split at h; · cases h
  split at h; · cases h
  split at h; · cases h
  split at h; · cases h
  split at h; · cases h
  split at h; · cases h
  rename_i hverb hconv horigin hsender hsent hmime
  cases h
  exact ⟨rfl, hverb, mt List.length_eq_zero_iff.mpr hconv, mt List.length_eq_zero_iff.mpr horigin,
    mt List.length_eq_zero_iff.mpr hsender, Int64.not_lt.mp hsent,
    mt List.length_eq_zero_iff.mpr hmime⟩

theorem Accepted.valid {env : Envelope} (h : Accepted env) : Valid env := by
  obtain ⟨calls, hb⟩ := h
  obtain ⟨rfl, hverb, hconv, horigin, hsender, -, hmime⟩ := Builder.build_eq_ok hb
  obtain ⟨hv, hsig⟩ := Builder.foldl_set calls Builder.init ⟨rfl, rfl⟩
  exact ⟨hv, hsig, hverb, hconv, horigin, hsender, hmime⟩

end Envelope
end TigerClaw
