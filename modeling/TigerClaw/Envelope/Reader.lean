import TigerClaw.Envelope.Codec
import TigerClaw.Library.WireFormat
import Mathlib.Tactic.Ring

/-!
# What the reader reads

Every operation of `Reader` is matched with the wire grammar: which bytes it takes off the front
when it succeeds, and on which inputs one of its unchecked operations trips.

* `readVarint_of_varint`, `varint_of_readVarint`, `traps_readVarint`.
* `readString_of_delimited`, `delimited_of_readString`, `traps_readString`.
* `readField`: a tag and a payload of the kind that the schema gives its field number.  Neither
  loop of the codec calls it; `decodeField` and `decodeAttachmentField` are shown to be this
  followed by an assignment, so that the grammar is compared with the code once.
-/

namespace TigerClaw
namespace Envelope

open WireFormat

namespace Reader

/-- `r'` is `r` with `bs` taken off the front. -/
structure Reads (r : Reader) (bs : Bytes) (r' : Reader) : Prop where
  rest : r.rest = bs ++ r'.rest
  pos : r'.pos = r.pos + bs.length

theorem Reads.trans {r r' r'' : Reader} {bs cs : Bytes} (h : Reads r bs r')
    (h' : Reads r' cs r'') : Reads r (bs ++ cs) r'' :=
  ⟨by rw [h.rest, h'.rest, List.append_assoc], by
    rw [h'.pos, h.pos, List.length_append, Nat.add_assoc]⟩

theorem Reads.len {r r' : Reader} {bs : Bytes} (h : Reads r bs r') : r'.len = r.len := by
  simp only [Reader.len, h.rest, h.pos, List.length_append]
  omega

theorem Reads.rest_ne_nil {r r' : Reader} {bs : Bytes} (h : Reads r bs r')
    (hpos : 0 < bs.length) : r.rest ≠ [] := by
  rw [h.rest]
  exact List.append_ne_nil_of_left_ne_nil (List.length_pos_iff.mp hpos) _

/-- Where reading `bs` leads is determined. -/
theorem Reads.eq_mk {r r' : Reader} {bs rest : Bytes} (h : Reads r bs r')
    (hr : r.rest = bs ++ rest) : r' = ⟨r.pos + bs.length, rest⟩ := by
  have : r'.rest = rest := List.append_cancel_left (h.rest.symm.trans hr)
  obtain ⟨pos, rest'⟩ := r'
  simp only at this
  rw [this, ← h.pos]

theorem hasMore_iff {r : Reader} : r.hasMore = true ↔ r.rest ≠ [] := by
  rw [hasMore, decide_eq_true_iff, Reader.len, ← List.length_pos_iff]
  omega

end Reader

open Reader

/-! ## Varints -/

set_option maxRecDepth 5000 in
theorem and_continuation (b : UInt8) : b &&& 0x80 = 0 ↔ b.toNat < 128 := by
  have h : ∀ i : Fin 256, (i.val &&& 128 = 0) ↔ i.val < 128 := by decide
  rw [← UInt8.toNat_inj, UInt8.toNat_and]
  exact h ⟨b.toNat, b.toNat_lt⟩

/-- Seven bits go in above the ones already there; what does not fit 64 bits falls off. -/
theorem toNat_or_shift (acc : UInt64) (b : UInt8) {s : ℕ} (hs : s < 64)
    (hacc : acc.toNat < 2 ^ s) :
    (acc ||| ((b &&& 0x7F).toUInt64 <<< UInt64.ofNat s)).toNat =
      (acc.toNat + 2 ^ s * (b.toNat % 128)) % 2 ^ 64 := by
  have hgroup : (b &&& 0x7F).toNat = b.toNat % 128 := by
    rw [UInt8.toNat_and]
    exact Nat.and_two_pow_sub_one_eq_mod b.toNat 7
  have hpow : 2 ^ 64 = 2 ^ s * 2 ^ (64 - s) := by rw [← pow_add]; congr 1; omega
  have hshift : ((b &&& 0x7F).toUInt64 <<< UInt64.ofNat s).toNat =
      2 ^ s * (b.toNat % 128 % 2 ^ (64 - s)) := by
    rw [UInt64.toNat_shiftLeft, UInt8.toNat_toUInt64, hgroup, UInt64.toNat_ofNat',
      Nat.mod_eq_of_lt (show s < 2 ^ 64 by omega), Nat.mod_eq_of_lt hs, Nat.shiftLeft_eq,
      Nat.mul_comm, hpow, Nat.mul_mod_mul_left]
  rw [UInt64.toNat_or, hshift, Nat.or_comm, ← Nat.two_pow_add_eq_or_of_lt hacc]
  have hlt : b.toNat % 128 % 2 ^ (64 - s) < 2 ^ (64 - s) := Nat.mod_lt _ (Nat.two_pow_pos _)
  have hfit : 2 ^ s * (b.toNat % 128 % 2 ^ (64 - s)) + acc.toNat < 2 ^ 64 := by
    rw [hpow]
    calc 2 ^ s * (b.toNat % 128 % 2 ^ (64 - s)) + acc.toNat
        < 2 ^ s * (b.toNat % 128 % 2 ^ (64 - s)) + 2 ^ s := by omega
      _ = 2 ^ s * (b.toNat % 128 % 2 ^ (64 - s) + 1) := by rw [Nat.mul_add_one]
      _ ≤ 2 ^ s * 2 ^ (64 - s) := Nat.mul_le_mul_left _ hlt
  conv_rhs => rw [← Nat.div_add_mod (b.toNat % 128) (2 ^ (64 - s)), Nat.mul_add,
    ← Nat.mul_assoc, ← hpow, Nat.add_left_comm, Nat.mul_add_mod, Nat.add_comm acc.toNat]
  exact (Nat.mod_eq_of_lt hfit).symm

/-- **The loop of `readVarint`.**  After `k` groups with value `acc`, it trips when the tenth
group asks for another one, and otherwise reads the number at the front. -/
theorem readVarintLoop_eq (q : Bytes) (pos : ℕ) (acc : UInt64) (k : ℕ) (hk : k ≤ 9)
    (hacc : acc.toNat < 2 ^ (7 * k)) :
    readVarintLoop q pos acc (7 * k) =
      if 10 - k ≤ Base128.leading q then .trap .overflow
      else match Base128.split q with
        | none => .error .truncated
        | some (vb, rest) =>
          .ok (UInt64.ofNat (acc.toNat + 2 ^ (7 * k) * Base128.value vb),
            ⟨pos + vb.length, rest⟩) := by
  induction q generalizing pos acc k with
  | nil =>
    rw [readVarintLoop, if_neg (by simp only [Base128.leading]; omega), Base128.split]
  | cons b q ih =>
    have hor := toNat_or_shift acc b (s := 7 * k) (by omega) hacc
    rw [readVarintLoop, Base128.leading, Base128.split]
    by_cases hb : b.toNat < 128
    · simp only [and_continuation, if_pos hb]
      rw [if_neg (by omega)]
      simp only [Outcome.ok.injEq, Prod.mk.injEq, List.length_singleton, and_true]
      rw [← UInt64.toNat_inj, hor, UInt64.toNat_ofNat', Base128.value_cons, Base128.value_nil,
        Nat.mul_zero, Nat.add_zero]
    · simp only [and_continuation, if_neg hb]
      by_cases h9 : k = 9
      · subst h9
        rw [if_pos (by omega), if_pos (by omega)]
      · have hpow : (2 : ℕ) ^ (7 * (k + 1)) = 2 ^ (7 * k) * 128 := by
          rw [Nat.mul_add_one, pow_add]
          rfl
        have hle : (2 : ℕ) ^ (7 * (k + 1)) ≤ 2 ^ 63 :=
          Nat.pow_le_pow_right (by omega) (by omega)
        have hlt : acc.toNat + 2 ^ (7 * k) * (b.toNat % 128) < 2 ^ (7 * (k + 1)) := by
          have hmod : b.toNat % 128 + 1 ≤ 128 := by omega
          have := Nat.mul_le_mul_left (2 ^ (7 * k)) hmod
          rw [hpow]
          rw [Nat.mul_add_one] at this
          omega
        rw [Nat.mod_eq_of_lt (by omega)] at hor
        rw [if_neg (by omega), show 7 * k + 7 = 7 * (k + 1) by omega,
          ih (pos + 1) _ (k + 1) (by omega) (by rw [hor]; exact hlt), hor]
        have hiff : 10 - (k + 1) ≤ Base128.leading q ↔ 10 - k ≤ Base128.leading q + 1 := by omega
        simp only [hiff]
        split
        · rfl
        · cases hs : Base128.split q with
          | none => rfl
          | some p =>
            obtain ⟨vb, rest⟩ := p
            simp only [Option.map_some, Base128.value_cons, List.length_cons, Outcome.ok.injEq,
              Prod.mk.injEq, Reader.mk.injEq, and_true]
            refine ⟨?_, by omega⟩
            rw [hpow]
            congr 1
            ring

theorem readVarint_eq (r : Reader) :
    r.readVarint =
      if 10 ≤ Base128.leading r.rest then .trap .overflow
      else match Base128.split r.rest with
        | none => .error .truncated
        | some (vb, rest) => .ok (UInt64.ofNat (Base128.value vb), ⟨r.pos + vb.length, rest⟩) := by
  have h := readVarintLoop_eq r.rest r.pos 0 0 (by omega) (by simp)
  simpa [readVarint] using h

theorem traps_readVarint {r : Reader} : r.readVarint.Traps ↔ Overlong r.rest := by
  rw [readVarint_eq, Overlong]
  split
  · simpa using ‹10 ≤ _›
  · cases Base128.split r.rest <;> simp_all

theorem varint_of_readVarint {r r' : Reader} {v : UInt64} (h : r.readVarint = .ok (v, r')) :
    ∃ vb, Reads r vb r' ∧ Varint vb v := by
  rw [readVarint_eq] at h
  split at h
  · cases h
  · rename_i hle
    cases hs : Base128.split r.rest with
    | none => simp [hs] at h
    | some p =>
      obtain ⟨vb, rest⟩ := p
      simp only [hs, Outcome.ok.injEq, Prod.mk.injEq] at h
      obtain ⟨rfl, rfl⟩ := h
      obtain ⟨hq, hc⟩ := Base128.split_eq_some hs
      exact ⟨vb, ⟨hq, rfl⟩, hc, by rw [Base128.length_of_split hs]; omega, rfl⟩

theorem readVarint_of_varint {r : Reader} {vb rest : Bytes} {v : UInt64} (hv : Varint vb v)
    (hr : r.rest = vb ++ rest) : r.readVarint = .ok (v, ⟨r.pos + vb.length, rest⟩) := by
  obtain ⟨hc, hlen, rfl⟩ := hv
  have hs : Base128.split r.rest = some (vb, rest) := by rw [hr, Base128.split_append hc]
  have := Base128.length_of_split hs
  rw [readVarint_eq, if_neg (by omega), hs]

/-! ## Lengths and skipped fields -/

theorem reads_of_readBytes {r r' : Reader} {n : UInt64} {s : Bytes}
    (h : r.readBytes n = .ok (s, r')) : Reads r s r' ∧ s.length = n.toNat := by
  unfold readBytes at h
  split at h
  · cases h
  · split at h
    · cases h
    · rename_i hlen
      simp only [Outcome.ok.injEq, Prod.mk.injEq] at h
      obtain ⟨rfl, rfl⟩ := h
      simp only [Reader.len] at hlen
      have hl : (r.rest.take n.toNat).length = n.toNat := by rw [List.length_take]; omega
      exact ⟨⟨(List.take_append_drop _ _).symm, by rw [hl]⟩, hl⟩

theorem readBytes_of_length {r : Reader} {s rest : Bytes} {n : UInt64} (hlen : r.len < 2 ^ 64)
    (hn : n.toNat = s.length) (hr : r.rest = s ++ rest) :
    r.readBytes n = .ok (s, ⟨r.pos + s.length, rest⟩) := by
  have hle : r.pos + n.toNat ≤ r.len := by
    rw [Reader.len, hr, List.length_append]
    omega
  rw [readBytes, if_neg (by omega), if_neg (by omega), hr, hn, List.take_left, List.drop_left]

theorem traps_readBytes {r : Reader} {n : UInt64} :
    (r.readBytes n).Traps ↔ 2 ^ 64 ≤ r.pos + n.toNat := by
  unfold readBytes
  split
  · simpa using ‹2 ^ 64 ≤ _›
  · split <;> simpa using ‹¬ 2 ^ 64 ≤ _›

theorem delimited_of_readString {r r' : Reader} {s : Bytes} (h : r.readString = .ok (s, r')) :
    ∃ bs, Reads r bs r' ∧ Delimited bs s := by
  obtain ⟨⟨n, r₁⟩, hn, hs⟩ := Outcome.bind_eq_ok.mp h
  obtain ⟨lb, hread, hlb⟩ := varint_of_readVarint hn
  obtain ⟨hread', hlen⟩ := reads_of_readBytes hs
  exact ⟨lb ++ s, hread.trans hread', lb, n, rfl, hlb, hlen.symm⟩

theorem readString_of_delimited {r : Reader} {bs s rest : Bytes} (hlen : r.len < 2 ^ 64)
    (h : Delimited bs s) (hr : r.rest = bs ++ rest) :
    r.readString = .ok (s, ⟨r.pos + bs.length, rest⟩) := by
  obtain ⟨lb, n, rfl, hlb, hn⟩ := h
  rw [List.append_assoc] at hr
  have hlen' : (⟨r.pos + lb.length, s ++ rest⟩ : Reader).len < 2 ^ 64 := by
    simp only [Reader.len, hr, List.length_append] at hlen ⊢
    omega
  rw [readString, readVarint_of_varint hlb hr, Outcome.ok_bind]
  show readBytes _ n = _
  rw [readBytes_of_length hlen' hn rfl, List.length_append, Nat.add_assoc]

theorem traps_readString {r : Reader} : r.readString.Traps ↔ LengthHazard r.pos r.rest := by
  rw [readString, Outcome.traps_bind, traps_readVarint, LengthHazard]
  refine or_congr Iff.rfl ⟨?_, ?_⟩
  · rintro ⟨⟨n, r₁⟩, hn, ht⟩
    obtain ⟨lb, hread, hlb⟩ := varint_of_readVarint hn
    rw [traps_readBytes, hread.pos] at ht
    exact ⟨lb, n, r₁.rest, hread.rest, hlb, ht⟩
  · rintro ⟨lb, n, rest, hr, hlb, hn⟩
    exact ⟨(n, _), readVarint_of_varint hlb hr, traps_readBytes.mpr hn⟩

/-- The wire types `skipField` knows, as a case distinction on numbers. -/
theorem skipField_eq (r : Reader) (wire : UInt32) :
    r.skipField wire =
      if wire.toNat = 0 then do
        let (_, r) ← r.readVarint
        pure r
      else if wire.toNat = 2 then do
        let (_, r) ← r.readString
        pure r
      else if wire.toNat = 1 then do
        let (_, r) ← r.readBytes 8
        pure r
      else if wire.toNat = 5 then do
        let (_, r) ← r.readBytes 4
        pure r
      else .error .unknownWireType := by
  have h (n : UInt32) : wire = n ↔ wire.toNat = n.toNat := UInt32.toNat_inj.symm
  have hstring : (do
      let (len, r) ← r.readVarint
      let (_, r) ← r.readBytes len
      pure r : Outcome ReadError Reader) = (do
      let (_, r) ← r.readString
      pure r) := by
    rw [readString]
    cases r.readVarint with
    | ok p => rfl
    | error e => rfl
    | trap t => rfl
  unfold skipField
  rw [hstring]
  simp only [h, wireVarint, wireLenDelim, UInt32.reduceToNat]

theorem skipped_of_skipField {r r' : Reader} {wire : UInt32} (h : r.skipField wire = .ok r') :
    ∃ bs, Reads r bs r' ∧ Skipped wire.toNat bs := by
  rw [skipField_eq] at h
  split at h
  · obtain ⟨⟨v, r₁⟩, hv, hr⟩ := Outcome.bind_eq_ok.mp h
    obtain rfl : r₁ = r' := by simpa using hr
    obtain ⟨vb, hread, hvb⟩ := varint_of_readVarint hv
    exact ⟨vb, hread, .inl ⟨‹_›, v, hvb⟩⟩
  split at h
  · obtain ⟨⟨s, r₁⟩, hs, hr⟩ := Outcome.bind_eq_ok.mp h
    obtain rfl : r₁ = r' := by simpa using hr
    obtain ⟨bs, hread, hbs⟩ := delimited_of_readString hs
    exact ⟨bs, hread, .inr (.inl ⟨‹_›, s, hbs⟩)⟩
  split at h
  · obtain ⟨⟨s, r₁⟩, hs, hr⟩ := Outcome.bind_eq_ok.mp h
    obtain rfl : r₁ = r' := by simpa using hr
    obtain ⟨hread, hlen⟩ := reads_of_readBytes hs
    exact ⟨s, hread, .inr (.inr (.inl ⟨‹_›, hlen⟩))⟩
  split at h
  · obtain ⟨⟨s, r₁⟩, hs, hr⟩ := Outcome.bind_eq_ok.mp h
    obtain rfl : r₁ = r' := by simpa using hr
    obtain ⟨hread, hlen⟩ := reads_of_readBytes hs
    exact ⟨s, hread, .inr (.inr (.inr ⟨‹_›, hlen⟩))⟩
  · cases h

theorem skipField_of_skipped {r : Reader} {bs rest : Bytes} {wire : UInt32}
    (hlen : r.len < 2 ^ 64) (h : Skipped wire.toNat bs) (hr : r.rest = bs ++ rest) :
    r.skipField wire = .ok ⟨r.pos + bs.length, rest⟩ := by
  rw [skipField_eq]
  rcases h with ⟨hw, v, hv⟩ | ⟨hw, s, hs⟩ | ⟨hw, hb⟩ | ⟨hw, hb⟩
  · simp [hw, readVarint_of_varint hv hr]
  · simp [hw, readString_of_delimited hlen hs hr]
  · simp [hw, readBytes_of_length (n := 8) hlen hb.symm hr]
  · simp [hw, readBytes_of_length (n := 4) hlen hb.symm hr]

theorem traps_skipField {r : Reader} {wire : UInt32} :
    (r.skipField wire).Traps ↔
      (wire.toNat = 0 ∧ Overlong r.rest) ∨ (wire.toNat = 2 ∧ LengthHazard r.pos r.rest) ∨
        (wire.toNat = 1 ∧ 2 ^ 64 ≤ r.pos + 8) ∨ (wire.toNat = 5 ∧ 2 ^ 64 ≤ r.pos + 4) := by
  have h8 : (8 : UInt64).toNat = 8 := rfl
  have h4 : (4 : UInt64).toNat = 4 := rfl
  rw [skipField_eq]
  split
  · simp [Outcome.traps_bind, traps_readVarint, *]
  split
  · simp [Outcome.traps_bind, traps_readString, *]
  split
  · simp [Outcome.traps_bind, traps_readBytes, *]
  split
  · simp [Outcome.traps_bind, traps_readBytes, *]
  · simp [*]

/-! ## Casts -/

theorem intCastU32_eq_ok {ε : Type} {v : UInt64} {w : UInt32} :
    (intCastU32 v : Outcome ε UInt32) = .ok w ↔ v.toNat < 2 ^ 32 ∧ w = v.toUInt32 := by
  unfold intCastU32
  split <;> simp_all [eq_comm]

theorem intCastU32_of_lt {ε : Type} {v : UInt64} (h : v.toNat < 2 ^ 32) :
    (intCastU32 v : Outcome ε UInt32) = .ok v.toUInt32 := if_pos h

theorem traps_intCastU32 {ε : Type} {v : UInt64} :
    (intCastU32 v : Outcome ε UInt32).Traps ↔ 2 ^ 32 ≤ v.toNat := by
  unfold intCastU32
  split <;> simp_all

theorem toNat_toUInt32_of_lt {v : UInt64} (h : v.toNat < 2 ^ 32) : v.toUInt32.toNat = v.toNat := by
  rw [UInt64.toNat_toUInt32]
  exact Nat.mod_eq_of_lt h

theorem toUInt64_toUInt32_of_lt {v : UInt64} (h : v.toNat < 2 ^ 32) : v.toUInt32.toUInt64 = v := by
  rw [← UInt64.toNat_inj, UInt32.toNat_toUInt64, toNat_toUInt32_of_lt h]

theorem toNat_tag_field (t : UInt64) : (t >>> 3).toNat = t.toNat / 8 := by
  rw [UInt64.toNat_shiftRight]
  simp only [UInt64.reduceToNat, Nat.reduceMod, Nat.shiftRight_eq_div_pow, Nat.reducePow]

theorem toNat_tag_wire (t : UInt64) : (t &&& 0x7).toNat = t.toNat % 8 := by
  rw [UInt64.toNat_and]
  exact Nat.and_two_pow_sub_one_eq_mod t.toNat 3

/-! ## Fields -/

/-- A reader of nested messages that does what the schema says of them. -/
structure NestedReader (S : Schema) where
  read : Bytes → Outcome ReadError Unit
  nested_of_ok : ∀ s, read s = .ok () → S.nested s
  ok_of_nested : ∀ s, s.length < 2 ^ 64 → S.nested s → read s = .ok ()
  traps_iff : ∀ s, s.length < 2 ^ 64 → ((read s).Traps ↔ S.nestedHazard s)

/-- Read a payload of kind `k`. -/
def readValue (nested : Bytes → Outcome ReadError Unit) (k : Kind) (wire : UInt32) (r : Reader) :
    Outcome ReadError (Value × Reader) :=
  match k with
  | .uint32 => do
    let (v, r) ← r.readVarint
    let v ← intCastU32 v
    pure (.varint v.toUInt64, r)
  | .enum bound => do
    let (v, r) ← r.readVarint
    let v ← intCastU32 v
    if v.toNat < bound then pure (.varint v.toUInt64, r) else .error .unknownVerb
  | .uint64 => do
    let (v, r) ← r.readVarint
    pure (.varint v, r)
  | .bytes => do
    let (s, r) ← r.readString
    pure (.bytes s, r)
  | .message => do
    let (s, r) ← r.readString
    nested s
    pure (.bytes s, r)
  | .unknown => do
    let r ← r.skipField wire
    pure (.skipped, r)

/-- Read a tag, and then a payload of the kind of its field number. -/
def readField (kind : ℕ → Kind) (nested : Bytes → Outcome ReadError Unit) (r : Reader) :
    Outcome ReadError (Field × Reader) := do
  let (tag, r) ← r.readVarint
  let field ← intCastU32 (tag >>> 3)
  let wire ← intCastU32 (tag &&& 0x7)
  let (x, r) ← readValue nested (kind field.toNat) wire r
  pure (⟨field.toNat, x⟩, r)

variable {S : Schema} (N : NestedReader S)

theorem payload_of_readValue {r r' : Reader} {k : Kind} {wire : UInt32} {x : Value}
    (h : readValue N.read k wire r = .ok (x, r')) :
    ∃ pb, Reads r pb r' ∧ Payload S k wire.toNat pb x := by
  cases k with
  | uint32 =>
    obtain ⟨⟨v, r₁⟩, hv, h⟩ := Outcome.bind_eq_ok.mp h
    obtain ⟨w, hw, h⟩ := Outcome.bind_eq_ok.mp h
    obtain ⟨hlt, rfl⟩ := intCastU32_eq_ok.mp hw
    rw [toUInt64_toUInt32_of_lt hlt] at h
    obtain ⟨rfl, rfl⟩ := by simpa using h
    obtain ⟨vb, hread, hvb⟩ := varint_of_readVarint hv
    exact ⟨vb, hread, v, rfl, hvb, hlt⟩
  | enum bound =>
    obtain ⟨⟨v, r₁⟩, hv, h⟩ := Outcome.bind_eq_ok.mp h
    obtain ⟨w, hw, h⟩ := Outcome.bind_eq_ok.mp h
    obtain ⟨hlt, rfl⟩ := intCastU32_eq_ok.mp hw
    split at h
    · rename_i hbound
      rw [toUInt64_toUInt32_of_lt hlt] at h
      rw [toNat_toUInt32_of_lt hlt] at hbound
      obtain ⟨rfl, rfl⟩ := by simpa using h
      obtain ⟨vb, hread, hvb⟩ := varint_of_readVarint hv
      exact ⟨vb, hread, v, rfl, hvb, hlt, hbound⟩
    · cases h
  | uint64 =>
    obtain ⟨⟨v, r₁⟩, hv, h⟩ := Outcome.bind_eq_ok.mp h
    obtain ⟨rfl, rfl⟩ := by simpa using h
    obtain ⟨vb, hread, hvb⟩ := varint_of_readVarint hv
    exact ⟨vb, hread, v, rfl, hvb⟩
  | bytes =>
    obtain ⟨⟨s, r₁⟩, hs, h⟩ := Outcome.bind_eq_ok.mp h
    obtain ⟨rfl, rfl⟩ := by simpa using h
    obtain ⟨bs, hread, hbs⟩ := delimited_of_readString hs
    exact ⟨bs, hread, s, rfl, hbs⟩
  | message =>
    obtain ⟨⟨s, r₁⟩, hs, h⟩ := Outcome.bind_eq_ok.mp h
    obtain ⟨⟨⟩, hn, h⟩ := Outcome.bind_eq_ok.mp h
    obtain ⟨rfl, rfl⟩ := by simpa using h
    obtain ⟨bs, hread, hbs⟩ := delimited_of_readString hs
    exact ⟨bs, hread, s, rfl, hbs, N.nested_of_ok s hn⟩
  | unknown =>
    obtain ⟨r₁, hs, h⟩ := Outcome.bind_eq_ok.mp h
    obtain ⟨rfl, rfl⟩ := by simpa using h
    obtain ⟨bs, hread, hbs⟩ := skipped_of_skipField hs
    exact ⟨bs, hread, rfl, hbs⟩

/-- A delimited string is no longer than the buffer it is cut from. -/
theorem length_of_delimited {r : Reader} {bs s rest : Bytes} (hlen : r.len < 2 ^ 64)
    (h : Delimited bs s) (hr : r.rest = bs ++ rest) : s.length < 2 ^ 64 := by
  obtain ⟨lb, n, rfl, -, -⟩ := h
  simp only [Reader.len, hr, List.length_append] at hlen
  omega

theorem readValue_of_payload {r : Reader} {k : Kind} {wire : UInt32} {x : Value}
    {pb rest : Bytes} (hlen : r.len < 2 ^ 64) (h : Payload S k wire.toNat pb x)
    (hr : r.rest = pb ++ rest) :
    readValue N.read k wire r = .ok (x, ⟨r.pos + pb.length, rest⟩) := by
  cases k with
  | uint32 =>
    obtain ⟨v, rfl, hv, hlt⟩ := h
    simp [readValue, readVarint_of_varint hv hr, intCastU32_of_lt hlt, toUInt64_toUInt32_of_lt hlt]
  | enum bound =>
    obtain ⟨v, rfl, hv, hlt, hbound⟩ := h
    simp [readValue, readVarint_of_varint hv hr, intCastU32_of_lt hlt, toUInt64_toUInt32_of_lt hlt,
      toNat_toUInt32_of_lt hlt, hbound, -UInt64.toNat_toUInt32]
  | uint64 =>
    obtain ⟨v, rfl, hv⟩ := h
    simp [readValue, readVarint_of_varint hv hr]
  | bytes =>
    obtain ⟨s, rfl, hs⟩ := h
    simp [readValue, readString_of_delimited hlen hs hr]
  | message =>
    obtain ⟨s, rfl, hs, hn⟩ := h
    simp [readValue, readString_of_delimited hlen hs hr,
      N.ok_of_nested s (length_of_delimited hlen hs hr) hn]
  | unknown =>
    obtain ⟨rfl, hs⟩ := h
    simp [readValue, skipField_of_skipped hlen hs hr]

theorem traps_readNumber {r : Reader} {β : Type} {f : UInt64 × Reader → Outcome ReadError β}
    (hf : ∀ v r', (f (v, r')).Traps ↔ 2 ^ 32 ≤ v.toNat) :
    (r.readVarint >>= f).Traps ↔ NumberHazard r.rest := by
  rw [Outcome.traps_bind, traps_readVarint, NumberHazard]
  refine or_congr Iff.rfl ⟨?_, ?_⟩
  · rintro ⟨⟨v, r₁⟩, hv, ht⟩
    obtain ⟨vb, hread, hvb⟩ := varint_of_readVarint hv
    exact ⟨vb, v, r₁.rest, hread.rest, hvb, (hf v r₁).mp ht⟩
  · rintro ⟨vb, v, rest, hr, hvb, hbig⟩
    exact ⟨(v, _), readVarint_of_varint hvb hr, (hf v _).mpr hbig⟩

theorem traps_readValue {r : Reader} {k : Kind} {wire : UInt32} (hlen : r.len < 2 ^ 64) :
    (readValue N.read k wire r).Traps ↔ PayloadHazard S r.pos k wire.toNat r.rest := by
  cases k with
  | uint32 =>
    refine traps_readNumber fun v r' => ?_
    simp [Outcome.traps_bind, traps_intCastU32]
  | enum bound =>
    refine traps_readNumber fun v r' => ?_
    simp only [Outcome.traps_bind, traps_intCastU32, or_iff_left_iff_imp]
    rintro ⟨w, -, ht⟩
    split at ht <;> simp at ht
  | uint64 => simp [readValue, PayloadHazard, Outcome.traps_bind, traps_readVarint]
  | bytes => simp [readValue, PayloadHazard, Outcome.traps_bind, traps_readString]
  | message =>
    rw [readValue, PayloadHazard, Outcome.traps_bind, traps_readString]
    refine or_congr Iff.rfl ⟨?_, ?_⟩
    · rintro ⟨⟨s, r₁⟩, hs, ht⟩
      obtain ⟨bs, hread, hbs⟩ := delimited_of_readString hs
      have hlt := length_of_delimited hlen hbs hread.rest
      simp only [Outcome.traps_bind, Outcome.pure_eq, Outcome.not_traps_ok, and_false,
        exists_false, or_false] at ht
      exact ⟨bs, s, r₁.rest, hread.rest, hbs, (N.traps_iff s hlt).mp ht⟩
    · rintro ⟨bs, s, rest, hr, hbs, hn⟩
      refine ⟨(s, _), readString_of_delimited hlen hbs hr, ?_⟩
      rw [Outcome.traps_bind]
      exact .inl ((N.traps_iff s (length_of_delimited hlen hbs hr)).mpr hn)
  | unknown => simp [readValue, PayloadHazard, Outcome.traps_bind, traps_skipField]

/-- Read a tag with a field number that fits, and go on with the payload. -/
theorem readField_of_tag (kind : ℕ → Kind) (nested : Bytes → Outcome ReadError Unit)
    {r : Reader} {tb rest : Bytes} {t : UInt64} (ht : Varint tb t) (hr : r.rest = tb ++ rest)
    (hfield : t.toNat / 8 < 2 ^ 32) :
    ∃ wire : UInt32, wire.toNat = t.toNat % 8 ∧ readField kind nested r =
      (readValue nested (kind (t.toNat / 8)) wire ⟨r.pos + tb.length, rest⟩ >>= fun p =>
        pure (⟨t.toNat / 8, p.1⟩, p.2)) := by
  have hf : (t >>> 3).toNat < 2 ^ 32 := by rwa [toNat_tag_field]
  have hw : (t &&& 0x7).toNat < 2 ^ 32 := by rw [toNat_tag_wire]; omega
  refine ⟨(t &&& 0x7).toUInt32, by rw [toNat_toUInt32_of_lt hw, toNat_tag_wire], ?_⟩
  simp only [readField, readVarint_of_varint ht hr, Outcome.ok_bind, intCastU32_of_lt hf,
    intCastU32_of_lt hw, toNat_toUInt32_of_lt hf, toNat_tag_field]

/-- **What `readField` accepts is one field of the grammar.** -/
theorem raw_of_readField {r r' : Reader} {f : Field}
    (h : readField S.kind N.read r = .ok (f, r')) : ∃ fb, Reads r fb r' ∧ Raw S fb f := by
  obtain ⟨⟨t, r₁⟩, ht, h⟩ := Outcome.bind_eq_ok.mp h
  obtain ⟨field, hfield, h⟩ := Outcome.bind_eq_ok.mp h
  obtain ⟨wire, hwire, h⟩ := Outcome.bind_eq_ok.mp h
  obtain ⟨⟨x, r₂⟩, hx, h⟩ := Outcome.bind_eq_ok.mp h
  obtain ⟨rfl, rfl⟩ := by simpa using h
  obtain ⟨hlt, rfl⟩ := intCastU32_eq_ok.mp hfield
  obtain ⟨hwlt, rfl⟩ := intCastU32_eq_ok.mp hwire
  obtain ⟨tb, hread, htb⟩ := varint_of_readVarint ht
  obtain ⟨pb, hread', hpb⟩ := payload_of_readValue N hx
  rw [toNat_toUInt32_of_lt hwlt, toNat_tag_wire] at hpb
  rw [toNat_toUInt32_of_lt hlt, toNat_tag_field] at *
  exact ⟨tb ++ pb, hread.trans hread', tb, t, pb, rfl, htb, hlt, rfl, hpb⟩

/-- **Every field of the grammar is accepted.** -/
theorem readField_of_raw {r : Reader} {fb rest : Bytes} {f : Field} (hlen : r.len < 2 ^ 64)
    (h : Raw S fb f) (hr : r.rest = fb ++ rest) :
    readField S.kind N.read r = .ok (f, ⟨r.pos + fb.length, rest⟩) := by
  obtain ⟨tb, t, pb, rfl, htb, hlt, hnum, hpb⟩ := h
  rw [List.append_assoc] at hr
  obtain ⟨wire, hwire, heq⟩ := readField_of_tag S.kind N.read htb hr hlt
  have hlen' : (⟨r.pos + tb.length, pb ++ rest⟩ : Reader).len < 2 ^ 64 := by
    simp only [Reader.len, hr, List.length_append] at hlen ⊢
    omega
  obtain ⟨number, x⟩ := f
  obtain rfl : number = t.toNat / 8 := hnum
  rw [← hwire] at hpb
  rw [heq, readValue_of_payload N hlen' hpb rfl, List.length_append, ← Nat.add_assoc]
  rfl

/-- **`readField` trips exactly on an out-of-range field.** -/
theorem traps_readField {r : Reader} (hlen : r.len < 2 ^ 64) :
    (readField S.kind N.read r).Traps ↔ Hazard S r.pos r.rest := by
  rw [Hazard]
  constructor
  · intro h
    rw [readField, Outcome.traps_bind, traps_readVarint] at h
    refine h.imp_right ?_
    rintro ⟨⟨t, r₁⟩, ht, h⟩
    obtain ⟨tb, hread, htb⟩ := varint_of_readVarint ht
    refine ⟨tb, t, r₁.rest, hread.rest, htb, ?_⟩
    by_cases hlt : t.toNat / 8 < 2 ^ 32
    · obtain ⟨wire, hwire, heq⟩ :=
        readField_of_tag S.kind N.read htb hread.rest hlt
      have htrap : (readField S.kind N.read r).Traps := by
        rw [readField, Outcome.traps_bind]
        exact .inr ⟨_, ht, h⟩
      have hlen' : (⟨r.pos + tb.length, r₁.rest⟩ : Reader).len < 2 ^ 64 := by
        rw [← hread.eq_mk hread.rest, hread.len]
        exact hlen
      rw [heq, Outcome.traps_bind, traps_readValue N hlen', hwire] at htrap
      simp only [Outcome.pure_eq, Outcome.not_traps_ok, and_false, exists_false, or_false] at htrap
      exact .inr ⟨hlt, htrap⟩
    · exact .inl (by omega)
  · rintro (h | ⟨tb, t, rest, hr, htb, hbig | ⟨hlt, hpay⟩⟩)
    · rw [readField, Outcome.traps_bind, traps_readVarint]
      exact .inl h
    · rw [readField, Outcome.traps_bind]
      refine .inr ⟨_, readVarint_of_varint htb hr, ?_⟩
      rw [Outcome.traps_bind, traps_intCastU32, toNat_tag_field]
      exact .inl hbig
    · obtain ⟨wire, hwire, heq⟩ :=
        readField_of_tag S.kind N.read htb hr hlt
      have hlen' : (⟨r.pos + tb.length, rest⟩ : Reader).len < 2 ^ 64 := by
        simp only [Reader.len, hr, List.length_append] at hlen ⊢
        omega
      rw [heq, Outcome.traps_bind, traps_readValue N hlen', hwire]
      exact .inl hpay

end Envelope
end TigerClaw
