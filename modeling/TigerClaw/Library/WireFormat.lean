import TigerClaw.Library.Base128
import Mathlib.Data.List.Nodup

/-!
# The tag-length-value wire format

A message is a sequence of fields.  A field is a tag, which is a varint holding a field number and
a three-bit wire type, and a payload.  What the payload of a known field looks like is fixed by
the field's number; an unknown field is skipped by its wire type.

* `Schema`: the kind of every field number, and what is asked of nested messages.
* `Raw`, `Message`: the byte strings that are one field, and a sequence of fields.  This is a
  grammar: it has no offsets, no buffers and no failure.
* `values`, `lastValue`: what a message carries under a field number, when repeated fields are
  collected and when the last one wins.
* `Hazard`: the items at the front of a byte string that a reader with 32-bit field numbers and
  values, ten-byte varints and 64-bit offsets cannot represent.
* `Hazardous`: a byte string that runs into such an item after a sequence of complete fields.
-/

namespace WireFormat

/-! ## Items -/

/-- A varint: a base-128 number of at most ten bytes, of which the low 64 bits count. -/
def Varint (bs : List UInt8) (v : UInt64) : Prop :=
  Base128.Complete bs ∧ bs.length ≤ 10 ∧ v = UInt64.ofNat (Base128.value bs)

/-- Ten bytes in a row ask for another one. -/
def Overlong (q : List UInt8) : Prop := 10 ≤ Base128.leading q

/-- A length and as many bytes. -/
def Delimited (bs s : List UInt8) : Prop :=
  ∃ lb v, bs = lb ++ s ∧ Varint lb v ∧ v.toNat = s.length

/-- The payload of a field that is skipped under wire type `wire`. -/
def Skipped (wire : ℕ) (bs : List UInt8) : Prop :=
  (wire = 0 ∧ ∃ v, Varint bs v) ∨ (wire = 2 ∧ ∃ s, Delimited bs s) ∨
    (wire = 1 ∧ bs.length = 8) ∨ (wire = 5 ∧ bs.length = 4)

/-- The shortest varint of a 64-bit number. -/
theorem varint_encode (v : UInt64) : Varint (Base128.encode v.toNat) v := by
  refine ⟨Base128.complete_encode _, Base128.length_encode_le ?_, ?_⟩
  · have := v.toNat_lt
    omega
  · rw [Base128.value_encode, UInt64.ofNat_toNat]

theorem Varint.length_pos {bs : List UInt8} {v : UInt64} (h : Varint bs v) : 0 < bs.length :=
  List.length_pos_iff.mpr h.1.ne_nil

/-! ## Fields and messages -/

/-- What the payload of a field looks like. -/
inductive Kind where
  /-- A varint that fits 32 bits. -/
  | uint32
  /-- A varint that names one of the first `bound` variants. -/
  | enum (bound : ℕ)
  /-- Any varint. -/
  | uint64
  /-- A length and as many bytes. -/
  | bytes
  /-- A length and a nested message. -/
  | message
  /-- Not in the schema: the wire type says what to skip. -/
  | unknown

/-- What a payload carries. -/
inductive Value where
  | varint (v : UInt64)
  | bytes (s : List UInt8)
  | skipped

structure Field where
  number : ℕ
  value : Value

/-- The kind of every field number, the nested messages that are well formed, and those a reader
cannot get through. -/
structure Schema where
  kind : ℕ → Kind
  nested : List UInt8 → Prop
  nestedHazard : List UInt8 → Prop

variable (S : Schema)

/-- A payload of kind `k`, under wire type `wire`, that carries `x`. -/
def Payload (k : Kind) (wire : ℕ) (bs : List UInt8) (x : Value) : Prop :=
  match k with
  | .uint32 => ∃ v, x = .varint v ∧ Varint bs v ∧ v.toNat < 2 ^ 32
  | .enum bound => ∃ v, x = .varint v ∧ Varint bs v ∧ v.toNat < 2 ^ 32 ∧ v.toNat < bound
  | .uint64 => ∃ v, x = .varint v ∧ Varint bs v
  | .bytes => ∃ s, x = .bytes s ∧ Delimited bs s
  | .message => ∃ s, x = .bytes s ∧ Delimited bs s ∧ S.nested s
  | .unknown => x = .skipped ∧ Skipped wire bs

/-- The bytes of one field: a tag with a 32-bit field number, and a payload. -/
def Raw (bs : List UInt8) (f : Field) : Prop :=
  ∃ tb t pb, bs = tb ++ pb ∧ Varint tb t ∧ t.toNat / 8 < 2 ^ 32 ∧ f.number = t.toNat / 8 ∧
    Payload S (S.kind f.number) (t.toNat % 8) pb f.value

/-- The bytes of a sequence of fields. -/
inductive Message : List UInt8 → List Field → Prop where
  | nil : Message [] []
  | cons {fb rest : List UInt8} {f : Field} {fs : List Field} :
      Raw S fb f → Message rest fs → Message (fb ++ rest) (f :: fs)

variable {S}

theorem Raw.length_pos {bs : List UInt8} {f : Field} (h : Raw S bs f) : 0 < bs.length := by
  obtain ⟨tb, t, pb, rfl, ht, -⟩ := h
  have := ht.length_pos
  rw [List.length_append]
  omega

theorem Message.singleton {bs : List UInt8} {f : Field} (h : Raw S bs f) : Message S bs [f] := by
  have := Message.cons h Message.nil
  rwa [List.append_nil] at this

theorem Message.append {bs cs : List UInt8} {fs gs : List Field} (h : Message S bs fs)
    (h' : Message S cs gs) : Message S (bs ++ cs) (fs ++ gs) := by
  induction h with
  | nil => exact h'
  | cons hraw _ ih =>
    rw [List.append_assoc]
    exact Message.cons hraw ih

theorem Message.flatMap {ι : Type*} {write : ι → List UInt8} {fields : ι → List Field}
    {l : List ι} (h : ∀ i ∈ l, Message S (write i) (fields i)) :
    Message S (l.flatMap write) (l.flatMap fields) := by
  induction l with
  | nil => exact Message.nil
  | cons i l ih =>
    rw [List.flatMap_cons, List.flatMap_cons]
    exact (h i List.mem_cons_self).append (ih fun j hj => h j (List.mem_cons_of_mem i hj))

/-! ## Reading a message by field number -/

/-- The payloads of the fields with number `n`, in order. -/
def values (n : ℕ) (fs : List Field) : List Value :=
  (fs.filter fun f => f.number == n).map Field.value

/-- The payload of the last field with number `n`. -/
def lastValue (n : ℕ) (fs : List Field) : Option Value := (values n fs).getLast?

theorem values_append (n : ℕ) (fs gs : List Field) :
    values n (fs ++ gs) = values n fs ++ values n gs := by
  rw [values, List.filter_append, List.map_append]
  rfl

theorem values_of_forall_eq {n : ℕ} {fs : List Field} (h : ∀ f ∈ fs, f.number = n) :
    values n fs = fs.map Field.value := by
  rw [values, List.filter_eq_self.mpr fun f hf => beq_iff_eq.mpr (h f hf)]

theorem values_of_forall_ne {n : ℕ} {fs : List Field} (h : ∀ f ∈ fs, f.number ≠ n) :
    values n fs = [] := by
  rw [values, List.filter_eq_nil_iff.mpr fun f hf => by simpa using h f hf, List.map_nil]

/-- A message written name by name is read back name by name. -/
theorem values_flatMap {ι : Type*} {number : ι → ℕ} (hinj : Function.Injective number)
    {group : ι → List Field} (hgroup : ∀ i, ∀ f ∈ group i, f.number = number i) {names : List ι}
    (hnodup : names.Nodup) {i : ι} (hi : i ∈ names) :
    values (number i) (names.flatMap group) = (group i).map Field.value := by
  induction names with
  | nil => cases hi
  | cons j names ih =>
    obtain ⟨hj, hnodup⟩ := List.nodup_cons.mp hnodup
    rw [List.flatMap_cons, values_append]
    rcases List.mem_cons.mp hi with rfl | hi
    · rw [values_of_forall_eq (hgroup i), values_of_forall_ne, List.append_nil]
      intro f hf hnum
      obtain ⟨k, hk, hfk⟩ := List.mem_flatMap.mp hf
      exact hj (hinj ((hgroup k f hfk).symm.trans hnum) ▸ hk)
    · rw [ih hnodup hi, values_of_forall_ne, List.nil_append]
      intro f hf hnum
      exact hj (hinj ((hgroup j f hf).symm.trans hnum) ▸ hi)

/-! ## Items out of range -/

variable (S)

/-- A length prefix at offset `off` that a 64-bit reader cannot follow. -/
def LengthHazard (off : ℕ) (q : List UInt8) : Prop :=
  Overlong q ∨ ∃ lb v r, q = lb ++ r ∧ Varint lb v ∧ 2 ^ 64 ≤ off + lb.length + v.toNat

/-- A number that does not fit 32 bits. -/
def NumberHazard (q : List UInt8) : Prop :=
  Overlong q ∨ ∃ vb v r, q = vb ++ r ∧ Varint vb v ∧ 2 ^ 32 ≤ v.toNat

/-- A payload of kind `k` at offset `off` that is out of range. -/
def PayloadHazard (off : ℕ) (k : Kind) (wire : ℕ) (q : List UInt8) : Prop :=
  match k with
  | .uint32 => NumberHazard q
  | .enum _ => NumberHazard q
  | .uint64 => Overlong q
  | .bytes => LengthHazard off q
  | .message => LengthHazard off q ∨
      ∃ bs s r, q = bs ++ r ∧ Delimited bs s ∧ S.nestedHazard s
  | .unknown => (wire = 0 ∧ Overlong q) ∨ (wire = 2 ∧ LengthHazard off q) ∨
      (wire = 1 ∧ 2 ^ 64 ≤ off + 8) ∨ (wire = 5 ∧ 2 ^ 64 ≤ off + 4)

/-- An out-of-range field at offset `off`: its tag, its field number, or its payload. -/
def Hazard (off : ℕ) (q : List UInt8) : Prop :=
  Overlong q ∨ ∃ tb t r, q = tb ++ r ∧ Varint tb t ∧
    (2 ^ 32 ≤ t.toNat / 8 ∨ t.toNat / 8 < 2 ^ 32 ∧
      PayloadHazard S (off + tb.length) (S.kind (t.toNat / 8)) (t.toNat % 8) r)

/-- Complete fields, and then an out-of-range one. -/
def Hazardous (b : List UInt8) : Prop :=
  ∃ p fs q, b = p ++ q ∧ Message S p fs ∧ Hazard S p.length q

end WireFormat
