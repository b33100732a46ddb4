import Mathlib.Data.List.Infix
import TigerClaw.Library.Like

/-!
# Texts in UTF-8

Where the characters of a text begin among its bytes.

* `Trail`, `leadSize`: a byte that goes on with a character; how long the character of a first byte
  is.  `encodeChar_eq`: the bytes of a character.
* `Valid`: the bytes are those of a text.
* `Valid.take`: a valid text can be cut in front of every byte that does not go on.
-/

namespace Utf8Text

open Like (encode encode_cons encode_append)

/-- A byte that goes on with a character. -/
def Trail (b : UInt8) : Prop := b &&& 0xC0 = 0x80

instance (b : UInt8) : Decidable (Trail b) := inferInstanceAs (Decidable (_ = _))

/-- The bytes of a character, by the first one. -/
def leadSize (b : UInt8) : ℕ :=
  if b < 0x80 then 1
  else if b &&& 0xE0 = 0xC0 then 2
  else if b &&& 0xF0 = 0xE0 then 3
  else if b &&& 0xF8 = 0xF0 then 4
  else 1

/-! ## The bytes of a character -/

/-- Bits that a mask leaves out do not matter to it. -/
theorem or_and_of_disjoint {m k : UInt8} (h : m &&& k = 0) (x a : UInt8) :
    (x &&& m ||| a) &&& k = a &&& k := by
  rw [← UInt8.toBitVec_inj] at h ⊢
  rw [UInt8.toBitVec_and] at h
  rw [UInt8.toBitVec_and, UInt8.toBitVec_or, UInt8.toBitVec_and, UInt8.toBitVec_and]
  ext i hi
  have hbit := congrArg (fun v => v.getLsbD i) h
  simp only [BitVec.getLsbD_eq_getElem hi] at hbit
  simp at hbit ⊢
  grind

theorem trail_or (x : UInt8) : Trail (x &&& 0x3F ||| 0x80) :=
  or_and_of_disjoint (by decide) x 0x80

theorem and_of_lt {b : UInt8} (h : b < 0x80) : b &&& 0x80 = 0 := by
  have hall : ∀ n < 128, UInt8.ofNat n &&& 0x80 = 0 := by decide
  have hb := hall b.toNat (UInt8.lt_iff_toNat_lt.mp h)
  rwa [UInt8.ofNat_toNat] at hb

theorem not_lt_of_and {b : UInt8} (h : b &&& 0x80 = 0x80) : ¬ b < 0x80 := by
  intro hlt
  rw [and_of_lt hlt] at h
  exact absurd h (by decide)

/-- Bytes of ASCII do not go on. -/
theorem not_trail_of_lt {b : UInt8} (h : b < 0x80) : ¬ Trail b := by
  intro htrail
  refine not_lt_of_and ?_ h
  have hand : b &&& 0xC0 &&& 0x80 = 0x80 &&& 0x80 := congrArg (· &&& 0x80) htrail
  rwa [UInt8.and_assoc] at hand

/-- A byte that begins a character has other bits on top. -/
theorem not_trail_lead {m a : UInt8} (hm : m &&& 0xC0 = 0) (ha : a &&& 0xC0 ≠ 0x80) (x : UInt8) :
    ¬ Trail (x &&& m ||| a) := by
  rw [Trail, or_and_of_disjoint hm]
  exact ha

theorem leadSize_two (x : UInt8) : leadSize (x &&& 0x1F ||| 0xC0) = 2 := by
  have hascii : (x &&& 0x1F ||| 0xC0) &&& 0x80 = 0x80 := or_and_of_disjoint (by decide) x 0xC0
  have htwo : (x &&& 0x1F ||| 0xC0) &&& 0xE0 = 0xC0 := or_and_of_disjoint (by decide) x 0xC0
  rw [leadSize, if_neg (not_lt_of_and hascii), if_pos htwo]

theorem leadSize_three (x : UInt8) : leadSize (x &&& 0x0F ||| 0xE0) = 3 := by
  have hascii : (x &&& 0x0F ||| 0xE0) &&& 0x80 = 0x80 := or_and_of_disjoint (by decide) x 0xE0
  have htwo : (x &&& 0x0F ||| 0xE0) &&& 0xE0 = 0xE0 := or_and_of_disjoint (by decide) x 0xE0
  have hthree : (x &&& 0x0F ||| 0xE0) &&& 0xF0 = 0xE0 := or_and_of_disjoint (by decide) x 0xE0
  rw [leadSize, if_neg (not_lt_of_and hascii), htwo, if_neg (by decide), if_pos hthree]

theorem leadSize_four (x : UInt8) : leadSize (x &&& 0x07 ||| 0xF0) = 4 := by
  have hascii : (x &&& 0x07 ||| 0xF0) &&& 0x80 = 0x80 := or_and_of_disjoint (by decide) x 0xF0
  have htwo : (x &&& 0x07 ||| 0xF0) &&& 0xE0 = 0xE0 := or_and_of_disjoint (by decide) x 0xF0
  have hthree : (x &&& 0x07 ||| 0xF0) &&& 0xF0 = 0xF0 := or_and_of_disjoint (by decide) x 0xF0
  have hfour : (x &&& 0x07 ||| 0xF0) &&& 0xF8 = 0xF0 := or_and_of_disjoint (by decide) x 0xF0
  rw [leadSize, if_neg (not_lt_of_and hascii), htwo, if_neg (by decide), hthree,
    if_neg (by decide), if_pos hfour]

/-- **The bytes of a character**: one that begins it, and those that go on. -/
theorem encodeChar_eq (c : Char) :
    ∃ b bs, String.utf8EncodeChar c = b :: bs ∧ ¬ Trail b ∧ leadSize b = bs.length + 1 ∧
      ∀ x ∈ bs, Trail x := by
  have hpos := c.utf8Size_pos
  have hle := c.utf8Size_le_four
  obtain h | h | h | h : c.utf8Size = 1 ∨ c.utf8Size = 2 ∨ c.utf8Size = 3 ∨ c.utf8Size = 4 := by
    omega
  · have hlt : c.val.toUInt8 < 0x80 := by
      have hval := UInt32.le_iff_toNat_le.mp (Char.utf8Size_eq_one_iff.mp h)
      rw [UInt8.lt_iff_toNat_lt, UInt32.toNat_toUInt8]
      exact Nat.lt_of_le_of_lt (Nat.mod_le _ _) (Nat.lt_succ_of_le hval)
    exact ⟨_, _, String.utf8EncodeChar_eq_singleton h, not_trail_of_lt hlt, if_pos hlt,
      List.forall_mem_nil _⟩
  · exact ⟨_, _, String.utf8EncodeChar_eq_cons_cons h,
      not_trail_lead (by decide) (by decide) _, leadSize_two _,
      List.forall_mem_singleton.mpr (trail_or _)⟩
  · exact ⟨_, _, String.utf8EncodeChar_eq_cons_cons_cons h,
      not_trail_lead (by decide) (by decide) _, leadSize_three _,
      List.forall_mem_cons.mpr ⟨trail_or _, List.forall_mem_singleton.mpr (trail_or _)⟩⟩
  · exact ⟨_, _, String.utf8EncodeChar_eq_cons_cons_cons_cons h,
      not_trail_lead (by decide) (by decide) _, leadSize_four _,
      List.forall_mem_cons.mpr ⟨trail_or _,
        List.forall_mem_cons.mpr ⟨trail_or _, List.forall_mem_singleton.mpr (trail_or _)⟩⟩⟩

/-! ## Valid texts -/

/-- The bytes of some text. -/
def Valid (bytes : List UInt8) : Prop := ∃ text, bytes = encode text

theorem Valid.nil : Valid [] := ⟨[], rfl⟩

theorem valid_encode (text : List Char) : Valid (encode text) := ⟨text, rfl⟩

theorem Valid.append {a b : List UInt8} (ha : Valid a) (hb : Valid b) : Valid (a ++ b) := by
  obtain ⟨s, rfl⟩ := ha
  obtain ⟨t, rfl⟩ := hb
  exact ⟨s ++ t, (encode_append s t).symm⟩

/-- ASCII is valid. -/
theorem valid_of_ascii {bytes : List UInt8} (h : ∀ b ∈ bytes, b < 0x80) : Valid bytes := by
  induction bytes with
  | nil => exact .nil
  | cons b bytes ih =>
    obtain ⟨hb, hbytes⟩ := List.forall_mem_cons.mp h
    have hone : Valid [b] := by
      have hall : ∀ n < 128, [UInt8.ofNat n] = encode [Char.ofNat n] := by decide
      have hlt := hall b.toNat (UInt8.lt_iff_toNat_lt.mp hb)
      rw [UInt8.ofNat_toNat] at hlt
      exact ⟨_, hlt⟩
    exact hone.append (ih hbytes)

theorem valid_of_all {bytes : List UInt8} (h : bytes.all (fun b => decide (b < 0x80)) = true) :
    Valid bytes :=
  valid_of_ascii fun b hb => of_decide_eq_true (List.all_eq_true.mp h b hb)

/-- **A valid text can be cut** at its end, and in front of every byte that does not go on. -/
theorem Valid.take {bytes : List UInt8} (h : Valid bytes) {n : ℕ}
    (hn : ∀ b ∈ bytes[n]?, ¬ Trail b) : Valid (bytes.take n) := by
  obtain ⟨text, rfl⟩ := h
  induction text generalizing n with
  | nil =>
    rw [show encode [] = [] from rfl, List.take_nil]
    exact .nil
  | cons c cs ih =>
    rw [encode_cons] at hn ⊢
    rcases Nat.lt_or_ge n (String.utf8EncodeChar c).length with hlt | hge
    · -- inside the first character every byte but the first goes on
      rw [List.getElem?_append_left hlt] at hn
      obtain ⟨b, bs, hbytes, -, -, hall⟩ := encodeChar_eq c
      cases n with
      | zero => exact .nil
      | succ n =>
        rw [hbytes, List.getElem?_cons_succ] at hn
        rw [hbytes, List.length_cons, Nat.add_lt_add_iff_right] at hlt
        rw [List.getElem?_eq_getElem hlt] at hn
        exact absurd (hall _ (List.getElem_mem hlt)) (hn _ rfl)
    · rw [List.getElem?_append_right hge] at hn
      rw [List.take_append, List.take_of_length_le hge]
      have hone : Valid (String.utf8EncodeChar c) := ⟨[c], (List.append_nil _).symm⟩
      exact hone.append (ih hn)

/-- A byte of a valid text begins a character, or goes on with one. -/
theorem Valid.first_or_trail {bytes : List UInt8} (h : Valid bytes) :
    ∀ b ∈ bytes, b.IsUTF8FirstByte ∨ Trail b := by
  obtain ⟨text, rfl⟩ := h
  intro b hb
  obtain ⟨c, -, hb⟩ := List.mem_flatMap.mp hb
  obtain ⟨lead, bs, hbytes, -, -, hall⟩ := encodeChar_eq c
  rw [hbytes, List.mem_cons] at hb
  rcases hb with rfl | hb
  · have hfirst := @UInt8.isUTF8FirstByte_getElem_utf8EncodeChar c 0 (by simp [hbytes])
    left
    simpa [hbytes] using hfirst
  · exact .inr (hall b hb)

end Utf8Text
