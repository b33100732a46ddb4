import Mathlib.Data.List.Basic
import TigerClaw.Library.Digits
import TigerClaw.Library.FileTree

/-!
# Session keys and their paths

`src/session/key.zig`.  A session is a conversation and an agent.  Its path has one segment for
each, percent-encoded, and a long segment is cut off and tagged with a hash.

* `encodeSegment`, `appendPath`: the code, with the hash function as a parameter.
* `encodeSegment_eq_iff`: two ids have one segment exactly when they are the same, or when one of
  them spells what the other is cut off to.
* `paths_differ_iff`: the paths of two sessions differ exactly when that is not the case in both
  positions; and no segment leads out of the root.
-/

namespace TigerClaw
namespace Session

namespace Key

open Digits (hexDigit)
open FileTree (slash dot dotdot join)

/-- The output of SHA-256. -/
structure Digest where
  bytes : List UInt8
  length_eq : bytes.length = 32

/-- A logical session. -/
structure Identity where
  conversation : List UInt8
  agent : List UInt8
  deriving DecidableEq

inductive KeyError where
  | emptyConversationId
  | emptyAgentName
  | reservedSegment
  deriving DecidableEq

/-- The logical key, which is never a path. -/
def make (s : Identity) : Except KeyError (List UInt8) :=
  if s.conversation.length = 0 then .error .emptyConversationId
  else if s.agent.length = 0 then .error .emptyAgentName
  else .ok (s.conversation ++ slash :: s.agent)

def isDotSegment (s : List UInt8) : Bool := s = dot || s = dotdot

def isSafe (c : UInt8) : Bool :=
  0x61 ≤ c && c ≤ 0x7A || 0x41 ≤ c && c ≤ 0x5A || 0x30 ≤ c && c ≤ 0x39 ||
    c = 0x2E || c = 0x2D || c = 0x5F

/-- A hexadecimal digit in upper case. -/
def upperDigit (d : ℕ) : UInt8 := if d < 10 then UInt8.ofNat (48 + d) else UInt8.ofNat (55 + d)

def percent : UInt8 := 0x25

def encodeByte (c : UInt8) : List UInt8 :=
  if isSafe c then [c] else [percent, upperDigit (c.toNat / 16), upperDigit (c.toNat % 16)]

/-- What is written into the buffer. -/
def encoded (segment : List UInt8) : List UInt8 := segment.flatMap encodeByte

def segmentTruncateAt : ℕ := 200

/-- The first eight bytes in lower case. -/
def Digest.tag (digest : Digest) : List UInt8 :=
  (digest.bytes.take 8).flatMap fun b => [hexDigit (b.toNat / 16), hexDigit (b.toNat % 16)]

section

variable (sha256 : List UInt8 → Digest)

/-- The readable front of a long segment, and its tag. -/
def truncated (segment : List UInt8) : List UInt8 :=
  (encoded segment).take (segmentTruncateAt - 17) ++ 0x2E :: (sha256 segment).tag

def encodeSegment (segment : List UInt8) : List UInt8 :=
  if (encoded segment).length ≤ segmentTruncateAt then encoded segment
  else truncated sha256 segment

def appendPath (root : List UInt8) (s : Identity) (filename : List UInt8) :
    Except KeyError (List UInt8) :=
  if s.conversation.length = 0 then .error .emptyConversationId
  else if s.agent.length = 0 then .error .emptyAgentName
  else if isDotSegment s.conversation || isDotSegment s.agent then .error .reservedSegment
  else .ok ([root, encodeSegment sha256 s.conversation, encodeSegment sha256 s.agent,
    filename].foldl join [])

/-! ## What is asked of them -/

/-- A name of a file below the directory it is looked up in. -/
structure SafeSegment (segment : List UInt8) : Prop where
  nonempty : segment ≠ []
  short : segment.length ≤ 200
  bytes : ∀ c ∈ segment, isSafe c ∨ c = percent
  ne_dot : segment ≠ dot
  ne_dotdot : segment ≠ dotdot

/-- The tag of the hash separates the two. -/
def Tagged (x y : List UInt8) : Prop := (sha256 x).tag = (sha256 y).tag → x = y

/-- A short id whose encoding is, byte for byte, what a long one is cut off to. -/
def Spells (x y : List UInt8) : Prop :=
  (encoded x).length ≤ segmentTruncateAt ∧ segmentTruncateAt < (encoded y).length ∧
    encoded x = truncated sha256 y

/-- The two cannot be told apart by their segments. -/
def Twins (x y : List UInt8) : Prop := x = y ∨ Spells sha256 x y ∨ Spells sha256 y x

end

/-! ## Encoding -/

theorem upperDigit_inj {d e : ℕ} (hd : d < 16) (he : e < 16) (h : upperDigit d = upperDigit e) :
    d = e := by
  have hall : ∀ d < 16, ∀ e < 16, upperDigit d = upperDigit e → d = e := by decide
  exact hall d hd e he h

theorem isSafe_upperDigit {d : ℕ} (hd : d < 16) : isSafe (upperDigit d) = true := by
  have hall : ∀ d < 16, isSafe (upperDigit d) = true := by decide
  exact hall d hd

theorem isSafe_hexDigit {d : ℕ} (hd : d < 16) : isSafe (hexDigit d) = true := by
  have hall : ∀ d < 16, isSafe (hexDigit d) = true := by decide
  exact hall d hd

theorem high_lt (c : UInt8) : c.toNat / 16 < 16 := by
  have hc := c.toNat_lt
  omega

theorem low_lt (c : UInt8) : c.toNat % 16 < 16 := Nat.mod_lt _ (by decide)

theorem encodeByte_ne_nil (c : UInt8) : encodeByte c ≠ [] := by
  unfold encodeByte
  split <;> exact List.cons_ne_nil _ _

/-- **The byte that an encoding begins with can be read off.** -/
theorem encodeByte_append_inj {c d : UInt8} {s t : List UInt8}
    (h : encodeByte c ++ s = encodeByte d ++ t) : c = d ∧ s = t := by
  unfold encodeByte at h
  split at h <;> rename_i hc <;> split at h <;> rename_i hd
  · exact List.cons.inj h
  · exact absurd ((List.cons.inj h).1 ▸ hc) (by decide)
  · exact absurd ((List.cons.inj h).1.symm ▸ hd) (by decide)
  · obtain ⟨hhigh, hrest⟩ := List.cons.inj (List.cons.inj h).2
    obtain ⟨hlow, hst⟩ := List.cons.inj hrest
    have hhigh' := upperDigit_inj (high_lt c) (high_lt d) hhigh
    have hlow' := upperDigit_inj (low_lt c) (low_lt d) hlow
    exact ⟨UInt8.toNat_inj.mp (by omega), hst⟩

theorem encoded_injective : Function.Injective encoded := by
  intro x
  induction x with
  | nil =>
    intro y h
    cases y with
    | nil => rfl
    | cons d y => exact absurd (List.append_eq_nil_iff.mp h.symm).1 (encodeByte_ne_nil d)
  | cons c x ih =>
    intro y h
    cases y with
    | nil => exact absurd (List.append_eq_nil_iff.mp h).1 (encodeByte_ne_nil c)
    | cons d y =>
      obtain ⟨rfl, hrest⟩ := encodeByte_append_inj (s := encoded x) (t := encoded y) h
      rw [ih hrest]

theorem safe_of_mem_encoded {segment : List UInt8} {c : UInt8} (hc : c ∈ encoded segment) :
    isSafe c ∨ c = percent := by
  obtain ⟨b, -, hb⟩ := List.mem_flatMap.mp hc
  unfold encodeByte at hb
  split at hb
  · rename_i hsafe
    exact .inl (List.mem_singleton.mp hb ▸ hsafe)
  · rcases List.mem_cons.mp hb with rfl | hb
    · exact .inr rfl
    · rcases List.mem_pair.mp hb with rfl | rfl
      · exact .inl (isSafe_upperDigit (high_lt b))
      · exact .inl (isSafe_upperDigit (low_lt b))

theorem Digest.length_tag (digest : Digest) : digest.tag.length = 16 := by
  have hlength : (digest.bytes.take 8).length = 8 := by
    rw [List.length_take, digest.length_eq]
    rfl
  have hpairs : digest.tag.length = ((digest.bytes.take 8).map fun _ => 2).sum :=
    List.length_flatMap
  rw [hpairs, List.map_const', hlength]
  rfl

theorem Digest.safe_of_mem_tag {digest : Digest} {c : UInt8} (hc : c ∈ digest.tag) :
    isSafe c = true := by
  obtain ⟨b, -, hb⟩ := List.mem_flatMap.mp hc
  rcases List.mem_pair.mp hb with rfl | rfl
  · exact isSafe_hexDigit (high_lt b)
  · exact isSafe_hexDigit (low_lt b)

section

variable {sha256 : List UInt8 → Digest}

theorem length_truncated {segment : List UInt8}
    (h : segmentTruncateAt < (encoded segment).length) :
    (truncated sha256 segment).length = segmentTruncateAt := by
  have hlong : 200 < (encoded segment).length := h
  rw [truncated, List.length_append, List.length_take, List.length_cons, Digest.length_tag]
  unfold segmentTruncateAt
  omega

/-- The tag stands at the end of what is cut off. -/
theorem tag_of_truncated {x y : List UInt8} (hx : segmentTruncateAt < (encoded x).length)
    (hy : segmentTruncateAt < (encoded y).length)
    (h : truncated sha256 x = truncated sha256 y) : (sha256 x).tag = (sha256 y).tag := by
  have hlong : 200 < (encoded x).length := hx
  have hlong' : 200 < (encoded y).length := hy
  have hlength : ((encoded x).take (segmentTruncateAt - 17)).length =
      ((encoded y).take (segmentTruncateAt - 17)).length := by
    rw [List.length_take, List.length_take]
    unfold segmentTruncateAt
    omega
  exact (List.cons.inj (List.append_inj h hlength).2).2

/-- **Which ids share a segment.** -/
theorem encodeSegment_eq_iff {x y : List UInt8} (htag : Tagged sha256 x y) :
    encodeSegment sha256 x = encodeSegment sha256 y ↔ Twins sha256 x y := by
  unfold encodeSegment Twins
  split <;> rename_i hx <;> split <;> rename_i hy
  · refine ⟨fun h => .inl (encoded_injective h), ?_⟩
    rintro (rfl | hspells | hspells)
    · rfl
    · exact absurd hy (Nat.not_le_of_lt hspells.2.1)
    · exact absurd hx (Nat.not_le_of_lt hspells.2.1)
  · refine ⟨fun h => .inr (.inl ⟨hx, Nat.lt_of_not_le hy, h⟩), ?_⟩
    rintro (rfl | hspells | hspells)
    · exact absurd hx hy
    · exact hspells.2.2
    · exact absurd hspells.1 hy
  · refine ⟨fun h => .inr (.inr ⟨hy, Nat.lt_of_not_le hx, h.symm⟩), ?_⟩
    rintro (rfl | hspells | hspells)
    · exact absurd hy hx
    · exact absurd hspells.1 hx
    · exact hspells.2.2.symm
  · refine ⟨fun h => .inl (htag (tag_of_truncated (Nat.lt_of_not_le hx) (Nat.lt_of_not_le hy) h)),
      ?_⟩
    rintro (rfl | hspells | hspells)
    · rfl
    · exact absurd hspells.1 hx
    · exact absurd hspells.1 hy

/-- **What a segment is like.** -/
theorem safe_encodeSegment {segment : List UInt8} (hne : segment ≠ [])
    (hdots : isDotSegment segment = false) : SafeSegment (encodeSegment sha256 segment) := by
  obtain ⟨hdot, hdotdot⟩ : segment ≠ dot ∧ segment ≠ dotdot := by
    simpa [isDotSegment] using hdots
  unfold encodeSegment
  split
  · rename_i hshort
    exact {
      nonempty := fun h => hne (encoded_injective h)
      short := hshort
      bytes := fun c hc => safe_of_mem_encoded hc
      ne_dot := fun h => hdot (encoded_injective h)
      ne_dotdot := fun h => hdotdot (encoded_injective h) }
  · rename_i hlong
    have hlength : (truncated sha256 segment).length = 200 :=
      length_truncated (Nat.lt_of_not_le hlong)
    refine ⟨?_, le_of_eq hlength, fun c hc => ?_, ?_, ?_⟩
    · exact fun h => absurd (h ▸ hlength) (by decide)
    · rcases List.mem_append.mp hc with hfront | hend
      · exact safe_of_mem_encoded (List.mem_of_mem_take hfront)
      · rcases List.mem_cons.mp hend with rfl | htag
        · exact .inl rfl
        · exact .inl (Digest.safe_of_mem_tag htag)
    · exact fun h => absurd (h ▸ hlength) (by decide)
    · exact fun h => absurd (h ▸ hlength) (by decide)

/-! ## Paths -/

/-- A root with the slash behind it. -/
def rooted (root : List UInt8) : List UInt8 :=
  if root = [] ∨ root.getLast? = some slash then root else root ++ [slash]

/-- A file name with the slash in front of it. -/
def named (filename : List UInt8) : List UInt8 :=
  if filename = [] ∨ filename.head? = some slash then filename else slash :: filename

theorem slash_notMem {segment : List UInt8} (h : SafeSegment segment) : slash ∉ segment :=
  fun hmem => absurd (h.bytes slash hmem) (by decide)

theorem join_eq_rooted {root segment : List UInt8} (hne : segment ≠ [])
    (hslash : slash ∉ segment) : join root segment = rooted root ++ segment := by
  have hhead : decide (segment.head? = some slash) = false :=
    decide_eq_false fun h => hslash (List.mem_of_mem_head? h)
  rw [join, rooted, if_neg hne, hhead]
  by_cases hroot : root = []
  · rw [if_pos hroot, if_pos (.inl hroot), hroot, List.nil_append]
  · rw [if_neg hroot]
    by_cases hlast : root.getLast? = some slash
    · rw [decide_eq_true hlast, if_pos (.inr hlast)]
    · rw [decide_eq_false hlast, if_neg (by simp [hroot, hlast]), List.append_assoc]
      rfl

theorem join_eq_named {front filename : List UInt8} (hne : front ≠ [])
    (hlast : front.getLast? ≠ some slash) : join front filename = front ++ named filename := by
  rw [join, named, if_neg hne, decide_eq_false hlast]
  by_cases hname : filename = []
  · rw [if_pos hname, if_pos (.inl hname), hname, List.append_nil]
  · rw [if_neg hname]
    by_cases hhead : filename.head? = some slash
    · rw [decide_eq_true hhead, if_pos (.inr hhead)]
    · rw [decide_eq_false hhead, if_neg (by simp [hname, hhead])]

theorem getLast?_append_safe {front segment : List UInt8} (h : SafeSegment segment) :
    (front ++ segment).getLast? ≠ some slash := by
  rw [List.getLast?_append_of_ne_nil _ h.nonempty]
  exact fun hlast => slash_notMem h (List.mem_of_getLast? hlast)

/-- What is accepted. -/
theorem appendPath_eq_ok {root filename path : List UInt8} {s : Identity}
    (h : appendPath sha256 root s filename = .ok path) :
    SafeSegment (encodeSegment sha256 s.conversation) ∧
      SafeSegment (encodeSegment sha256 s.agent) ∧
      path = rooted root ++ (encodeSegment sha256 s.conversation ++
        slash :: encodeSegment sha256 s.agent) ++ named filename := by
  unfold appendPath at h
  split at h
  · cases h
  · rename_i hconversation
    split at h
    · cases h
    · rename_i hagent
      split at h
      · cases h
      · rename_i hdots
        obtain ⟨hdots, hdots'⟩ : isDotSegment s.conversation = false ∧
            isDotSegment s.agent = false := by simpa using hdots
        have hc : SafeSegment (encodeSegment sha256 s.conversation) :=
          safe_encodeSegment (fun h => hconversation (h ▸ rfl)) hdots
        have ha : SafeSegment (encodeSegment sha256 s.agent) :=
          safe_encodeSegment (fun h => hagent (h ▸ rfl)) hdots'
        refine ⟨hc, ha, ?_⟩
        have hroot : join [] root = root := rfl
        have hnamed : named (encodeSegment sha256 s.agent) =
            slash :: encodeSegment sha256 s.agent := by
          refine if_neg ?_
          rintro (hnil | hhead)
          · exact ha.nonempty hnil
          · exact slash_notMem ha (List.mem_of_mem_head? hhead)
        rw [← Except.ok.inj h]
        simp only [List.foldl_cons, List.foldl_nil]
        rw [hroot, join_eq_rooted hc.nonempty (slash_notMem hc),
          join_eq_named (by simp [hc.nonempty]) (getLast?_append_safe hc), hnamed,
          join_eq_named (by simp) (by
            rw [List.append_cons]
            exact getLast?_append_safe ha), List.append_assoc (rooted root)]

/-- **When the paths of two sessions differ**: unless each of the two positions holds one id twice,
or an id that spells what the other is cut off to.  What is accepted never leads out of the root. -/
theorem paths_differ_iff {root filename path path' : List UInt8} {s s' : Identity}
    (hpath : appendPath sha256 root s filename = .ok path)
    (hpath' : appendPath sha256 root s' filename = .ok path')
    (hconversation : Tagged sha256 s.conversation s'.conversation)
    (hagent : Tagged sha256 s.agent s'.agent) :
    (path ≠ path' ∧
      (∀ segment ∈ [s.conversation, s.agent, s'.conversation, s'.agent],
        SafeSegment (encodeSegment sha256 segment))) ↔
      ¬ (Twins sha256 s.conversation s'.conversation ∧ Twins sha256 s.agent s'.agent) := by
  obtain ⟨hc, ha, rfl⟩ := appendPath_eq_ok hpath
  obtain ⟨hc', ha', rfl⟩ := appendPath_eq_ok hpath'
  have hsafe : ∀ segment ∈ [s.conversation, s.agent, s'.conversation, s'.agent],
      SafeSegment (encodeSegment sha256 segment) := by
    simp [hc, ha, hc', ha']
  rw [and_iff_left hsafe, Ne, not_iff_not, List.append_left_inj, List.append_right_inj,
    List.append_cons_inj_of_notMem (slash_notMem hc) (slash_notMem ha), ← encodeSegment_eq_iff
    hconversation, ← encodeSegment_eq_iff hagent]
  simp

end

/-- The hashes of the two ids `a/b` and `a_b`. -/
def slashHash (segment : List UInt8) : Digest :=
  if segment = [0x61, 0x2F, 0x62] then
    ⟨[0xC1, 0x4C, 0xDD, 0xC0, 0x33, 0xF6, 0x4B, 0x9D, 0xEA, 0x80, 0xEA,
      0x67, 0x5C, 0xF2, 0x80, 0xA0, 0x15, 0xE6, 0x72, 0x51, 0x60, 0x90,
      0xA5, 0x62, 0x67, 0x81, 0x15, 0x3D, 0xC6, 0x8F, 0xEA, 0x11], rfl⟩
  else
    ⟨[0x64, 0x8F, 0xA9, 0xB3, 0x1B, 0xC7, 0xFF, 0x7E, 0xB9, 0x14, 0xE7,
      0xA7, 0x18, 0x0F, 0x07, 0xE0, 0xDF, 0x0F, 0x84, 0x67, 0x83, 0x9B,
      0x1A, 0xF8, 0x90, 0x2D, 0xA1, 0xD0, 0xBE, 0xAD, 0x03, 0xA2], rfl⟩

/-- A slash and an underscore are not the same. -/
theorem paths_differ_iff_slash :
    [0x2F, 0x72, 0x2F, 0x61, 0x25, 0x32, 0x46, 0x62, 0x2F, 0x78, 0x2F, 0x66] ≠
      ([0x2F, 0x72, 0x2F, 0x61, 0x5F, 0x62, 0x2F, 0x78, 0x2F, 0x66] : List UInt8) ∧
    ∀ segment ∈ [[0x61, 0x2F, 0x62], [0x78], [0x61, 0x5F, 0x62], [0x78]],
      SafeSegment (encodeSegment slashHash segment) :=
  (@paths_differ_iff slashHash [0x2F, 0x72] [0x66] _ _ ⟨[0x61, 0x2F, 0x62], [0x78]⟩
    ⟨[0x61, 0x5F, 0x62], [0x78]⟩ rfl rfl (by unfold Tagged; decide) (fun _ => rfl)).mpr
    (by unfold Twins Spells; decide)

/-- A long id. -/
def longId : List UInt8 := List.replicate 201 0x61

/-- The hash of the long id, and that of what it is cut off to. -/
def longHash (segment : List UInt8) : Digest :=
  if segment = longId then
    ⟨[0xA9, 0x2E, 0xFD, 0x82, 0x10, 0x93, 0x73, 0xE5, 0x8F, 0x9A, 0x20,
      0x56, 0xDE, 0xE0, 0x1E, 0x80, 0x7E, 0x21, 0x6C, 0xE6, 0x07, 0x5F,
      0x70, 0x51, 0x20, 0x7C, 0x0A, 0x9F, 0x7D, 0x66, 0x6E, 0x50], rfl⟩
  else
    ⟨[0xD5, 0xD6, 0xD8, 0x17, 0x70, 0x3F, 0xD7, 0xAA, 0x54, 0xB1, 0xBD,
      0x89, 0x4F, 0x00, 0x67, 0xE1, 0xDA, 0x72, 0x0D, 0x7E, 0x82, 0x98,
      0x08, 0xE1, 0x73, 0x8C, 0x39, 0x15, 0xE9, 0xBB, 0xBB, 0x03], rfl⟩

set_option maxRecDepth 5000 in
/-- An id that is what the long one is cut off to has its path, though their hashes differ. -/
theorem appendPath_collapses :
    (⟨truncated longHash longId, [0x78]⟩ : Identity) ≠ ⟨longId, [0x78]⟩ ∧
    Tagged longHash (truncated longHash longId) longId ∧
    ∃ path, appendPath longHash [0x2F, 0x72] ⟨truncated longHash longId, [0x78]⟩ [0x66] = .ok path ∧
      appendPath longHash [0x2F, 0x72] ⟨longId, [0x78]⟩ [0x66] = .ok path := by
  refine ⟨by decide, by unfold Tagged; decide,
    [0x2F, 0x72, 0x2F] ++ truncated longHash longId ++ [0x2F, 0x78, 0x2F, 0x66], ?_, ?_⟩
  · decide
  · decide

end Key

end Session
end TigerClaw
