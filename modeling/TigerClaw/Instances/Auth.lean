import TigerClaw.Instances.Repo
import TigerClaw.Library.Digits

/-!
# Bearer tokens of instances

`src/instances/auth.zig`.  The digest function is a parameter: what the checks rely on is that it
is a function to 32 bytes.

* `constantTimeEql_iff`: the comparison without an early exit is equality.
* `checkBearer_match_iff`: which headers match.
-/

namespace TigerClaw
namespace Instances

/-- `[32]u8`. -/
structure Bytes32 where
  bytes : Bytes
  length_eq : bytes.length = 32

def tokenHexLen : ℕ := 64

/-- Two lowercase hexadecimal characters for every byte. -/
def encodeHex (raw : Bytes) : Bytes :=
  raw.flatMap fun b => [Digits.hexDigit (b.toNat / 16 % 16), Digits.hexDigit (b.toNat % 16)]

theorem length_encodeHex (raw : Bytes) : (encodeHex raw).length = 2 * raw.length := by
  induction raw with
  | nil => rfl
  | cons b raw ih =>
    have hcons : (encodeHex (b :: raw)).length = 2 + (encodeHex raw).length := by
      rw [encodeHex, List.flatMap_cons, List.length_append]
      rfl
    rw [hcons, ih, List.length_cons]
    omega

/-- A token, from the bytes of the random number generator. -/
def generate (raw : Bytes32) : Bytes := encodeHex raw.bytes

/-- An instance id, from four random bytes. -/
def genInstanceId (raw : Bytes) (kind : Bytes) : Bytes := kind ++ ascii "-" ++ encodeHex raw

variable (blake3 : Bytes → Bytes32)

/-- What the table stores of a token. -/
def hash (token : Bytes) : Bytes := encodeHex (blake3 token).bytes

/-- The hash of a token is never the empty string that stands for no token. -/
theorem hash_ne_nil (token : Bytes) : hash blake3 token ≠ [] := by
  intro h
  have hlength := length_encodeHex (blake3 token).bytes
  rw [(blake3 token).length_eq] at hlength
  rw [hash] at h
  rw [h] at hlength
  cases hlength

/-- Compare to the end, whatever the first difference. -/
def constantTimeEql (a b : Bytes) : Bool :=
  if a.length ≠ b.length then false
  else (a.zip b).foldl (fun diff xy => diff ||| (xy.1 ^^^ xy.2)) 0 == 0

/-- The accumulated difference is zero if nothing differs. -/
theorem foldl_diff_eq_zero {a b : Bytes} (h : a.length = b.length) (diff : UInt8) :
    (a.zip b).foldl (fun diff xy => diff ||| (xy.1 ^^^ xy.2)) diff = 0 ↔ diff = 0 ∧ a = b := by
  induction a generalizing b diff with
  | nil =>
    obtain rfl := List.length_eq_zero_iff.mp h.symm
    simp
  | cons x a ih =>
    obtain ⟨y, b, rfl⟩ := List.exists_cons_of_length_eq_add_one h.symm
    rw [List.zip_cons_cons, List.foldl_cons, ih (Nat.succ.inj h), UInt8.or_eq_zero_iff,
      UInt8.xor_eq_zero_iff, List.cons.injEq, and_assoc]

theorem constantTimeEql_iff {a b : Bytes} : constantTimeEql a b = true ↔ a = b := by
  rw [constantTimeEql]
  by_cases h : a.length = b.length
  · rw [if_neg (not_not.mpr h), beq_iff_eq, foldl_diff_eq_zero h]
    exact and_iff_right rfl
  · rw [if_pos h]
    simp only [Bool.false_eq_true, false_iff]
    exact fun heq => h (congrArg List.length heq)

/-- Outcome of `checkBearer`. -/
inductive CheckOutcome where
  /-- No token is asked for. -/
  | openAccess
  | matched
  | mismatch
  | missing

def bearerPrefix : Bytes := ascii "Bearer "

/-- The header that presents a token. -/
def bearer (token : Bytes) : Bytes := bearerPrefix ++ token

def checkBearer (authHeader : Option Bytes) (storedHash : Bytes) : CheckOutcome :=
  if storedHash.length = 0 then .openAccess
  else match authHeader with
    | none => .missing
    | some header =>
      if !bearerPrefix.isPrefixOf header then .mismatch
      else
        let presented := header.drop bearerPrefix.length
        if presented.length ≠ tokenHexLen then .mismatch
        else if constantTimeEql (hash blake3 presented) storedHash then .matched
        else .mismatch

/-- **Which headers match**: those that present a token with the stored hash. -/
theorem checkBearer_match_iff (authHeader : Option Bytes) {storedHash : Bytes}
    (hstored : storedHash ≠ []) :
    (checkBearer blake3 authHeader storedHash = .matched ↔
        ∃ presented, authHeader = some (bearer presented) ∧ presented.length = tokenHexLen ∧
          hash blake3 presented = storedHash) ∧
      checkBearer blake3 authHeader storedHash ≠ .openAccess := by
  unfold checkBearer
  rw [if_neg (mt List.length_eq_zero_iff.mp hstored)]
  cases authHeader with
  | none => simp
  | some header =>
    simp only
    cases hprefix : bearerPrefix.isPrefixOf header with
    | false =>
      refine ⟨iff_of_false (by simp) ?_, by simp⟩
      rintro ⟨presented, heq, -⟩
      have htrue : bearerPrefix.isPrefixOf header = true :=
        List.isPrefixOf_iff_prefix.mpr (Option.some.inj heq ▸ List.prefix_append _ _)
      rw [htrue] at hprefix
      cases hprefix
    | true =>
      obtain ⟨presented, rfl⟩ := List.isPrefixOf_iff_prefix.mp hprefix
      have hpresents : (∃ p, some (bearerPrefix ++ presented) = some (bearer p) ∧
          p.length = tokenHexLen ∧ hash blake3 p = storedHash) ↔
            presented.length = tokenHexLen ∧ hash blake3 presented = storedHash := by
        constructor
        · rintro ⟨p, heq, hp⟩
          rw [List.append_cancel_left (Option.some.inj heq)]
          exact hp
        · exact fun hp => ⟨presented, rfl, hp⟩
      rw [hpresents, List.drop_left, Bool.not_true]
      simp only [Bool.false_eq_true, if_false]
      by_cases hlength : presented.length = tokenHexLen
      · rw [if_neg (not_not.mpr hlength)]
        by_cases heql : constantTimeEql (hash blake3 presented) storedHash = true
        · rw [if_pos heql]
          exact ⟨iff_of_true rfl ⟨hlength, constantTimeEql_iff.mp heql⟩, by simp⟩
        · rw [if_neg heql]
          exact ⟨iff_of_false (by simp) fun h => heql (constantTimeEql_iff.mpr h.2), by simp⟩
      · simp [hlength]

end Instances
end TigerClaw
