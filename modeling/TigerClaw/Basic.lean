import Mathlib.Data.List.Basic

/-!
# Shared types

What every module of the runtime uses: byte slices with their lexicographic order, and the closed
error set at plug boundaries.
-/

namespace TigerClaw

/-- `[]const u8`. -/
abbrev Bytes : Type := List UInt8

/-- The bytes of an ASCII literal. -/
def ascii (s : String) : Bytes := s.toList.map fun c => UInt8.ofNat c.toNat

/-- `std.mem.indexOf(u8, haystack, needle)`. -/
def indexOf (needle : Bytes) : Bytes → Option ℕ
  | [] => if needle = [] then some 0 else none
  | b :: bs => if needle.isPrefixOf (b :: bs) then some 0 else (indexOf needle bs).map (· + 1)

theorem indexOf_ne_none_iff {needle s : Bytes} : indexOf needle s ≠ none ↔ needle <:+: s := by
  induction s with
  | nil =>
    rw [indexOf, List.infix_nil]
    split <;> simp [*]
  | cons b s ih =>
    rw [indexOf, List.infix_cons_iff, ← ih, ← List.isPrefixOf_iff_prefix]
    split <;> simp [*]

/-- What is found is the needle. -/
theorem prefix_drop_of_indexOf {needle s : Bytes} {i : ℕ} (h : indexOf needle s = some i) :
    needle <+: s.drop i := by
  induction s generalizing i with
  | nil =>
    rw [indexOf] at h
    split at h
    · rename_i hneedle
      rw [hneedle]
      exact List.nil_prefix
    · cases h
  | cons b s ih =>
    rw [indexOf] at h
    split at h
    · rename_i hprefix
      obtain rfl := Option.some.inj h
      exact List.isPrefixOf_iff_prefix.mp hprefix
    · obtain ⟨j, hj, rfl⟩ := Option.map_eq_some_iff.mp h
      exact ih hj

/-- What is found is inside, and is found with more behind it. -/
theorem indexOf_append {needle bytes : Bytes} {i : ℕ} (h : indexOf needle bytes = some i)
    (more : Bytes) :
    i + needle.length ≤ bytes.length ∧ indexOf needle (bytes ++ more) = some i := by
  induction bytes generalizing i with
  | nil =>
    rw [indexOf] at h
    split at h
    · rename_i hneedle
      obtain rfl := Option.some.inj h
      subst hneedle
      cases more <;> simp [indexOf]
    · cases h
  | cons b bs ih =>
    rw [indexOf] at h
    rw [List.cons_append, indexOf]
    split at h
    · rename_i hprefix
      obtain rfl := Option.some.inj h
      have hpre := List.isPrefixOf_iff_prefix.mp hprefix
      have hmore : needle.isPrefixOf (b :: (bs ++ more)) = true :=
        List.isPrefixOf_iff_prefix.mpr (hpre.trans (List.prefix_append (b :: bs) more))
      exact ⟨by simpa using hpre.length_le, if_pos hmore⟩
    · rename_i hprefix
      obtain ⟨j, hj, rfl⟩ := Option.map_eq_some_iff.mp h
      obtain ⟨hle, hfound⟩ := ih hj
      have hnot : ¬ needle.isPrefixOf (b :: (bs ++ more)) = true := by
        intro hpre
        -- the needle ends before the bytes behind do, so it would have been found without them
        have hshort := List.isPrefixOf_iff_prefix.mp hpre
        refine hprefix (List.isPrefixOf_iff_prefix.mpr ?_)
        exact List.prefix_of_prefix_length_le hshort (List.prefix_append (b :: bs) more)
          (by rw [List.length_cons]; omega)
      rw [if_neg hnot, hfound]
      refine ⟨?_, rfl⟩
      rw [List.length_cons]
      omega

/-- `std.mem.lessThan(u8, a, b)`: the first byte that differs decides, then the length. -/
def lessThan : Bytes → Bytes → Bool
  | [], [] => false
  | [], _ :: _ => true
  | _ :: _, [] => false
  | a :: as, b :: bs => decide (a < b) || (a == b && lessThan as bs)

theorem lessThan_cons (a b : UInt8) (as bs : Bytes) :
    lessThan (a :: as) (b :: bs) = true ↔
      a.toNat < b.toNat ∨ a.toNat = b.toNat ∧ lessThan as bs = true := by
  simp only [lessThan, Bool.or_eq_true, decide_eq_true_eq, Bool.and_eq_true, beq_iff_eq,
    UInt8.lt_iff_toNat_lt, UInt8.toNat_inj]

theorem lessThan_asymm {a b : Bytes} (h : lessThan a b = true) : ¬ lessThan b a = true := by
  induction a generalizing b with
  | nil =>
    cases b with
    | nil => simp [lessThan] at h
    | cons y ys => simp [lessThan]
  | cons x xs ih =>
    cases b with
    | nil => simp [lessThan] at h
    | cons y ys =>
      rw [lessThan_cons] at h ⊢
      rintro (hlt | ⟨heq, hlt⟩)
      · omega
      · exact ih (h.resolve_left (by omega)).2 hlt

/-- Whatever stands anywhere stands on one side of a gap. -/
theorem lessThan_cotrans {a c : Bytes} (h : lessThan a c = true) (b : Bytes) :
    lessThan a b = true ∨ lessThan b c = true := by
  induction a generalizing b c with
  | nil =>
    cases b with
    | nil => exact .inr h
    | cons y ys => exact .inl rfl
  | cons x xs ih =>
    cases c with
    | nil => simp [lessThan] at h
    | cons z zs =>
      cases b with
      | nil => exact .inr rfl
      | cons y ys =>
        rw [lessThan_cons] at h ⊢
        rw [lessThan_cons]
        rcases Nat.lt_trichotomy x.toNat y.toNat with hxy | hxy | hxy
        · exact .inl (.inl hxy)
        · rcases Nat.lt_trichotomy y.toNat z.toNat with hyz | hyz | hyz
          · exact .inr (.inl hyz)
          · exact (ih (h.resolve_left (by omega)).2 ys).imp (fun hl => .inr ⟨hxy, hl⟩)
              fun hl => .inr ⟨hyz, hl⟩
          · omega
        · exact .inr (.inl (by omega))

/-- Of two different slices one comes first. -/
theorem lessThan_total {a b : Bytes} (h : a ≠ b) : lessThan a b = true ∨ lessThan b a = true := by
  induction a generalizing b with
  | nil =>
    cases b with
    | nil => exact absurd rfl h
    | cons y ys => exact .inl rfl
  | cons x xs ih =>
    cases b with
    | nil => exact .inr rfl
    | cons y ys =>
      rw [lessThan_cons, lessThan_cons]
      rcases Nat.lt_trichotomy x.toNat y.toNat with hxy | hxy | hxy
      · exact .inl (.inl hxy)
      · have hne : xs ≠ ys := fun hs => h (by rw [UInt8.toNat_inj.mp hxy, hs])
        exact (ih hne).imp (fun hl => .inr ⟨hxy, hl⟩) fun hl => .inr ⟨hxy.symm, hl⟩
      · exact .inr (.inl hxy)

/-- The closed error set at plug boundaries, from `src/errors.zig`. -/
inductive PlugError where
  | unavailable
  | badInput
  | timeout
  | refused
  | overBudget
  | internal

end TigerClaw
