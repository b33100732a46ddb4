import TigerClaw.Library.PdqOrder

/-!
# The sort sorts

Every pass of the sort works on one range, with the others still to be done.  Items that are out of
order always lie in one of those ranges; so nothing before a range is greater than an item in it,
which is what mending it, and taking the items equal to the pivot off its front, rely on.

* `partition_spec`, `partitionEqual_spec`: what the two partitions leave.
* `Pending`: the ranges that are still to be sorted, and `Pending.replace`: one of them is
  rearranged and replaced by parts of it.
* `pdqContext_sorted`, `pdq_sorted`: **the sort leaves no two items out of order**.
-/

namespace Pdq

universe u

variable {σ : Type u} {ctx : Context σ} {n : ℕ}

/-! ## The pivot -/

open private Nat.nextPowerOfTwo.go from Init.Data.Nat.Power2.Basic in
theorem nextPowerOfTwo_lt {m : ℕ} (hm : 0 < m) : m.nextPowerOfTwo < 2 * m := by
  -- the power is doubled only while it is less than `m`
  have hgo : ∀ k power (hpower : power > 0), m - power ≤ k → power < 2 * m →
      Nat.nextPowerOfTwo.go m power hpower < 2 * m := by
    intro k
    induction k with
    | zero =>
      intro power hpower hk hlt
      rw [Nat.nextPowerOfTwo.go, if_neg (by omega)]
      exact hlt
    | succ k ih =>
      intro power hpower hk hlt
      rw [Nat.nextPowerOfTwo.go]
      split
      · exact ih (power * 2) (by omega) (by omega) (by omega)
      · exact hlt
  exact hgo m 1 Nat.one_pos (Nat.sub_le m 1) (by omega)

/-- A masked random number is less than twice the length. -/
theorem and_modulus_lt {m : ℕ} (hm : 0 < m) (rand : UInt64) :
    (rand &&& (UInt64.ofNat m.nextPowerOfTwo - 1)).toNat < 2 * m := by
  have hlt := nextPowerOfTwo_lt hm
  have hpos : 0 < m.nextPowerOfTwo := Nat.pos_of_isPowerOfTwo (Nat.isPowerOfTwo_nextPowerOfTwo m)
  by_cases hsize : m.nextPowerOfTwo < UInt64.size
  · have hmask : (UInt64.ofNat m.nextPowerOfTwo - 1).toNat = m.nextPowerOfTwo - 1 := by
      have hof := UInt64.toNat_ofNat_of_lt' hsize
      rw [UInt64.toNat_sub_of_le _ _ (UInt64.le_iff_toNat_le.mpr (by rw [hof]; exact hpos)), hof]
      rfl
    have hand : (rand &&& (UInt64.ofNat m.nextPowerOfTwo - 1)).toNat ≤ m.nextPowerOfTwo - 1 := by
      rw [UInt64.toNat_and, hmask]
      exact Nat.and_le_right
    omega
  · have hall := UInt64.toNat_lt_size (rand &&& (UInt64.ofNat m.nextPowerOfTwo - 1))
    omega

section Pivot

variable (h : Lawful ctx n)

include h

theorem shuffle_rearranged {a b i : ℕ} (hai : a ≤ i) (hib : i < b) (hb : b ≤ n) (r : σ × UInt64) :
    Rearranged ctx a b r.1 (shuffle ctx a (b - a) r i).1 := by
  have hand := and_modulus_lt (by omega : 0 < b - a) (xorshift r.2)
  rw [shuffle]
  generalize (xorshift r.2 &&& (UInt64.ofNat (b - a).nextPowerOfTwo - 1)).toNat = other at hand ⊢
  refine Rearranged.swap h hai hib (Nat.le_add_right a _) ?_ hb r.1
  split <;> omega

theorem breakPatterns_rearranged {a b : ℕ} (hb : b ≤ n) (s : σ) :
    Rearranged ctx a b s (breakPatterns ctx a b s) := by
  rw [breakPatterns]
  split
  · exact Rearranged.refl a b s
  · exact foldl_range'_invariant (P := fun _ r => Rearranged ctx a b s r.1) 3
      (fun i r hi hi' hr => hr.trans (shuffle_rearranged h (by omega) (by omega) hb r))
      (t := (s, UInt64.ofNat (b - a))) (Rearranged.refl a b s)

theorem reverseRange_rearranged {a b : ℕ} (hab : a < b) (hb : b ≤ n) (s : σ) :
    Rearranged ctx a b s (reverseRange ctx a b s) := by
  have hloop : ∀ fuel i j s, a ≤ i → j < b → Rearranged ctx a b s (reverseLoop ctx fuel i j s) := by
    intro fuel
    induction fuel with
    | zero => exact fun i j s _ _ => Rearranged.refl a b s
    | succ fuel ih =>
      intro i j s hi hj
      rw [reverseLoop]
      split
      · exact (Rearranged.swap h hi (by omega) (by omega) hj hb s).trans
          (ih (i + 1) (j - 1) _ (by omega) (by omega))
      · exact Rearranged.refl a b s
  exact hloop b a (b - 1) s (le_refl a) (by omega)

theorem order2_rearranged {a b i j : ℕ} (hai : a ≤ i) (hib : i < b) (haj : a ≤ j) (hjb : j < b)
    (hb : b ≤ n) (r : σ × ℕ) : Rearranged ctx a b r.1 (order2 ctx i j r).1 := by
  rw [order2]
  split
  · exact Rearranged.swap h haj hjb hai hib hb r.1
  · exact Rearranged.refl a b r.1

theorem sort3_rearranged {a b i j k : ℕ} (hai : a ≤ i) (hij : i ≤ j) (hjk : j ≤ k) (hkb : k < b)
    (hb : b ≤ n) (r : σ × ℕ) : Rearranged ctx a b r.1 (sort3 ctx i j k r).1 := by
  have hfirst := fun r => order2_rearranged h hai (by omega : i < b) (by omega) (by omega : j < b)
    hb r
  have hsecond := fun r => order2_rearranged h (by omega : a ≤ j) (by omega) (by omega) hkb hb r
  exact ((hfirst r).trans (hsecond _)).trans (hfirst _)

theorem chosePivot_spec {a b : ℕ} (hlong : 24 < b - a) (hb : b ≤ n) (s : σ) :
    Rearranged ctx a b s (chosePivot ctx a b s).1 ∧ a ≤ (chosePivot ctx a b s).2.1 ∧
      (chosePivot ctx a b s).2.1 < b := by
  rw [chosePivot]
  dsimp only
  refine ⟨?_, by omega, by omega⟩
  rw [if_pos (by omega)]
  refine Rearranged.trans ?_
    (sort3_rearranged h (by omega) (by omega) (by omega) (by omega) hb _)
  split
  · have hi := sort3_rearranged h (by omega : a ≤ a + (b - a) / 4 * 1 - 1)
      (Nat.sub_le _ 1) (Nat.le_succ _) (by omega : a + (b - a) / 4 * 1 + 1 < b) hb (s, 0)
    have hj := fun r => sort3_rearranged h (by omega : a ≤ a + (b - a) / 4 * 2 - 1)
      (Nat.sub_le _ 1) (Nat.le_succ _) (by omega : a + (b - a) / 4 * 2 + 1 < b) hb r
    have hk := fun r => sort3_rearranged h (by omega : a ≤ a + (b - a) / 4 * 3 - 1)
      (Nat.sub_le _ 1) (Nat.le_succ _) (by omega : a + (b - a) / 4 * 3 + 1 < b) hb r
    exact (hi.trans (hj _)).trans (hk _)
  · exact Rearranged.refl a b s

theorem prepare_spec {l : Locals σ} (hlong : 24 < l.range.b - l.range.a) (hb : l.range.b ≤ n) :
    Rearranged ctx l.range.a l.range.b l.items (prepare ctx l).1 ∧
      l.range.a ≤ (prepare ctx l).2.1 ∧ (prepare ctx l).2.1 < l.range.b := by
  have hbroken : Rearranged ctx l.range.a l.range.b l.items
      (if l.wasBalanced then l.items else breakPatterns ctx l.range.a l.range.b l.items) := by
    split
    · exact Rearranged.refl _ _ l.items
    · exact breakPatterns_rearranged h hb l.items
  rw [prepare]
  generalize (if l.wasBalanced then l.items else breakPatterns ctx l.range.a l.range.b l.items) =
    items at hbroken ⊢
  obtain ⟨hchosen, hlo, hhi⟩ := chosePivot_spec h hlong hb items
  split
  · exact ⟨(hbroken.trans hchosen).trans (reverseRange_rearranged h (by omega) hb _),
      by dsimp only; omega, by dsimp only; omega⟩
  · exact ⟨hbroken.trans hchosen, hlo, hhi⟩

end Pivot

/-! ## The partitions -/

/-- The items from `lo` to `hi` that pass are those before `mid`. -/
structure Split (up : ℕ → Bool) (lo hi mid : ℕ) : Prop where
  lo_le : lo ≤ mid
  le_hi : mid ≤ hi
  front : ∀ k, lo ≤ k → k < mid → up k = true
  back : ∀ k, mid ≤ k → k < hi → up k = false

theorem scanUp_spec (p : ℕ → Bool) (fuel i : ℕ) :
    i ≤ scanUp p fuel i ∧ scanUp p fuel i ≤ i + fuel ∧
      (∀ k, i ≤ k → k < scanUp p fuel i → p k = true) ∧
      (scanUp p fuel i < i + fuel → p (scanUp p fuel i) = false) := by
  induction fuel generalizing i with
  | zero => exact ⟨le_refl i, le_refl i, fun k _ _ => by simp only [scanUp] at *; omega,
      fun hlt => absurd hlt (lt_irrefl i)⟩
  | succ fuel ih =>
    rw [scanUp]
    split
    · rename_i hp
      obtain ⟨hle, hle', hpass, hstop⟩ := ih (i + 1)
      refine ⟨by omega, by omega, fun k hik hk => ?_, fun hlt => hstop (by omega)⟩
      by_cases hki : k = i
      · rwa [hki]
      · exact hpass k (by omega) hk
    · rename_i hp
      exact ⟨le_refl i, Nat.le_add_right i _, fun k _ _ => by omega,
        fun _ => Bool.eq_false_iff.mpr hp⟩

theorem scanDown_spec (p : ℕ → Bool) {fuel j : ℕ} (hfuel : fuel ≤ j) :
    scanDown p fuel j ≤ j ∧ j ≤ scanDown p fuel j + fuel ∧
      (∀ k, scanDown p fuel j < k → k ≤ j → p k = true) ∧
      (j < scanDown p fuel j + fuel → p (scanDown p fuel j) = false) := by
  induction fuel generalizing j with
  | zero => exact ⟨le_refl j, le_refl j, fun k _ _ => by simp only [scanDown] at *; omega,
      fun hlt => absurd hlt (lt_irrefl j)⟩
  | succ fuel ih =>
    rw [scanDown]
    split
    · rename_i hp
      obtain ⟨hle, hle', hpass, hstop⟩ := ih (by omega : fuel ≤ j - 1)
      refine ⟨by omega, by omega, fun k hk hkj => ?_, fun hlt => hstop (by omega)⟩
      by_cases hkj' : k = j
      · rwa [hkj']
      · exact hpass k hk (by omega)
    · rename_i hp
      exact ⟨le_refl j, Nat.le_add_right j _, fun k _ _ => by omega,
        fun _ => Bool.eq_false_iff.mpr hp⟩

/-- **The loop of swaps splits the range**, when a swap only exchanges what the scans see. -/
theorem swapLoop_spec (h : Lawful ctx n) {up down : σ → ℕ → Bool} {lo hi fuel i j : ℕ}
    (hdown : ∀ s k, down s k = !up s k)
    (hup : ∀ s i j k, lo ≤ i → i < hi → lo ≤ j → j < hi →
      up (ctx.swap s i j) k = up s (Equiv.swap i j k))
    (hhi : hi ≤ n) (hlo : 0 < lo) (hloi : lo ≤ i) (hij : i ≤ j + 1) (hj : j < hi)
    (hfuel : j + 1 ≤ i + fuel) {s : σ} (hfront : ∀ k, lo ≤ k → k < i → up s k = true)
    (hback : ∀ k, j < k → k < hi → up s k = false) :
    Rearranged ctx lo hi s (swapLoop ctx up down fuel i j s).1 ∧
      (swapLoop ctx up down fuel i j s).2.1 = (swapLoop ctx up down fuel i j s).2.2 + 1 ∧
      Split (up (swapLoop ctx up down fuel i j s).1) lo hi
        (swapLoop ctx up down fuel i j s).2.1 := by
  induction fuel generalizing i j s with
  | zero =>
    obtain rfl : i = j + 1 := by omega
    exact ⟨Rearranged.refl lo hi s, rfl, hloi, hj, hfront, hback⟩
  | succ fuel ih =>
    rw [swapLoop]
    dsimp only [scan]
    obtain ⟨hi₁, hi₂, hpassed, hstop⟩ := scanUp_spec (up s) (j + 1 - i) i
    generalize scanUp (up s) (j + 1 - i) i = i' at hi₁ hi₂ hpassed hstop ⊢
    obtain ⟨hj₁, hj₂, hpassed', hstop'⟩ := scanDown_spec (down s) (by omega : j + 1 - i' ≤ j)
    generalize scanDown (down s) (j + 1 - i') j = j' at hj₁ hj₂ hpassed' hstop' ⊢
    have hfront' : ∀ k, lo ≤ k → k < i' → up s k = true := fun k hk hki => by
      by_cases hk' : k < i
      · exact hfront k hk hk'
      · exact hpassed k (by omega) hki
    have hback' : ∀ k, j' < k → k < hi → up s k = false := fun k hjk hk => by
      by_cases hk' : j < k
      · exact hback k hk' hk
      · have hdownk := hpassed' k hjk (by omega)
        rwa [hdown, Bool.not_eq_true'] at hdownk
    split
    · obtain rfl : i' = j' + 1 := by omega
      exact ⟨Rearranged.refl lo hi s, rfl, by dsimp only; omega, by dsimp only; omega, hfront',
        hback'⟩
    · -- the scans have stopped at two items on the wrong sides
      have hupi : up s i' = false := hstop (by omega)
      have hupj : up s j' = true := by
        have hdownj := hstop' (by omega)
        rwa [hdown, Bool.not_eq_false'] at hdownj
      have hne : i' ≠ j' := by
        rintro rfl
        exact Bool.noConfusion (hupi.symm.trans hupj)
      obtain ⟨hrearranged, hmid, hsplit⟩ := ih (i := i' + 1) (j := j' - 1) (by omega) (by omega)
        (by omega) (by omega) (s := ctx.swap s i' j')
        (fun k hk hki => by
          rw [hup s i' j' k (by omega) (by omega) (by omega) (by omega)]
          by_cases hki' : k = i'
          · rwa [hki', Equiv.swap_apply_left]
          · rw [Equiv.swap_apply_of_ne_of_ne hki' (by omega)]
            exact hfront' k hk (by omega))
        (fun k hjk hk => by
          rw [hup s i' j' k (by omega) (by omega) (by omega) (by omega)]
          by_cases hkj' : k = j'
          · rwa [hkj', Equiv.swap_apply_right]
          · rw [Equiv.swap_apply_of_ne_of_ne (by omega) hkj']
            exact hback' k (by omega) hk)
      have hswap := Rearranged.swap h (by omega : lo ≤ i') (by omega : i' < hi)
        (by omega : lo ≤ j') (by omega) hhi s
      exact ⟨hswap.trans hrearranged, hmid, hsplit⟩

/-- The loop as the partitions start it, with nothing scanned yet. -/
theorem swapLoop_split (h : Lawful ctx n) (up down : σ → ℕ → Bool) (a b fuel : ℕ)
    (hdown : ∀ s k, down s k = !up s k)
    (hup : ∀ s i j k, a + 1 ≤ i → i < b → a + 1 ≤ j → j < b →
      up (ctx.swap s i j) k = up s (Equiv.swap i j k))
    (hab : a < b) (hb : b ≤ n) (hfuel : b ≤ fuel) (s : σ) :
    Rearranged ctx (a + 1) b s (swapLoop ctx up down fuel (a + 1) (b - 1) s).1 ∧
      (swapLoop ctx up down fuel (a + 1) (b - 1) s).2.1 =
        (swapLoop ctx up down fuel (a + 1) (b - 1) s).2.2 + 1 ∧
      Split (up (swapLoop ctx up down fuel (a + 1) (b - 1) s).1) (a + 1) b
        (swapLoop ctx up down fuel (a + 1) (b - 1) s).2.1 :=
  swapLoop_spec h hdown hup hb (Nat.succ_pos a) (le_refl _) (by omega) (by omega) (by omega)
    (fun k _ _ => by omega) (fun k _ _ => by omega)

/-- A partition makes the first swap outside the loop, to see whether there is one. -/
theorem partition_eq (ctx : Context σ) (a b pivot : ℕ) (s : σ) :
    let r := swapLoop ctx (fun s i => ctx.lessThan s i a) (fun s j => !ctx.lessThan s j a) (b + 1)
      (a + 1) (b - 1) (ctx.swap s a pivot)
    (partition ctx a b pivot s).1 = ctx.swap r.1 r.2.2 a ∧
      (partition ctx a b pivot s).2.1 = r.2.2 := by
  rw [swapLoop, partition]
  dsimp only
  split <;> exact ⟨rfl, rfl⟩

section Partition

variable (h : Lawful ctx n)

include h

/-- **A partition puts the pivot in its place**: what is before it is not greater, and what is
behind it not less. -/
theorem partition_spec {a b pivot : ℕ} (hap : a ≤ pivot) (hpb : pivot < b) (hb : b ≤ n) (s : σ) :
    Rearranged ctx a b s (partition ctx a b pivot s).1 ∧
      a ≤ (partition ctx a b pivot s).2.1 ∧ (partition ctx a b pivot s).2.1 < b ∧
      (∀ k, a ≤ k → k < (partition ctx a b pivot s).2.1 →
        ctx.Le (partition ctx a b pivot s).1 k (partition ctx a b pivot s).2.1) ∧
      ∀ k, (partition ctx a b pivot s).2.1 < k → k < b →
        ctx.Le (partition ctx a b pivot s).1 (partition ctx a b pivot s).2.1 k := by
  obtain ⟨hitems, hmid⟩ := partition_eq ctx a b pivot s
  obtain ⟨hrearranged, hmeet, hsplit⟩ := swapLoop_split h (fun s i => ctx.lessThan s i a)
    (fun s j => !ctx.lessThan s j a) a b (b + 1) (fun _ _ => rfl)
    (fun s i j k hi hib hj hjb => by
      rw [h.swap (by omega) (by omega),
        Equiv.swap_apply_of_ne_of_ne (x := a) (by omega) (by omega)])
    (by omega) hb (Nat.le_succ b) (ctx.swap s a pivot)
  rw [hitems, hmid]
  generalize swapLoop ctx _ _ (b + 1) (a + 1) (b - 1) (ctx.swap s a pivot) = r at *
  obtain ⟨s', i, j⟩ := r
  dsimp only at *
  subst hmeet
  have haj : a ≤ j := Nat.le_of_succ_le_succ hsplit.lo_le
  have hjb : j < b := hsplit.le_hi
  refine ⟨((Rearranged.swap h (le_refl a) (by omega) hap hpb hb s).trans
      (hrearranged.mono (Nat.le_succ a) (le_refl b))).trans
      (Rearranged.swap h haj hjb (le_refl a) (by omega) hb s'), haj, hjb,
    fun k hak hkj => ?_, fun k hjk hkb => ?_⟩
  · rw [h.le_swap (by omega) (by omega), Equiv.swap_apply_left, Equiv.swap_apply_def]
    split
    · omega
    split
    · exact h.le_of_lessThan (hsplit.front j (by omega) (Nat.lt_succ_self j))
    · exact h.le_of_lessThan (hsplit.front k (by omega) (by omega))
  · rw [h.le_swap (by omega) (by omega), Equiv.swap_apply_left,
      Equiv.swap_apply_of_ne_of_ne (by omega) (by omega)]
    exact hsplit.back k hjk hkb

/-- **Behind a pivot that is not greater than any item**, only the items greater than it are left to
sort. -/
theorem partitionEqual_spec {a b pivot : ℕ} (hap : a ≤ pivot) (hpb : pivot < b) (hb : b ≤ n) {s : σ}
    (hleast : ∀ k, a ≤ k → k < b → ctx.Le s pivot k) :
    Rearranged ctx a b s (partitionEqual ctx a b pivot s).1 ∧
      a ≤ (partitionEqual ctx a b pivot s).2 ∧
      ∀ i j, a ≤ i → i < (partitionEqual ctx a b pivot s).2 → i < j → j < b →
        ctx.Le (partitionEqual ctx a b pivot s).1 i j := by
  obtain ⟨hrearranged, -, hsplit⟩ := swapLoop_split h (fun s i => !ctx.lessThan s a i)
    (fun s j => ctx.lessThan s a j) a b b (fun _ _ => (Bool.not_not _).symm)
    (fun s i j k hi hib hj hjb => by
      rw [h.swap (by omega) (by omega),
        Equiv.swap_apply_of_ne_of_ne (x := a) (by omega) (by omega)])
    (by omega) hb (le_refl b) (ctx.swap s a pivot)
  rw [partitionEqual]
  dsimp only
  generalize swapLoop ctx _ _ b (a + 1) (b - 1) (ctx.swap s a pivot) = r at *
  obtain ⟨s', mid, j⟩ := r
  dsimp only at *
  have hswap := Rearranged.swap h (le_refl a) (by omega) hap hpb hb s
  have hall := hswap.trans (hrearranged.mono (Nat.le_succ a) (le_refl b))
  have hfirst : ∀ k, a + 1 ≤ k → k < b → ctx.Le (ctx.swap s a pivot) a k := by
    intro k hak hkb
    rw [h.le_swap (by omega) (by omega), Equiv.swap_apply_left, Equiv.swap_apply_def]
    split
    · exact hleast pivot hap hpb
    split
    · exact hleast a (le_refl a) (by omega)
    · exact hleast k (by omega) hkb
  refine ⟨hall, Nat.le_of_succ_le hsplit.lo_le, fun i k hai hi hik hkb => ?_⟩
  have hle : ctx.Le s' a k := hrearranged.le_of_below (.inl (Nat.lt_succ_self a)) hfirst
    (by omega) hkb
  by_cases hia : i = a
  · rwa [hia]
  · have hequal : ctx.Le s' i a := by
      have hup := hsplit.front i (by omega) hi
      rwa [Bool.not_eq_true'] at hup
    exact h.le_trans (by omega) hequal hle

end Partition

/-! ## The ranges that are pending -/

/-- Two ranges without a common index. -/
def Range.Apart (r r' : Range) : Prop := r.b ≤ r'.a ∨ r'.b ≤ r.a

/-- Items out of order lie together in one of the ranges. -/
structure Pending (ctx : Context σ) (n : ℕ) (s : σ) (ranges : List Range) : Prop where
  le : ∀ r ∈ ranges, r.b ≤ n
  apart : ranges.Pairwise Range.Apart
  cover : ∀ i j, i < j → j < n → ctx.Le s i j ∨ ∃ r ∈ ranges, r.a ≤ i ∧ j < r.b

namespace Pending

variable {s s' : σ} {r : Range} {ranges : List Range}

theorem sortedOn (hs : Pending ctx n s []) : ctx.SortedOn s 0 n := by
  intro i j _ hij hj
  rcases hs.cover i j hij hj with hle | ⟨r, hr, -⟩
  · exact hle
  · cases hr

/-- Of two items out of order, one in the first range and one not: there is no such pair. -/
theorem le_of_not_both (hs : Pending ctx n s (r :: ranges)) {i j : ℕ} (hij : i < j) (hj : j < n)
    (hboth : ¬ (r.a ≤ i ∧ j < r.b)) (hone : r.a ≤ i ∧ i < r.b ∨ r.a ≤ j ∧ j < r.b) :
    ctx.Le s i j := by
  rcases hs.cover i j hij hj with hle | ⟨r', hr', hi, hj'⟩
  · exact hle
  · rcases List.mem_cons.mp hr' with rfl | hr'
    · exact absurd ⟨hi, hj'⟩ hboth
    · have hapart := (List.pairwise_cons.mp hs.apart).1 r' hr'
      unfold Range.Apart at hapart
      omega

/-- Nothing before the range is greater than an item in it. -/
theorem below (hs : Pending ctx n s (r :: ranges)) (i j : ℕ) (hi : i < r.a) (haj : r.a ≤ j)
    (hjb : j < r.b) : ctx.Le s i j := by
  have hrn := hs.le r List.mem_cons_self
  exact hs.le_of_not_both (by omega) (by omega) (by omega) (.inr ⟨haj, hjb⟩)

/-- **The first range is rearranged, and parts of it are left to sort.** -/
theorem replace (hs : Pending ctx n s (r :: ranges)) (h : Rearranged ctx r.a r.b s s')
    (parts : List Range) (hparts : ∀ r' ∈ parts, r.a ≤ r'.a ∧ r'.b ≤ r.b)
    (hapart : parts.Pairwise Range.Apart)
    (hpost : ∀ i j, r.a ≤ i → i < j → j < r.b →
      ctx.Le s' i j ∨ ∃ r' ∈ parts, r'.a ≤ i ∧ j < r'.b) :
    Pending ctx n s' (parts ++ ranges) := by
  have hrn := hs.le r List.mem_cons_self
  obtain ⟨hfirst, hrest⟩ := List.pairwise_cons.mp hs.apart
  refine ⟨fun r' hr' => ?_, List.pairwise_append.mpr ⟨hapart, hrest, fun r' hr' r'' hr'' => ?_⟩,
    fun i j hij hj => ?_⟩
  · rcases List.mem_append.mp hr' with hpart | hold
    · exact le_trans (hparts r' hpart).2 hrn
    · exact hs.le r' (List.mem_cons_of_mem r hold)
  · have hold := hfirst r'' hr''
    have hpart := hparts r' hr'
    unfold Range.Apart at hold ⊢
    omega
  · by_cases hboth : r.a ≤ i ∧ j < r.b
    · rcases hpost i j hboth.1 hij hboth.2 with hle | ⟨r', hr', hin⟩
      · exact .inl hle
      · exact .inr ⟨r', List.mem_append_left ranges hr', hin⟩
    by_cases hini : r.a ≤ i ∧ i < r.b
    · exact .inl (h.le_of_above (by omega)
        (fun i hai hib => hs.le_of_not_both (by omega) hj (by omega) (.inl ⟨hai, hib⟩))
        hini.1 hini.2)
    by_cases hinj : r.a ≤ j ∧ j < r.b
    · exact .inl (h.le_of_below (by omega)
        (fun j haj hjb => hs.le_of_not_both (by omega) (by omega) (by omega) (.inr ⟨haj, hjb⟩))
        hinj.1 hinj.2)
    · rw [h.le_iff (by omega) (by omega)]
      rcases hs.cover i j hij hj with hle | ⟨r', hr', hin⟩
      · exact .inl hle
      · rcases List.mem_cons.mp hr' with rfl | hold
        · exact absurd hin hboth
        · exact .inr ⟨r', List.mem_append_right parts hold, hin⟩

/-- A range that has been rearranged is still pending. -/
theorem rearrange (hs : Pending ctx n s (r :: ranges)) (h : Rearranged ctx r.a r.b s s') :
    Pending ctx n s' (r :: ranges) := by
  refine hs.replace h [r] (fun r' hr' => ?_) (List.pairwise_singleton _ r) fun i j hi _ hj =>
    .inr ⟨r, List.mem_singleton_self r, hi, hj⟩
  obtain rfl := List.mem_singleton.mp hr'
  exact ⟨le_refl _, le_refl _⟩

/-- A range that has been sorted is not pending any more. -/
theorem drop (hs : Pending ctx n s (r :: ranges)) (h : Rearranged ctx r.a r.b s s')
    (hsorted : ctx.SortedOn s' r.a r.b) : Pending ctx n s' ranges :=
  hs.replace h [] (fun r' hr' => by cases hr') List.Pairwise.nil
    fun i j hi hij hj => .inl (hsorted i j hi hij hj)

/-- The order of the ranges does not matter. -/
theorem perm {ranges' : List Range} (hs : Pending ctx n s ranges) (hperm : ranges.Perm ranges') :
    Pending ctx n s ranges' := by
  refine ⟨fun r hr => hs.le r (hperm.mem_iff.mpr hr),
    (hperm.pairwise_iff fun hapart => hapart.symm).mp hs.apart, fun i j hij hj => ?_⟩
  rcases hs.cover i j hij hj with hle | ⟨r, hr, hin⟩
  · exact .inl hle
  · exact .inr ⟨r, hperm.mem_iff.mp hr, hin⟩

/-- **A range is split at an item in its place**: two items out of order are on the same side. -/
theorem split (h : Lawful ctx n) (hs : Pending ctx n s (r :: ranges)) {mid : ℕ} (hlo : r.a ≤ mid)
    (hhi : mid < r.b) (hfront : ∀ k, r.a ≤ k → k < mid → ctx.Le s k mid)
    (hback : ∀ k, mid < k → k < r.b → ctx.Le s mid k) (limit : ℕ) :
    Pending ctx n s (⟨r.a, mid, limit⟩ :: ⟨mid + 1, r.b, limit⟩ :: ranges) := by
  have hrn := hs.le r List.mem_cons_self
  refine hs.replace (Rearranged.refl r.a r.b s) [⟨r.a, mid, limit⟩, ⟨mid + 1, r.b, limit⟩]
    (fun r' hr' => ?_) (List.pairwise_pair.mpr (.inl (Nat.le_succ mid))) fun i j hi hij hj => ?_
  · rcases List.mem_pair.mp hr' with rfl | rfl
    · exact ⟨le_refl r.a, le_of_lt hhi⟩
    · exact ⟨Nat.le_succ_of_le hlo, le_refl r.b⟩
  by_cases hleft : j < mid
  · exact .inr ⟨_, List.mem_cons_self, hi, hleft⟩
  by_cases hright : mid < i
  · exact .inr ⟨_, List.mem_cons_of_mem _ (List.mem_singleton_self _), hright, hj⟩
  by_cases hi' : i = mid
  · rw [hi']
    exact .inl (hback j (by omega) hj)
  by_cases hj' : j = mid
  · rw [hj']
    exact .inl (hfront i hi (by omega))
  · exact .inl (h.le_trans (by omega) (hfront i hi (by omega)) (hback j (by omega) hj))

end Pending

/-! ## The passes -/

/-- What a pass leaves to do, or that there is nothing out of order. -/
def Kept (ctx : Context σ) (n : ℕ) : Loop.Round (Locals σ) σ → Prop
  | .again l => Pending ctx n l.items (l.range :: l.stack)
  | .leave s => ctx.SortedOn s 0 n

section Passes

variable (h : Lawful ctx n) {l : Locals σ}

include h

omit h in
theorem done_kept {items : σ} (hs : Pending ctx n items l.stack) : Kept ctx n (done l items) := by
  unfold done
  split
  · rename_i hstack
    rw [hstack] at hs
    exact hs.sortedOn
  · rename_i range stack hstack
    rw [hstack] at hs
    exact hs

theorem divide_kept {pivot : ℕ} {items : σ} (hap : l.range.a ≤ pivot) (hpb : pivot < l.range.b)
    (hs : Pending ctx n items (l.range :: l.stack)) : Kept ctx n (divide ctx 0 l pivot items) := by
  have hb := hs.le l.range List.mem_cons_self
  unfold divide
  dsimp only
  split
  · -- the item before the range is not less than the pivot, and not greater than any item
    rename_i hbefore
    have hpivot : ctx.Le items pivot (l.range.a - 1) := by
      have hless := hbefore.2
      rwa [Bool.not_eq_true'] at hless
    obtain ⟨hrearranged, hlo, hfront⟩ := partitionEqual_spec h hap hpb hb fun k hak hkb =>
      h.le_trans (by omega) hpivot (hs.below (l.range.a - 1) k (by omega) hak hkb)
    refine hs.replace hrearranged [_] (fun r' hr' => ?_) (List.pairwise_singleton _ _)
      fun i j hi hij hj => ?_
    · obtain rfl := List.mem_singleton.mp hr'
      exact ⟨hlo, le_refl _⟩
    · by_cases hmid : i < (partitionEqual ctx l.range.a l.range.b pivot items).2
      · exact .inl (hfront i j hi hmid hij hj)
      · exact .inr ⟨_, List.mem_singleton_self _, by dsimp only; omega, hj⟩
  · obtain ⟨hrearranged, hlo, hhi, hfront, hback⟩ := partition_spec h hap hpb hb items
    have hsplit := (hs.rearrange hrearranged).split h hlo hhi hfront hback
      (if l.wasBalanced then l.range.limit else l.range.limit - 1)
    split
    · exact hsplit.perm (List.Perm.swap _ _ _)
    · exact hsplit

theorem passRange_kept (hlong : 24 < l.range.b - l.range.a)
    (hs : Pending ctx n l.items (l.range :: l.stack)) : Kept ctx n (passRange ctx 0 l) := by
  have hb := hs.le l.range List.mem_cons_self
  obtain ⟨hprepared, hap, hpb⟩ := prepare_spec h hlong hb
  rw [passRange]
  generalize prepare ctx l = c at hprepared hap hpb ⊢
  have hs' := hs.rearrange hprepared
  have hmended : Rearranged ctx l.range.a l.range.b c.1 (mend ctx l c.2.2 c.1).1 ∧
      ((mend ctx l c.2.2 c.1).2 = true →
        ctx.SortedOn (mend ctx l c.2.2 c.1).1 l.range.a l.range.b) := by
    rw [mend]
    split
    · exact partialInsertionSort_sorted h (by omega) hb hs'.below
    · exact ⟨Rearranged.refl _ _ c.1, fun htrue => Bool.noConfusion htrue⟩
  generalize mend ctx l c.2.2 c.1 = m at hmended ⊢
  split
  · rename_i hdone
    exact done_kept (hs'.drop hmended.1 (hmended.2 hdone))
  · exact divide_kept h hap hpb (hs'.rearrange hmended.1)

theorem pass_kept (hs : Pending ctx n l.items (l.range :: l.stack)) :
    Kept ctx n (pass ctx 0 l) := by
  have hb := hs.le l.range List.mem_cons_self
  unfold pass
  split
  · obtain ⟨hrearranged, hsorted⟩ := insertionContext_sorted h (a := l.range.a) hb l.items
    exact done_kept (hs.drop hrearranged hsorted)
  split
  · obtain ⟨hrearranged, hsorted⟩ := heapContext_sorted h (a := l.range.a) (by omega) hb l.items
    exact done_kept (hs.drop hrearranged hsorted)
  · exact passRange_kept h (by omega) hs

end Passes

/-- **The sort leaves no two items out of order.** -/
theorem pdqContext_sorted (h : Lawful ctx n) (s : σ) : ctx.SortedOn (pdqContext ctx 0 n s) 0 n := by
  have hstart : Pending ctx n (start 0 n s).items
      ((start 0 n s).range :: (start 0 n s).stack) := by
    refine ⟨fun r hr => ?_, List.pairwise_singleton _ _, fun i j hij hj =>
      .inr ⟨_, List.mem_singleton_self _, Nat.zero_le i, hj⟩⟩
    obtain rfl := List.mem_singleton.mp hr
    exact le_refl n
  obtain ⟨s', hreturn⟩ := Option.isSome_iff_exists.mp (loop_pass_isSome ctx 0 n s)
  have hsorted : ctx.SortedOn s' 0 n := Loop.loop_sound
    (R := fun l s' => Pending ctx n l.items (l.range :: l.stack) → ctx.SortedOn s' 0 n)
    (fun l s' hleave hl => by
      have hkept := pass_kept h hl
      rwa [hleave] at hkept)
    (fun l l' s' hagain hrest hl => hrest (by
      have hkept := pass_kept h hl
      rwa [hagain] at hkept))
    hreturn hstart
  rw [pdqContext, hreturn]
  exact hsorted

/-! ## Lists -/

variable {α : Type u} (less : α → α → Bool)

theorem getElem?_swapAt {l : List α} {i j : ℕ} (hi : i < l.length) (hj : j < l.length) (k : ℕ) :
    (swapAt l i j)[k]? = l[Equiv.swap i j k]? := by
  rw [swapAt, List.getElem?_eq_getElem hi, List.getElem?_eq_getElem hj]
  dsimp only
  by_cases hkj : k = j
  · subst hkj
    rw [Equiv.swap_apply_right, List.getElem?_set_self (by rwa [List.length_set]),
      List.getElem?_eq_getElem hi]
  rw [List.getElem?_set_ne (Ne.symm hkj)]
  by_cases hki : k = i
  · subst hki
    rw [Equiv.swap_apply_left, List.getElem?_set_self hi, List.getElem?_eq_getElem hj]
  · rw [List.getElem?_set_ne (Ne.symm hki), Equiv.swap_apply_of_ne_of_ne hki hkj]

/-- The context of the lists of length `n`. -/
def onLength (n : ℕ) : Context {l : List α // l.length = n} :=
  (onList less).restrict fun l i j hl => (swapAt_perm l i j).length_eq.trans hl

/-- A weak order on the entries is one on the indices. -/
theorem onLength_lawful (hasymm : ∀ x y, less x y = true → less y x = false)
    (hcotrans : ∀ x y z, less x z = true → less x y = true ∨ less y z = true) (n : ℕ) :
    Lawful (onLength less n) n where
  swap {i j} hi hj s k l := by
    obtain ⟨s, rfl⟩ := s
    show (onList less).lessThan (swapAt s i j) k l = _
    simp only [onList, getElem?_swapAt hi hj]
    rfl
  asymm {s i j} hless := by
    simp only [onLength, Context.restrict, onList] at hless ⊢
    split at hless
    · rename_i x y hx hy
      rw [hx, hy]
      exact hasymm x y hless
    · cases hless
  cotrans {s i j k} hj hless := by
    obtain ⟨s, rfl⟩ := s
    simp only [onLength, Context.restrict, onList] at hless ⊢
    split at hless
    · rename_i x z hx hz
      rw [hx, hz, List.getElem?_eq_getElem hj]
      exact hcotrans x _ z hless
    · cases hless

/-- **A list is sorted by a weak order.** -/
theorem pdq_sorted (hasymm : ∀ x y, less x y = true → less y x = false)
    (hcotrans : ∀ x y z, less x z = true → less x y = true ∨ less y z = true) (l : List α) :
    (pdq less l).Pairwise fun x y => less y x = false := by
  have hom : Hom (onLength less l.length) (onList less) Subtype.val :=
    ⟨fun _ _ _ => rfl, fun _ _ _ => rfl⟩
  have hsorted := pdqContext_sorted (onLength_lawful less hasymm hcotrans l.length) ⟨l, rfl⟩
  have hpdq : pdq less l = (pdqContext (onLength less l.length) 0 l.length ⟨l, rfl⟩).1 :=
    pdqContext_hom hom 0 l.length ⟨l, rfl⟩
  have hlength : (pdq less l).length = l.length := (pdq_perm less l).length_eq
  rw [List.pairwise_iff_getElem]
  intro i j hi hj hij
  have hle : (onList less).lessThan (pdq less l) j i = false := by
    rw [hpdq]
    exact hsorted i j (Nat.zero_le i) hij (hlength ▸ hj)
  simp only [onList, List.getElem?_eq_getElem hi, List.getElem?_eq_getElem hj] at hle
  exact hle

end Pdq
