import Mathlib.Data.List.Infix
import Mathlib.Data.List.Nodup

/-!
# Openings and closings that stand together

An item of a list can open some keys and close some.  What is opened is to be closed by the next
item, all of it at once.

* `Paired`: every closing is right behind its opening, and every opening is closed once.
* `Paired.append_pair`: an opening and its closing at the end.
* `Rounds`: lists where a closing is an item of its own, one for each key that was opened.
* `Together`: a selection that leaves a round out, or keeps both of its items next to each other.
* `paired_iff_together`: these are the selections of a list of rounds that are paired.
-/

universe u v

namespace Pairing

variable {α : Type u} {κ : Type v} (opens closes : α → List κ)

/-- What an item closes was opened by the one before it, and what it opens is closed once by the
next one. -/
structure Paired [BEq κ] (l : List α) : Prop where
  closed : ∀ i b x, l[i]? = some b → x ∈ closes b →
    ∃ j a, i = j + 1 ∧ l[j]? = some a ∧ x ∈ opens a
  opened : ∀ i a x, l[i]? = some a → x ∈ opens a →
    ∃ b, l[i + 1]? = some b ∧ (closes b).count x = 1

/-- An opening is followed by one item for each key. -/
inductive Rounds : List α → Prop where
  | nil : Rounds []
  | plain {h : List α} {a : α} : Rounds h → opens a = [] → closes a = [] → Rounds (h ++ [a])
  | round {h : List α} {a : α} {bs : List α} : Rounds h → closes a = [] →
      (∀ b ∈ bs, opens b = []) → bs.map closes = (opens a).map ([·]) → Rounds (h ++ a :: bs)

/-- The positions `L` have nothing of a round, or it has only two items, and `L` has them both, one
right after the other. -/
def Together (h : List α) (L : List ℕ) : Prop :=
  ∀ i, ∀ hi : i < h.length, opens h[i] ≠ [] →
    (∀ k ∈ L, k < i ∨ i + (opens h[i]).length < k) ∨
      ((opens h[i]).length = 1 ∧ [i, i + 1] <:+: L)

instance (h : List α) (L : List ℕ) : Decidable (Together opens h L) :=
  inferInstanceAs (Decidable (∀ i, ∀ hi : i < h.length, opens h[i] ≠ [] →
    (∀ k ∈ L, k < i ∨ i + (opens h[i]).length < k) ∨
      ((opens h[i]).length = 1 ∧ [i, i + 1] <:+: L)))

/-! ## Lists one behind the other -/

variable {opens closes} {h l : List α} {L : List ℕ} {a b : α} {x : κ}

theorem getElem?_append_cases {l' : List α} {i : ℕ} (hi : (l ++ l')[i]? = some a) :
    l[i]? = some a ∨ ∃ j, i = l.length + j ∧ l'[j]? = some a := by
  by_cases hlt : i < l.length
  · rw [List.getElem?_append_left hlt] at hi
    exact .inl hi
  · rw [List.getElem?_append_right (Nat.le_of_not_lt hlt)] at hi
    exact .inr ⟨i - l.length, by omega, hi⟩

theorem getElem?_append_of_some {l' : List α} {i : ℕ} (hi : l[i]? = some a) :
    (l ++ l')[i]? = some a := by
  rw [List.getElem?_append_left (List.getElem?_eq_some_iff.mp hi).1, hi]

theorem getElem?_append_add (l l' : List α) (j : ℕ) : (l ++ l')[l.length + j]? = l'[j]? := by
  rw [List.getElem?_append_right (Nat.le_add_right _ _), Nat.add_sub_cancel_left]

theorem getElem?_pair_cases {c : α} {j : ℕ} (hj : [a, b][j]? = some c) :
    (j = 0 ∧ c = a) ∨ (j = 1 ∧ c = b) := by
  match j, hj with
  | 0, hj => exact .inl ⟨rfl, (Option.some.inj hj).symm⟩
  | 1, hj => exact .inr ⟨rfl, (Option.some.inj hj).symm⟩

/-! ## Where a round stands -/

/-- The key at index `j` of an opening is closed by the item at `j` behind it, and by no other. -/
theorem Rounds.closer (hh : Rounds opens closes h) {i j : ℕ} (hi : h[i]? = some a)
    (hj : (opens a)[j]? = some x) : ∃ b, h[i + 1 + j]? = some b ∧ closes b = [x] := by
  induction hh generalizing i with
  | nil => simp at hi
  | plain _ hopens _ ih =>
    rcases getElem?_append_cases hi with hi | ⟨k, rfl, hk⟩
    · obtain ⟨b, hb, hx⟩ := ih hi
      exact ⟨b, getElem?_append_of_some hb, hx⟩
    · obtain rfl := List.mem_singleton.mp (List.mem_of_getElem? hk)
      simp [hopens] at hj
  | @round h c bs _ _ hopens hcloses ih =>
    rcases getElem?_append_cases hi with hi | ⟨k, rfl, hk⟩
    · obtain ⟨b, hb, hx⟩ := ih hi
      exact ⟨b, getElem?_append_of_some hb, hx⟩
    cases k with
    | zero =>
      obtain rfl := Option.some.inj hk
      have hbs := congrArg (·[j]?) hcloses
      simp only [List.getElem?_map, hj, Option.map_some] at hbs
      obtain ⟨b, hb, hx⟩ := Option.map_eq_some_iff.mp hbs
      refine ⟨b, ?_, hx⟩
      rw [Nat.add_zero, Nat.add_assoc, getElem?_append_add, Nat.add_comm, List.getElem?_cons_succ,
        hb]
    | succ k =>
      rw [List.getElem?_cons_succ] at hk
      simp [hopens a (List.mem_of_getElem? hk)] at hj

/-- What is closed was opened, so many items before. -/
theorem Rounds.opener (hh : Rounds opens closes h) {k : ℕ} (hk : h[k]? = some b)
    (hx : x ∈ closes b) :
    ∃ i j a, k = i + 1 + j ∧ h[i]? = some a ∧ (opens a)[j]? = some x := by
  induction hh generalizing k with
  | nil => simp at hk
  | plain _ _ hcloses ih =>
    rcases getElem?_append_cases hk with hk | ⟨n, rfl, hn⟩
    · obtain ⟨i, j, a, rfl, hi, hj⟩ := ih hk
      exact ⟨i, j, a, rfl, getElem?_append_of_some hi, hj⟩
    · obtain rfl := List.mem_singleton.mp (List.mem_of_getElem? hn)
      simp [hcloses] at hx
  | @round h c bs _ hplain _ hcloses ih =>
    rcases getElem?_append_cases hk with hk | ⟨n, rfl, hn⟩
    · obtain ⟨i, j, a, rfl, hi, hj⟩ := ih hk
      exact ⟨i, j, a, rfl, getElem?_append_of_some hi, hj⟩
    cases n with
    | zero =>
      obtain rfl := Option.some.inj hn
      simp [hplain] at hx
    | succ n =>
      rw [List.getElem?_cons_succ] at hn
      have hc := congrArg (·[n]?) hcloses
      simp only [List.getElem?_map, hn, Option.map_some] at hc
      obtain ⟨y, hy, heq⟩ := Option.map_eq_some_iff.mp hc.symm
      obtain rfl : x = y := List.mem_singleton.mp (heq ▸ hx)
      exact ⟨h.length, n, c, by omega, getElem?_append_add h _ 0, hy⟩

/-- Where keys are opened once, a key says where it is opened. -/
theorem eq_of_mem_opens (hnodup : (h.flatMap opens).Nodup) {i j : ℕ} (hi : h[i]? = some a)
    (hj : h[j]? = some b) (ha : x ∈ opens a) (hb : x ∈ opens b) : i = j := by
  obtain ⟨hilt, rfl⟩ := List.getElem?_eq_some_iff.mp hi
  obtain ⟨hjlt, rfl⟩ := List.getElem?_eq_some_iff.mp hj
  have hdisjoint := List.pairwise_iff_getElem.mp (List.nodup_flatMap.mp hnodup).2
  rcases Nat.lt_trichotomy i j with hlt | heq | hlt
  · exact absurd hb (hdisjoint i j hilt hjlt hlt ha)
  · exact heq
  · exact absurd ha (hdisjoint j i hjlt hilt hlt hb)

theorem nodup_opens (hnodup : (h.flatMap opens).Nodup) {i : ℕ} (hi : h[i]? = some a) :
    (opens a).Nodup :=
  (List.nodup_flatMap.mp hnodup).1 a (List.mem_of_getElem? hi)

/-! ## Selections -/

/-- The item at a place of the selection is that of the list at the position there. -/
theorem getElem?_selection (hl : L.map (h[·]?) = l.map some) {p : ℕ} :
    l[p]? = some a ↔ ∃ k, L[p]? = some k ∧ h[k]? = some a := by
  have hp := congrArg (·[p]?) hl
  simp only [List.getElem?_map] at hp
  cases hL : L[p]? with
  | none =>
    have hnone : l[p]? = none := by simpa [hL] using hp.symm
    simp [hnone]
  | some k =>
    obtain ⟨b, hb, hk⟩ := Option.map_eq_some_iff.mp (hp.symm.trans (by rw [hL, Option.map_some]))
    simp [hb, ← hk]

theorem pair_infix_iff {i : ℕ} :
    [i, i + 1] <:+: L ↔ ∃ p, L[p]? = some i ∧ L[p + 1]? = some (i + 1) := by
  rw [List.infix_iff_getElem?]
  constructor
  · rintro ⟨p, -, hget⟩
    exact ⟨p, by simpa using hget 0 (by simp), by simpa [Nat.add_comm] using hget 1 (by simp)⟩
  · rintro ⟨p, hfirst, hnext⟩
    have hlt := (List.getElem?_eq_some_iff.mp hnext).1
    refine ⟨p, by simp only [List.length_cons, List.length_nil]; omega, fun j hj => ?_⟩
    match j, hj with
    | 0, _ => simpa using hfirst
    | 1, _ => simpa [Nat.add_comm] using hnext

/-- With one key at a time, a selection of everything in order keeps every round. -/
theorem Rounds.together_range (hh : Rounds opens closes h) (hone : ∀ a ∈ h, (opens a).length ≤ 1)
    {n : ℕ} (hn : h.length ≤ n) : Together opens h (List.range n) := by
  intro i hi hopens
  have hlength : (opens h[i]).length = 1 :=
    Nat.le_antisymm (hone _ (List.getElem_mem hi)) (List.length_pos_of_ne_nil hopens)
  obtain ⟨x, hx⟩ := List.length_eq_one_iff.mp hlength
  obtain ⟨b, hb, -⟩ := hh.closer (j := 0) (x := x) (List.getElem?_eq_getElem hi) (by rw [hx]; rfl)
  have hnext : i + 1 < h.length := (List.getElem?_eq_some_iff.mp hb).1
  exact .inr ⟨hlength, pair_infix_iff.mpr ⟨i, List.getElem?_range (by omega),
    List.getElem?_range (by omega)⟩⟩

/-- What opens nothing has no round. -/
theorem together_append_iff (ha : opens a = []) :
    Together opens (h ++ [a]) L ↔ Together opens h L := by
  constructor
  · intro ht i hi
    have hround := ht i (by rw [List.length_append]; omega)
    rwa [List.getElem_append_left hi] at hround
  · intro ht i hi hopens
    rw [List.length_append, List.length_singleton] at hi
    rcases Nat.lt_or_eq_of_le (Nat.le_of_lt_succ hi) with hlt | rfl
    · rw [List.getElem_append_left hlt] at hopens ⊢
      exact ht i hlt hopens
    · rw [List.getElem_concat_length rfl] at hopens
      exact absurd ha hopens

/-! ## An opening at the end -/

variable [BEq κ] [LawfulBEq κ]

/-- An opening, and at once the closing of all that it opens. -/
theorem Paired.append_pair (hl : Paired opens closes l) (ha : closes a = []) (hb : opens b = [])
    (hclose : closes b = opens a) (hnodup : (opens a).Nodup) :
    Paired opens closes (l ++ [a, b]) where
  closed := by
    intro i c x hi hx
    rcases getElem?_append_cases hi with hi | ⟨j, rfl, hj⟩
    · obtain ⟨j, a', rfl, hj, hx'⟩ := hl.closed i c x hi hx
      exact ⟨j, a', rfl, getElem?_append_of_some hj, hx'⟩
    rcases getElem?_pair_cases hj with ⟨rfl, rfl⟩ | ⟨rfl, rfl⟩
    · exact absurd hx (by simp [ha])
    · exact ⟨l.length, a, rfl, getElem?_append_add l _ 0, hclose ▸ hx⟩
  opened := by
    intro i c x hi hx
    rcases getElem?_append_cases hi with hi | ⟨j, rfl, hj⟩
    · obtain ⟨b', hb', hcount⟩ := hl.opened i c x hi hx
      exact ⟨b', getElem?_append_of_some hb', hcount⟩
    rcases getElem?_pair_cases hj with ⟨rfl, rfl⟩ | ⟨rfl, rfl⟩
    · exact ⟨b, getElem?_append_add l _ 1, by rw [hclose, hnodup.count, if_pos hx]⟩
    · exact absurd hx (by simp [hb])

/-! ## What a selection keeps -/

/-- An opening that is kept is closed by the one item behind it. -/
theorem Paired.together_of_mem (hp : Paired opens closes l) (hh : Rounds opens closes h)
    (hnodup : (h.flatMap opens).Nodup) (hl : L.map (h[·]?) = l.map some) {i : ℕ}
    (hi : h[i]? = some a) (hopens : opens a ≠ []) (hmem : i ∈ L) :
    (opens a).length = 1 ∧ [i, i + 1] <:+: L := by
  obtain ⟨p, hpi⟩ := List.mem_iff_getElem?.mp hmem
  have hpa := (getElem?_selection hl).mpr ⟨i, hpi, hi⟩
  -- whatever is opened here, it is the next position that has its closing
  have hnext {j : ℕ} {x : κ} (hj : (opens a)[j]? = some x) : L[p + 1]? = some (i + 1 + j) := by
    obtain ⟨b, hb, hcount⟩ := hp.opened p a x hpa (List.mem_of_getElem? hj)
    obtain ⟨k, hk, hkb⟩ := (getElem?_selection hl).mp hb
    have hx : x ∈ closes b := List.count_pos_iff.mp (by omega)
    obtain ⟨i', j', a', rfl, hi', hj'⟩ := hh.opener hkb hx
    obtain rfl := eq_of_mem_opens hnodup hi hi' (List.mem_of_getElem? hj) (List.mem_of_getElem? hj')
    obtain rfl := Option.some.inj (hi.symm.trans hi')
    have hjj' := (List.getElem?_inj (List.getElem?_eq_some_iff.mp hj).1 (nodup_opens hnodup hi)).mp
      (hj.trans hj'.symm)
    rw [hk, hjj']
  match hlist : opens a with
  | [] => exact absurd hlist hopens
  | [y] => exact ⟨rfl, pair_infix_iff.mpr ⟨p, hpi, hnext (j := 0) (x := y) (by rw [hlist]; rfl)⟩⟩
  | y :: z :: ys =>
    have hfirst := hnext (j := 0) (x := y) (by rw [hlist]; rfl)
    have hsecond := hnext (j := 1) (x := z) (by rw [hlist]; rfl)
    exact absurd (Option.some.inj (hfirst.symm.trans hsecond)) (by omega)

/-- **A selection of rounds is paired exactly if it leaves each round out, or keeps both of its
items next to each other.** -/
theorem paired_iff_together (hh : Rounds opens closes h) (hnodup : (h.flatMap opens).Nodup)
    (hL : L.Nodup) (hl : L.map (h[·]?) = l.map some) :
    Paired opens closes l ↔ Together opens h L := by
  constructor
  · intro hp i hlt hopens
    have hi : h[i]? = some h[i] := List.getElem?_eq_getElem hlt
    by_cases hmem : i ∈ L
    · exact .inr (hp.together_of_mem hh hnodup hl hi hopens hmem)
    refine .inl fun k hk => ?_
    by_contra hin
    -- a closing that is kept has its opening before it
    obtain ⟨j, rfl⟩ := Nat.exists_eq_add_of_le (show i + 1 ≤ k by
      have hne : k ≠ i := fun heq => hmem (heq ▸ hk)
      omega)
    have hj : j < (opens h[i]).length := by omega
    obtain ⟨b, hb, hx⟩ := hh.closer hi (List.getElem?_eq_getElem hj)
    obtain ⟨p, hpk⟩ := List.mem_iff_getElem?.mp hk
    obtain ⟨q, a, rfl, hq, hxa⟩ := hp.closed p b _ ((getElem?_selection hl).mpr ⟨_, hpk, hb⟩)
      (hx ▸ List.mem_singleton_self _)
    obtain ⟨i', hqi', hi'⟩ := (getElem?_selection hl).mp hq
    obtain rfl := eq_of_mem_opens hnodup hi hi' (List.getElem_mem hj) hxa
    exact hmem (List.mem_of_getElem? hqi')
  · intro ht
    have hround {i j : ℕ} {a : α} {x : κ} (hi : h[i]? = some a) (hj : (opens a)[j]? = some x)
        {k p : ℕ} (hpk : L[p]? = some k) (hik : i ≤ k) (hki : k ≤ i + (opens a).length) :
        opens a = [x] ∧ ∃ q, L[q]? = some i ∧ L[q + 1]? = some (i + 1) := by
      obtain ⟨hlt, rfl⟩ := List.getElem?_eq_some_iff.mp hi
      rcases ht i hlt (List.ne_nil_of_mem (List.mem_of_getElem? hj)) with hout | ⟨hone, hinfix⟩
      · have hk := hout k (List.mem_of_getElem? hpk)
        omega
      · obtain ⟨y, hy⟩ := List.length_eq_one_iff.mp hone
        obtain rfl : x = y := List.mem_singleton.mp (hy ▸ List.mem_of_getElem? hj)
        exact ⟨hy, pair_infix_iff.mp hinfix⟩
    have hplace {k p q : ℕ} (hp : L[p]? = some k) (hq : L[q]? = some k) : p = q :=
      (List.getElem?_inj (List.getElem?_eq_some_iff.mp hp).1 hL).mp (hp.trans hq.symm)
    refine ⟨fun p b x hb hx => ?_, fun p a x ha hx => ?_⟩
    · obtain ⟨k, hpk, hkb⟩ := (getElem?_selection hl).mp hb
      obtain ⟨i, j, a, rfl, hi, hj⟩ := hh.opener hkb hx
      have hjlt := (List.getElem?_eq_some_iff.mp hj).1
      obtain ⟨hone, q, hq, hq'⟩ := hround hi hj hpk (by omega) (by omega)
      obtain rfl : j = 0 := by rw [hone, List.length_singleton] at hjlt; omega
      exact ⟨q, a, hplace hpk hq', (getElem?_selection hl).mpr ⟨i, hq, hi⟩, List.mem_of_getElem? hj⟩
    · obtain ⟨i, hpi, hi⟩ := (getElem?_selection hl).mp ha
      obtain ⟨j, hj⟩ := List.mem_iff_getElem?.mp hx
      obtain ⟨hone, q, hq, hq'⟩ := hround hi hj hpi (Nat.le_refl i) (Nat.le_add_right _ _)
      obtain ⟨b, hb, hclose⟩ := hh.closer (j := 0) (x := x) hi (by rw [hone]; rfl)
      refine ⟨b, (getElem?_selection hl).mpr ⟨i + 1, hplace hpi hq ▸ hq', hb⟩, ?_⟩
      rw [hclose, List.count_singleton_self]

end Pairing
