import Mathlib.Data.List.Nodup
import Mathlib.Data.List.Perm.Basic
import Mathlib.Algebra.Ring.Nat

/-!
# Pairing by key, in the order of occurrence

Two lists are paired: the first element with a key in the one with the first element with this key
in the other, the second with the second, and so on.

* `occurrences`, `ranked`: the elements with a key, and every element with its number among those.
* `partner`, `pairs`, `unpaired`: the pairing.
* `firstFree`, `greedy`: the search that takes the first free element with the key, and marks it.
* `greedy_eq`: the search finds the partners.
* `mem_ranked`, `nodup_ranked`: an element is known by its key and its number.
* `pairs_swap`: the pairs are the same from both sides.
* `unpaired_eq_nil_and_iff`: what it means that nothing is left, and all pairs agree.
-/

namespace Occurrence

universe u v

variable {α : Type u} {κ : Type v} [DecidableEq κ] (key : α → κ)

/-! ## The pairing -/

/-- The elements with a key, in order. -/
def occurrences (k : κ) (l : List α) : List α := l.filter fun a => key a = k

/-- The elements of `l`, each with the number of elements with its key before it; those of `seen`
come before `l`. -/
def ranked (seen : List α) : List α → List (α × ℕ)
  | [] => []
  | a :: l => (a, (occurrences key (key a) seen).length) :: ranked (seen ++ [a]) l

/-- The element of `l` that belongs to an element with this number. -/
def partner (l : List α) (a : α × ℕ) : Option α := (occurrences key (key a.1) l)[a.2]?

/-- The pairs, in the order of the first list. -/
def pairs (l l' : List α) : List (α × α) :=
  (ranked key [] l).filterMap fun a => (partner key l' a).map fun b => (a.1, b)

/-- The elements of the first list without a partner. -/
def unpaired (l l' : List α) : List α :=
  (ranked key [] l).filterMap fun a => if (partner key l' a).isNone then some a.1 else none

/-! ## The search -/

/-- The first element with the key whose mark is not set. -/
def firstFree (k : κ) : List α → List Bool → Option ℕ
  | a :: l, mark :: marks =>
    if mark = false ∧ key a = k then some 0 else (firstFree k l marks).map (· + 1)
  | _, _ => none

/-- For every element of the first list what the search finds, and the marks in the end. -/
def greedy (l' : List α) : List α → List Bool → List (Option α) × List Bool
  | [], marks => ([], marks)
  | a :: l, marks =>
    match firstFree key (key a) l' marks with
    | none => (none :: (greedy l' l marks).1, (greedy l' l marks).2)
    | some i =>
      (l'[i]? :: (greedy l' l (marks.set i true)).1, (greedy l' l (marks.set i true)).2)

/-- The marks when partners have been searched for all of `used`. -/
def marked (used seen l : List α) : List Bool :=
  (ranked key seen l).map fun a => decide (a.2 < (occurrences key (key a.1) used).length)

variable {key}

theorem occurrences_append (k : κ) (l l' : List α) :
    occurrences key k (l ++ l') = occurrences key k l ++ occurrences key k l' :=
  List.filter_append ..

theorem occurrences_cons_self (a : α) (l : List α) :
    occurrences key (key a) (a :: l) = a :: occurrences key (key a) l := by
  rw [occurrences, List.filter_cons, if_pos (decide_eq_true rfl), occurrences]

theorem occurrences_cons_of_ne {a : α} {k : κ} (h : key a ≠ k) (l : List α) :
    occurrences key k (a :: l) = occurrences key k l := by
  rw [occurrences, List.filter_cons, if_neg (by simp [h]), occurrences]

theorem length_occurrences_concat_self (l : List α) (a : α) :
    (occurrences key (key a) (l ++ [a])).length = (occurrences key (key a) l).length + 1 := by
  rw [occurrences_append, occurrences_cons_self, List.length_append]
  rfl

theorem occurrences_concat_of_ne {a : α} {k : κ} (h : key a ≠ k) (l : List α) :
    occurrences key k (l ++ [a]) = occurrences key k l := by
  rw [occurrences_append, occurrences_cons_of_ne h]
  exact List.append_nil _

theorem key_of_mem_occurrences {k : κ} {l : List α} {a : α} (h : a ∈ occurrences key k l) :
    key a = k := by
  rw [occurrences, List.mem_filter] at h
  exact of_decide_eq_true h.2

/-- Another element changes no marks behind which all elements with its key are. -/
theorem marked_concat_of_lt {used seen l : List α} {w : α}
    (h : (occurrences key (key w) used).length < (occurrences key (key w) seen).length) :
    marked key (used ++ [w]) seen l = marked key used seen l := by
  induction l generalizing seen with
  | nil => rfl
  | cons a l ih =>
    have hnext : (occurrences key (key w) used).length <
        (occurrences key (key w) (seen ++ [a])).length := by
      rw [occurrences_append, List.length_append]
      exact Nat.lt_of_lt_of_le h (Nat.le_add_right _ _)
    have hih := ih hnext
    rw [marked, marked] at hih ⊢
    rw [ranked, List.map_cons, List.map_cons, hih]
    congr 1
    by_cases hkey : key w = key a
    · rw [← hkey, length_occurrences_concat_self]
      exact decide_eq_decide.mpr (by omega)
    · rw [occurrences_concat_of_ne hkey]

theorem marked_cons (used seen : List α) (a : α) (l : List α) :
    marked key used seen (a :: l) =
      decide ((occurrences key (key a) seen).length < (occurrences key (key a) used).length) ::
        marked key used (seen ++ [a]) l := rfl

/-- The search goes on behind an element that it passes. -/
theorem firstFree_cons_of_not {k : κ} {a : α} {mark : Bool} (h : ¬ (mark = false ∧ key a = k))
    (l : List α) (marks : List Bool) :
    firstFree key k (a :: l) (mark :: marks) = (firstFree key k l marks).map (· + 1) := if_neg h

variable (key) in
/-- What a search in `l` for a partner of `w` comes to: `rest` elements with the key are passed. -/
def Found (used seen l : List α) (w : α) (rest : ℕ) : Option ℕ → Prop
  | none => (occurrences key (key w) l)[rest]? = none ∧
      marked key (used ++ [w]) seen l = marked key used seen l
  | some i => l[i]? = (occurrences key (key w) l)[rest]? ∧ i < l.length ∧
      marked key (used ++ [w]) seen l = (marked key used seen l).set i true

/-- An element that is passed changes nothing for the search. -/
theorem Found.cons {used seen l : List α} {w a : α} {rest rest' : ℕ} {found : Option ℕ}
    (h : Found key used (seen ++ [a]) l w rest found)
    (hrest : (occurrences key (key w) (a :: l))[rest']? = (occurrences key (key w) l)[rest]?)
    (hmark : (occurrences key (key a) seen).length <
        (occurrences key (key a) (used ++ [w])).length ↔
      (occurrences key (key a) seen).length < (occurrences key (key a) used).length) :
    Found key used seen (a :: l) w rest' (found.map (· + 1)) := by
  have hhead : decide ((occurrences key (key a) seen).length <
        (occurrences key (key a) (used ++ [w])).length) =
      decide ((occurrences key (key a) seen).length < (occurrences key (key a) used).length) :=
    decide_eq_decide.mpr hmark
  cases found with
  | none => exact ⟨hrest.trans h.1, by rw [marked_cons, marked_cons, h.2, hhead]⟩
  | some i =>
    refine ⟨h.1.trans hrest.symm, Nat.succ_lt_succ h.2.1, ?_⟩
    rw [marked_cons, marked_cons, h.2.2, hhead, List.set_cons_succ]

/-- **The search finds the partner**, and with its mark set the marks are those of one more search.
`seen` is what it has passed. -/
theorem found_firstFree (used seen l : List α) (w : α)
    (h : (occurrences key (key w) seen).length ≤ (occurrences key (key w) used).length) :
    Found key used seen l w
      ((occurrences key (key w) used).length - (occurrences key (key w) seen).length)
      (firstFree key (key w) l (marked key used seen l)) := by
  induction l generalizing seen with
  | nil => exact ⟨rfl, rfl⟩
  | cons a l ih =>
    rw [marked_cons]
    by_cases hkey : key a = key w
    · rcases Nat.lt_or_ge (occurrences key (key w) seen).length
        (occurrences key (key w) used).length with hlt | hge
      · -- The element has its partner already.
        have hnext : (occurrences key (key w) (seen ++ [a])).length =
            (occurrences key (key w) seen).length + 1 := by
          rw [← hkey, length_occurrences_concat_self]
        have hpass : firstFree key (key w) (a :: l)
            (decide ((occurrences key (key a) seen).length <
              (occurrences key (key a) used).length) :: marked key used (seen ++ [a]) l) =
            (firstFree key (key w) l (marked key used (seen ++ [a]) l)).map (· + 1) := by
          refine firstFree_cons_of_not (fun hfree => ?_) l _
          rw [hkey] at hfree
          exact absurd hlt (of_decide_eq_false hfree.1)
        rw [hpass]
        have hcount : (occurrences key (key w) (seen ++ [a])).length ≤
            (occurrences key (key w) used).length := by
          rw [hnext]
          exact hlt
        refine (ih _ hcount).cons ?_ ?_
        · rw [← hkey, occurrences_cons_self, hkey, hnext]
          obtain ⟨d, hd⟩ := Nat.exists_eq_add_of_lt hlt
          rw [hd, show ∀ n : ℕ, n + d + 1 - n = d + 1 by omega,
            show ∀ n : ℕ, n + d + 1 - (n + 1) = d by omega, List.getElem?_cons_succ]
        · rw [hkey, length_occurrences_concat_self]
          exact ⟨fun _ => hlt, fun h => Nat.lt_succ_of_lt h⟩
      · -- It is the first one that is free.
        have hsame : (occurrences key (key w) seen).length =
            (occurrences key (key w) used).length := Nat.le_antisymm h hge
        have hhere : firstFree key (key w) (a :: l)
            (decide ((occurrences key (key a) seen).length <
              (occurrences key (key a) used).length) :: marked key used (seen ++ [a]) l) =
            some 0 := by
          refine if_pos ⟨?_, hkey⟩
          rw [hkey]
          exact decide_eq_false (Nat.not_lt.mpr hge)
        rw [hhere, hsame, Nat.sub_self]
        refine ⟨?_, Nat.succ_pos _, ?_⟩
        · rw [← hkey, occurrences_cons_self]
          rfl
        · rw [marked_cons, marked_cons, List.set_cons_zero, marked_concat_of_lt, hkey,
            length_occurrences_concat_self]
          · rw [decide_eq_true (Nat.lt_succ_of_le h)]
          · rw [← hkey, length_occurrences_concat_self, hkey]
            exact Nat.lt_succ_of_le hge
    · have hpass : firstFree key (key w) (a :: l)
          (decide ((occurrences key (key a) seen).length <
            (occurrences key (key a) used).length) :: marked key used (seen ++ [a]) l) =
          (firstFree key (key w) l (marked key used (seen ++ [a]) l)).map (· + 1) :=
        firstFree_cons_of_not (fun hfree => hkey hfree.2) l _
      have hseen : occurrences key (key w) (seen ++ [a]) = occurrences key (key w) seen :=
        occurrences_concat_of_ne hkey seen
      have hcount : (occurrences key (key w) (seen ++ [a])).length ≤
          (occurrences key (key w) used).length := by
        rw [hseen]
        exact h
      rw [hpass]
      refine (ih _ hcount).cons ?_ ?_
      · rw [occurrences_cons_of_ne hkey, hseen]
      · rw [occurrences_concat_of_ne (Ne.symm hkey)]

/-- **The greedy search pairs in the order of occurrence.** -/
theorem greedy_marked (l' l used : List α) :
    greedy key l' l (marked key used [] l') =
      ((ranked key used l).map (partner key l'), marked key (used ++ l) [] l') := by
  induction l generalizing used with
  | nil => rw [List.append_nil]; rfl
  | cons w l ih =>
    have hfound : Found key used [] l' w _ _ := found_firstFree used [] l' w (Nat.zero_le _)
    have hpartner : partner key l' (w, (occurrences key (key w) used).length) =
        (occurrences key (key w) l')[(occurrences key (key w) used).length -
          (occurrences key (key w) []).length]? := rfl
    rw [greedy, ranked, List.map_cons, hpartner]
    cases hfirst : firstFree key (key w) l' (marked key used [] l') with
    | none =>
      rw [hfirst] at hfound
      rw [hfound.1]
      dsimp only
      rw [← hfound.2, ih, List.append_assoc, List.singleton_append]
    | some i =>
      rw [hfirst] at hfound
      rw [← hfound.1]
      dsimp only
      rw [← hfound.2.2, ih, List.append_assoc, List.singleton_append]

theorem length_marked (used seen l : List α) : (marked key used seen l).length = l.length := by
  induction l generalizing seen with
  | nil => rfl
  | cons a l ih => rw [marked_cons, List.length_cons, ih, List.length_cons]

/-- Without a search no mark is set. -/
theorem marked_nil (seen l : List α) : marked key [] seen l = l.map fun _ => false := by
  induction l generalizing seen with
  | nil => rfl
  | cons a l ih => rw [marked_cons, ih]; rfl

theorem greedy_eq (l l' : List α) :
    greedy key l' l (l'.map fun _ => false) =
      ((ranked key [] l).map (partner key l'), marked key l [] l') := by
  have hmarks : marked key [] [] l' = l'.map fun _ => false := marked_nil [] l'
  rw [← hmarks, greedy_marked, List.nil_append]

theorem firstFree_lt {k : κ} {l : List α} {marks : List Bool} {i : ℕ}
    (h : firstFree key k l marks = some i) : i < l.length := by
  induction l generalizing marks i with
  | nil => cases h
  | cons a l ih =>
    cases marks with
    | nil => cases h
    | cons mark marks =>
      rw [firstFree] at h
      split at h
      · obtain rfl := Option.some.inj h
        exact Nat.succ_pos _
      · obtain ⟨j, hj, rfl⟩ := Option.map_eq_some_iff.mp h
        exact Nat.succ_lt_succ (ih hj)

theorem map_fst_ranked (seen l : List α) : (ranked key seen l).map Prod.fst = l := by
  induction l generalizing seen with
  | nil => rfl
  | cons a l ih => rw [ranked, List.map_cons, ih]

/-! ## The pairing from both sides -/

/-- **An element and its number** are where its key has this occurrence. -/
theorem mem_ranked {seen l : List α} {a : α × ℕ} :
    a ∈ ranked key seen l ↔ (occurrences key (key a.1) seen).length ≤ a.2 ∧
      (occurrences key (key a.1) l)[a.2 - (occurrences key (key a.1) seen).length]? = some a.1 := by
  induction l generalizing seen with
  | nil =>
    rw [ranked]
    exact iff_of_false List.not_mem_nil fun h => by cases h.2
  | cons b l ih =>
    rw [ranked, List.mem_cons, ih]
    by_cases hkey : key b = key a.1
    · rw [← hkey, length_occurrences_concat_self, occurrences_cons_self]
      constructor
      · rintro (rfl | ⟨hle, hget⟩)
        · exact ⟨Nat.le_refl _, by rw [Nat.sub_self]; rfl⟩
        · obtain ⟨d, hd⟩ := Nat.exists_eq_add_of_le hle
          rw [hd, show ∀ n : ℕ, n + 1 + d - (n + 1) = d by omega] at hget
          refine ⟨Nat.le_of_succ_le hle, ?_⟩
          rw [hd, show ∀ n : ℕ, n + 1 + d - n = d + 1 by omega, List.getElem?_cons_succ]
          exact hget
      · rintro ⟨hle, hget⟩
        obtain ⟨d, hd⟩ := Nat.exists_eq_add_of_le hle
        rw [hd, Nat.add_sub_cancel_left] at hget
        cases d with
        | zero =>
          obtain rfl : b = a.1 := Option.some.inj hget
          exact Or.inl (Prod.ext rfl hd)
        | succ d =>
          rw [List.getElem?_cons_succ] at hget
          refine Or.inr ⟨by omega, ?_⟩
          rw [hd, show ∀ n : ℕ, n + (d + 1) - (n + 1) = d by omega]
          exact hget
    · have hne : a ≠ (b, (occurrences key (key b) seen).length) := fun h => hkey (by rw [h])
      rw [occurrences_concat_of_ne hkey, occurrences_cons_of_ne hkey, or_iff_right hne]

/-- The occurrences of all keys, from the start. -/
theorem mem_ranked_nil {l : List α} {a : α × ℕ} :
    a ∈ ranked key [] l ↔ partner key l a = some a.1 := by
  rw [mem_ranked]
  exact and_iff_right (Nat.zero_le _)

theorem key_of_partner {l : List α} {a : α × ℕ} {b : α} (h : partner key l a = some b) :
    key b = key a.1 := by
  have hmem : b ∈ occurrences key (key a.1) l := List.mem_of_getElem? h
  exact key_of_mem_occurrences hmem

/-- **An element is known by its key and its number.** -/
theorem nodup_ranked (l : List α) :
    ((ranked key [] l).map fun a => (key a.1, a.2)).Nodup := by
  have hall : ∀ (seen l : List α), ((ranked key seen l).map fun a => (key a.1, a.2)).Nodup := by
    intro seen l
    induction l generalizing seen with
    | nil => exact List.nodup_nil
    | cons b l ih =>
      rw [ranked, List.map_cons, List.nodup_cons]
      refine ⟨fun hmem => ?_, ih _⟩
      obtain ⟨a, ha, hab⟩ := List.mem_map.mp hmem
      obtain ⟨hkey, hnumber⟩ := Prod.mk.inj hab
      have hle := (mem_ranked.mp ha).1
      rw [hkey, length_occurrences_concat_self, hnumber] at hle
      exact Nat.not_succ_le_self _ hle
  exact hall [] l

variable (key) in
/-- The pairs with what they are known by. -/
def tagged (l l' : List α) : List ((κ × ℕ) × α × α) :=
  (ranked key [] l).filterMap fun a =>
    (partner key l' a).map fun b => ((key a.1, a.2), a.1, b)

theorem pairs_eq_map (l l' : List α) : pairs key l l' = (tagged key l l').map Prod.snd := by
  rw [tagged, List.map_filterMap, pairs]
  refine List.filterMap_congr fun a _ => ?_
  rw [Option.map_map]
  rfl

theorem nodup_tagged (l l' : List α) : (tagged key l l').Nodup := by
  refine List.Nodup.filterMap (fun a a' b hb hb' => ?_) (List.Nodup.of_map _ (nodup_ranked l))
  obtain ⟨x, _, rfl⟩ := Option.map_eq_some_iff.mp hb
  obtain ⟨x', _, hsame⟩ := Option.map_eq_some_iff.mp hb'
  simp only [Prod.mk.injEq] at hsame
  exact Prod.ext hsame.2.1.symm hsame.1.2.symm

theorem mem_tagged {l l' : List α} {k : κ} {n : ℕ} {x y : α} :
    ((k, n), x, y) ∈ tagged key l l' ↔ k = key x ∧ key y = key x ∧
      (occurrences key k l)[n]? = some x ∧ (occurrences key k l')[n]? = some y := by
  rw [tagged, List.mem_filterMap]
  constructor
  · rintro ⟨a, ha, hb⟩
    obtain ⟨b, hpartner, hsame⟩ := Option.map_eq_some_iff.mp hb
    simp only [Prod.mk.injEq] at hsame
    obtain ⟨⟨rfl, rfl⟩, rfl, rfl⟩ := hsame
    exact ⟨rfl, key_of_partner hpartner, mem_ranked_nil.mp ha, hpartner⟩
  · rintro ⟨rfl, _, hx, hy⟩
    exact ⟨(x, n), mem_ranked_nil.mpr hx, Option.map_eq_some_iff.mpr ⟨y, hy, rfl⟩⟩

/-- **The pairs are the same from both sides**, in another order. -/
theorem pairs_swap (l l' : List α) :
    (pairs key l' l).Perm ((pairs key l l').map Prod.swap) := by
  have hinj : Function.Injective fun t : (κ × ℕ) × α × α => (t.1, t.2.swap) := by
    rintro ⟨t, x, y⟩ ⟨t', x', y'⟩ h
    simp only [Prod.swap_prod_mk, Prod.mk.injEq] at h
    obtain ⟨rfl, rfl, rfl⟩ := h
    rfl
  have htagged : (tagged key l' l).Perm
      ((tagged key l l').map fun t => (t.1, t.2.swap)) := by
    refine (List.perm_ext_iff_of_nodup (nodup_tagged l' l) ((nodup_tagged l l').map hinj)).mpr ?_
    rintro ⟨⟨k, n⟩, x, y⟩
    have hswap : ((k, n), x, y) = (fun t : (κ × ℕ) × α × α => (t.1, t.2.swap)) ((k, n), y, x) :=
      rfl
    rw [hswap, List.mem_map_of_injective hinj, mem_tagged, mem_tagged]
    dsimp only [Prod.swap]
    constructor
    · rintro ⟨hk, hkey, hx, hy⟩
      exact ⟨hk.trans hkey.symm, hkey.symm, hy, hx⟩
    · rintro ⟨hk, hkey, hy, hx⟩
      exact ⟨hk.trans hkey.symm, hkey.symm, hx, hy⟩
  have hpairs := htagged.map Prod.snd
  rw [← pairs_eq_map, List.map_map] at hpairs
  rw [pairs_eq_map l l', List.map_map]
  exact hpairs

/-! ## When nothing is left -/

/-- Every element of the first list has its partner in the second. -/
theorem unpaired_eq_nil_iff {l l' : List α} :
    unpaired key l l' = [] ↔
      ∀ k, (occurrences key k l).length ≤ (occurrences key k l').length := by
  rw [unpaired, List.filterMap_eq_nil_iff]
  constructor
  · intro h k
    by_contra hlt
    have hlt' : (occurrences key k l').length < (occurrences key k l).length := Nat.not_le.mp hlt
    -- The occurrence with the number of those in the second list has no partner.
    have hget := List.getElem?_eq_getElem hlt'
    have hkey := key_of_mem_occurrences (List.mem_of_getElem? hget)
    have hnone := h (_, (occurrences key k l').length) (mem_ranked_nil.mpr (by
      rw [partner, hkey]
      exact hget))
    rw [partner, hkey, List.getElem?_eq_none (Nat.le_refl _)] at hnone
    cases hnone
  · intro h a ha
    have hget : (occurrences key (key a.1) l)[a.2]? = some a.1 := mem_ranked_nil.mp ha
    obtain ⟨hlt, _⟩ := List.getElem?_eq_some_iff.mp hget
    rw [partner, List.getElem?_eq_getElem (Nat.lt_of_lt_of_le hlt (h _))]
    rfl

/-- **Nothing is left and all pairs agree** exactly if for each key the two lists have the same
sequence of values. -/
theorem unpaired_eq_nil_and_iff {β : Type*} (value : α → β) (l l' : List α) :
    (unpaired key l l' = [] ∧ unpaired key l' l = [] ∧
        ∀ p ∈ pairs key l l', value p.1 = value p.2) ↔
      ∀ k, (occurrences key k l).map value = (occurrences key k l').map value := by
  rw [unpaired_eq_nil_iff, unpaired_eq_nil_iff]
  constructor
  · rintro ⟨hle, hge, hpairs⟩ k
    refine List.ext_getElem? fun n => ?_
    rw [List.getElem?_map, List.getElem?_map]
    rcases Nat.lt_or_ge n (occurrences key k l).length with hlt | hn
    · have hlt' := Nat.lt_of_lt_of_le hlt (hle k)
      rw [List.getElem?_eq_getElem hlt, List.getElem?_eq_getElem hlt', Option.map_some,
        Option.map_some]
      refine congrArg some (hpairs (_, _) ?_)
      have hx := List.getElem?_eq_getElem hlt
      have hy := List.getElem?_eq_getElem hlt'
      have hkey := key_of_mem_occurrences (List.mem_of_getElem? hx)
      have hkey' := key_of_mem_occurrences (List.mem_of_getElem? hy)
      rw [pairs_eq_map]
      exact List.mem_map.mpr ⟨((k, n), _, _), mem_tagged.mpr
        ⟨hkey.symm, hkey'.trans hkey.symm, hx, hy⟩, rfl⟩
    · rw [List.getElem?_eq_none hn, List.getElem?_eq_none (Nat.le_trans (hge k) hn)]
  · intro h
    have hlength : ∀ k, (occurrences key k l).length = (occurrences key k l').length := by
      intro k
      have hk := congrArg List.length (h k)
      rwa [List.length_map, List.length_map] at hk
    refine ⟨fun k => Nat.le_of_eq (hlength k), fun k => Nat.le_of_eq (hlength k).symm, ?_⟩
    rintro ⟨x, y⟩ hp
    rw [pairs_eq_map] at hp
    obtain ⟨⟨⟨k, n⟩, x', y'⟩, htagged, hsame⟩ := List.mem_map.mp hp
    obtain ⟨rfl, rfl⟩ := Prod.mk.inj hsame
    obtain ⟨-, -, hx, hy⟩ := mem_tagged.mp htagged
    have hn : ((occurrences key k l).map value)[n]? = ((occurrences key k l').map value)[n]? := by
      rw [h k]
    rw [List.getElem?_map, List.getElem?_map, hx, hy] at hn
    exact Option.some.inj hn

end Occurrence
