import TigerClaw.Library.Greedy
import TigerClaw.Plug.Manifest
import Mathlib.Algebra.Order.BigOperators.Group.Finset
import Mathlib.Algebra.Order.BigOperators.Group.List
import Mathlib.Algebra.Ring.Nat
import Mathlib.Data.Fintype.Card
import Mathlib.Logic.Function.Basic

/-!
# The start order of plugs

`src/dep_graph.zig`.  The arrays `in_deg` and `remaining` are functions of the index of a manifest.

The sort counts, for every plug, the `requires` edges that it does not satisfy itself, and
decrements the count once for every edge and every *provider*.  Where a capability has more than
one provider the count runs out early.

* `Supplied`, `StartOrder`: what the order is for.
* `Covered`: what the counter tests.  `covered_of_supplied`: the counter never holds back a plug
  that could start.
* `Progress`: what the sort maintains.  `topoSort_spec`: what it leaves behind, from `Progress` by
  induction on the number of plugs that are left.
* `topoSort_correct_iff`: the sort is right exactly when it fails for another reason, or when at
  every stage of the intended order no plug whose counter ran out early is in front.
-/

namespace TigerClaw
namespace Plug

/-- The errors of the sort. -/
inductive SortError where
  | cycleDetected
  | missingCapability
  | conflictingPlugs
  deriving DecidableEq

/-- The position of a manifest in the list. -/
abbrev Index (manifests : List Manifest) : Type := Fin manifests.length

variable (manifests : List Manifest)

/-! ## The sort -/

/-- The array `provided`. -/
def provided (cap : Capability) : Bool := manifests.any fun m => m.provides.contains cap

/-- Some `requires` edge points at a capability that nobody provides. -/
def missingCapability : Bool :=
  manifests.any fun m => m.deps.any fun d => d.kind == .requires && !provided manifests d.capability

/-- Some manifest declares a conflict with a capability that another manifest provides. -/
def conflictingPlugs : Bool :=
  (List.finRange manifests.length).any fun i =>
    (manifests.get i).deps.any fun d => d.kind == .conflicts &&
      (List.finRange manifests.length).any fun j =>
        i != j && (manifests.get j).provides.contains d.capability

/-- The arrays of the sort, and the part of `order` that is filled. -/
structure SortState where
  inDeg : Index manifests → ℕ
  remaining : Index manifests → Bool
  order : List (Index manifests)

def SortState.start : SortState manifests where
  inDeg := fun i => (manifests.get i).deps.countP (manifests.get i).blocks
  remaining := fun _ => true
  order := []

variable {manifests}

namespace SortState

/-- One turn of the scan for the next plug. -/
def consider (st : SortState manifests) (best : Option (Index manifests)) (i : Index manifests) :
    Option (Index manifests) :=
  if !st.remaining i then best
  else if st.inDeg i != 0 then best
  else match best with
    | some b => if (manifests.get i).startsBefore (manifests.get b) then some i else best
    | none => some i

/-- The plug that starts next. -/
def next (st : SortState manifests) : Option (Index manifests) :=
  (List.finRange manifests.length).foldl st.consider none

/-- The dependency loop for one capability of the chosen plug, over the edges of another. -/
def lowerFor (other : Manifest) (k : ℕ) (cap : Capability) : ℕ :=
  other.deps.foldl (fun k d => if d.capability = cap ∧ other.blocks d then k - 1 else k) k

/-- Place a plug and decrement the counters of the ones that are left. -/
def place (st : SortState manifests) (chosen : Index manifests) : SortState manifests where
  inDeg := fun j =>
    if Function.update st.remaining chosen false j then
      (manifests.get chosen).provides.foldl (lowerFor (manifests.get j)) (st.inDeg j)
    else st.inDeg j
  remaining := Function.update st.remaining chosen false
  order := st.order ++ [chosen]

/-- `while (placed < n)`; the fuel is the number of plugs that are left. -/
def placeAll : ℕ → SortState manifests → Except SortError (List (Index manifests))
  | 0, st => .ok st.order
  | k + 1, st =>
    match st.next with
    | none => .error .cycleDetected
    | some chosen => placeAll k (st.place chosen)

end SortState

variable (manifests)

def topoSort : Except SortError (List (Index manifests)) :=
  if missingCapability manifests then .error .missingCapability
  else if conflictingPlugs manifests then .error .conflictingPlugs
  else if manifests.length = 0 then .ok []
  else SortState.placeAll manifests.length (SortState.start manifests)

variable {manifests}

/-! ## What the order is for -/

/-- Every requirement that a plug does not provide itself is provided by one of `before`. -/
def Supplied (before : List (Index manifests)) (i : Index manifests) : Prop :=
  ∀ cap, ⟨cap, .requires⟩ ∈ (manifests.get i).deps → cap ∉ (manifests.get i).provides →
    ∃ k ∈ before, cap ∈ (manifests.get k).provides

/-- All plugs, once each, and each with its requirements provided by earlier ones. -/
def StartOrder (order : List (Index manifests)) : Prop :=
  order.Perm (List.finRange manifests.length) ∧ Greedy.Ordered Supplied order

variable (manifests) in
/-- What the sort promises: an order it returns is a start order, and it reports a cycle only if
there is none. -/
def SortsCorrectly : Prop :=
  (∀ order, topoSort manifests = .ok order → StartOrder order) ∧
    (topoSort manifests = .error .cycleDetected →
      ¬ ∃ order : List (Index manifests), StartOrder order)

/-! ## What the counter tests -/

/-- How often placing `m` decrements the counter of `other`. -/
def credit (m other : Manifest) : ℕ := (m.provides.map other.demands.count).sum

/-- The counter has run out. -/
def Covered (placed : List (Index manifests)) (j : Index manifests) : Prop :=
  (manifests.get j).demands.length ≤
    (placed.map fun i => credit (manifests.get i) (manifests.get j)).sum

/-- The tie-break: by the test of the scan, and then the one that the scan reaches first. -/
def Precedes (i j : Index manifests) : Prop :=
  (manifests.get i).startsBefore (manifests.get j) = true ∨
    ¬ (manifests.get j).startsBefore (manifests.get i) = true ∧ i < j

theorem precedes_asymm (i j : Index manifests) (h : Precedes i j) : ¬ Precedes j i := by
  rintro (h' | ⟨h', hlt'⟩)
  · rcases h with h | ⟨h, -⟩
    · exact Manifest.startsBefore_asymm h h'
    · exact h h'
  · rcases h with h | ⟨-, hlt⟩
    · exact h' h
    · exact lt_asymm hlt hlt'

/-- Counting one more demand. -/
theorem sum_count_cons (d : Capability) (ds caps : List Capability) :
    (caps.map (d :: ds).count).sum = (caps.map ds.count).sum + caps.count d := by
  induction caps with
  | nil => rfl
  | cons c caps ih =>
    rw [List.map_cons, List.map_cons, List.sum_cons, List.sum_cons, ih, List.count_cons,
      List.count_cons]
    have hcomm : (d == c) = (c == d) := by rw [Bool.eq_iff_iff, beq_iff_eq, beq_iff_eq, eq_comm]
    rw [hcomm]
    omega

/-- Whoever has everything demanded among `caps` counts at least once for every demand. -/
theorem length_le_sum_count {ds caps : List Capability} (h : ∀ d ∈ ds, d ∈ caps) :
    ds.length ≤ (caps.map ds.count).sum := by
  induction ds with
  | nil => exact Nat.zero_le _
  | cons d ds ih =>
    have hds := ih fun c hc => h c (List.mem_cons_of_mem d hc)
    have hd := List.count_pos_iff.mpr (h d List.mem_cons_self)
    rw [sum_count_cons, List.length_cons]
    omega

/-- The credit of several plugs is that of all they provide. -/
theorem sum_credit (placed : List (Index manifests)) (other : Manifest) :
    (placed.map fun i => credit (manifests.get i) other).sum =
      ((placed.flatMap fun i => (manifests.get i).provides).map other.demands.count).sum := by
  induction placed with
  | nil => rfl
  | cons i placed ih =>
    rw [List.map_cons, List.sum_cons, ih, List.flatMap_cons, List.map_append, List.sum_append]
    rfl

/-- **A plug that could start is never held back by its counter.** -/
theorem covered_of_supplied (placed : List (Index manifests)) (j : Index manifests)
    (h : Supplied placed j) : Covered placed j := by
  rw [Covered, sum_credit]
  refine length_le_sum_count fun cap hcap => ?_
  obtain ⟨hd, hself⟩ := Manifest.mem_demands.mp hcap
  obtain ⟨k, hk, hprov⟩ := h cap hd hself
  exact List.mem_flatMap.mpr ⟨k, hk, hprov⟩

/-! ## The scan -/

namespace SortState

/-- The plugs that the scan looks at. -/
def Ready (st : SortState manifests) (i : Index manifests) : Prop :=
  st.remaining i = true ∧ st.inDeg i = 0

/-- What the scan knows after the plugs of `l`. -/
def Scanned (st : SortState manifests) (l : List (Index manifests)) :
    Option (Index manifests) → Prop
  | none => ∀ i ∈ l, ¬ st.Ready i
  | some b => st.Ready b ∧ b ∈ l ∧ ∀ i ∈ l, st.Ready i → i ≠ b → Precedes b i

theorem consider_of_ready {st : SortState manifests} {best : Option (Index manifests)}
    {i : Index manifests} (h : st.Ready i) :
    st.consider best i = match best with
      | some b => if (manifests.get i).startsBefore (manifests.get b) then some i else best
      | none => some i := by
  unfold consider
  rw [h.1, h.2]
  rfl

theorem consider_of_not_ready {st : SortState manifests} {best : Option (Index manifests)}
    {i : Index manifests} (h : ¬ st.Ready i) : st.consider best i = best := by
  unfold consider
  split
  · rfl
  · split
    · rfl
    · rename_i hrem hdeg
      exact absurd ⟨by simpa using hrem, by simpa using hdeg⟩ h

/-- One turn of the scan, for a plug behind those already seen. -/
theorem Scanned.consider {st : SortState manifests} {l : List (Index manifests)}
    {best : Option (Index manifests)} (h : st.Scanned l best) {i : Index manifests}
    (hi : ∀ k ∈ l, k < i) : st.Scanned (l ++ [i]) (st.consider best i) := by
  by_cases hready : st.Ready i
  · rw [consider_of_ready hready]
    cases best with
    | none =>
      refine ⟨hready, List.mem_append_right _ List.mem_cons_self, fun k hk hkr hne => ?_⟩
      rcases List.mem_append.mp hk with hk | hk
      · exact absurd hkr (h k hk)
      · exact absurd (List.mem_singleton.mp hk) hne
    | some b =>
      obtain ⟨hbr, hbl, hbest⟩ := h
      simp only
      by_cases hlt : (manifests.get i).startsBefore (manifests.get b) = true
      · rw [if_pos hlt]
        refine ⟨hready, List.mem_append_right _ List.mem_cons_self, fun k hk hkr hne => .inl ?_⟩
        have hkl := (List.mem_append.mp hk).resolve_right fun h => hne (List.mem_singleton.mp h)
        by_cases hkb : k = b
        · rw [hkb]
          exact hlt
        · -- `k` does not start before `b`, so the gap between `i` and `b` is on its other side
          refine (Manifest.startsBefore_cotrans hlt (manifests.get k)).resolve_right ?_
          rcases hbest k hkl hkr hkb with h | ⟨h, -⟩
          · exact Manifest.startsBefore_asymm h
          · exact h
      · rw [if_neg hlt]
        refine ⟨hbr, List.mem_append_left _ hbl, fun k hk hkr hne => ?_⟩
        rcases List.mem_append.mp hk with hk | hk
        · exact hbest k hk hkr hne
        · obtain rfl := List.mem_singleton.mp hk
          exact .inr ⟨hlt, hi b hbl⟩
  · rw [consider_of_not_ready hready]
    have hnot {k : Index manifests} (hk : k ∈ l ++ [i]) (hkr : st.Ready k) : k ∈ l :=
      (List.mem_append.mp hk).resolve_right fun h => hready (List.mem_singleton.mp h ▸ hkr)
    cases best with
    | none => exact fun k hk hkr => h k (hnot hk hkr) hkr
    | some b =>
      obtain ⟨hbr, hbl, hbest⟩ := h
      exact ⟨hbr, List.mem_append_left _ hbl, fun k hk hkr => hbest k (hnot hk hkr) hkr⟩

/-- The whole scan. -/
theorem scanned_next (st : SortState manifests) :
    st.Scanned (List.finRange manifests.length) st.next := by
  have hfold (l : List (Index manifests)) :
      l.Pairwise (· < ·) → st.Scanned l (l.foldl st.consider none) := by
    induction l using List.reverseRecOn with
    | nil => exact fun _ i hi => absurd hi List.not_mem_nil
    | append_singleton l i ih =>
      intro hsorted
      obtain ⟨hl, -, hi⟩ := List.pairwise_append.mp hsorted
      rw [List.foldl_append]
      exact (ih hl).consider fun k hk => hi k hk i List.mem_cons_self
  exact hfold _ (List.pairwise_lt_finRange _)

end SortState

/-! ## What the sort maintains -/

namespace SortState

theorem lowerFor_eq (other : Manifest) (k : ℕ) (cap : Capability) :
    lowerFor other k cap = k - other.demands.count cap := by
  have hfold (deps : List Dep) : ∀ k,
      deps.foldl (fun k d => if d.capability = cap ∧ other.blocks d then k - 1 else k) k =
        k - ((deps.filter other.blocks).map Dep.capability).count cap := by
    induction deps with
    | nil => exact fun k => rfl
    | cons d deps ih =>
      intro k
      rw [List.foldl_cons, ih, List.filter_cons]
      by_cases hb : other.blocks d = true
      · by_cases hc : d.capability = cap
        · rw [if_pos ⟨hc, hb⟩, if_pos hb, List.map_cons, List.count_cons,
          if_pos (beq_iff_eq.mpr hc)]
          omega
        · rw [if_neg fun h => hc h.1, if_pos hb, List.map_cons, List.count_cons,
            if_neg (mt beq_iff_eq.mp hc)]
          rfl
      · rw [if_neg fun h => hb h.2, if_neg hb]
  exact hfold other.deps k

/-- The loop over what the chosen plug provides. -/
theorem foldl_lowerFor (other : Manifest) (caps : List Capability) (k : ℕ) :
    caps.foldl (lowerFor other) k = k - (caps.map other.demands.count).sum := by
  induction caps generalizing k with
  | nil => rfl
  | cons cap caps ih =>
    rw [List.foldl_cons, ih, lowerFor_eq, List.map_cons, List.sum_cons]
    omega

/-- What the sort maintains: the plugs that remain are the ones not placed, their counters are
what the credit of the placed ones leaves, and the order so far is greedy. -/
structure Progress (st : SortState manifests) : Prop where
  remaining : ∀ i, st.remaining i = true ↔ i ∉ st.order
  inDeg : ∀ i ∉ st.order, st.inDeg i = (manifests.get i).demands.length -
    (st.order.map fun k => credit (manifests.get k) (manifests.get i)).sum
  greedy : Greedy.Prefix Covered Precedes st.order

theorem progress_start : (SortState.start manifests).Progress where
  remaining := fun i => by simp [SortState.start]
  inDeg := fun i _ => by
    simp only [SortState.start, Manifest.demands, List.length_map, List.countP_eq_length_filter,
      List.map_nil, List.sum_nil, Nat.sub_zero]
  greedy := Greedy.Prefix.nil

namespace Progress

variable {st : SortState manifests}

theorem ready_iff (h : st.Progress) {i : Index manifests} :
    st.Ready i ↔ i ∉ st.order ∧ Covered st.order i := by
  rw [Ready, h.remaining]
  refine and_congr_right fun hi => ?_
  rw [h.inDeg i hi, Covered]
  omega

theorem best_of_next (h : st.Progress) {b : Index manifests} (hb : st.next = some b) :
    Greedy.Best Covered Precedes st.order b := by
  have hscan := st.scanned_next
  rw [hb] at hscan
  obtain ⟨hready, -, hbest⟩ := hscan
  obtain ⟨hnot, hcov⟩ := h.ready_iff.mp hready
  exact ⟨hnot, hcov, fun i hi hci => hbest i (List.mem_finRange i) (h.ready_iff.mpr ⟨hi, hci⟩)⟩

theorem stuck_of_next (h : st.Progress) (hn : st.next = none) :
    Greedy.Stuck Covered st.order := by
  have hscan := st.scanned_next
  rw [hn] at hscan
  exact fun i hi hci => hscan i (List.mem_finRange i) (h.ready_iff.mpr ⟨hi, hci⟩)

/-- **One turn of the loop.** -/
theorem place (h : st.Progress) {b : Index manifests} (hb : st.next = some b) :
    (st.place b).Progress where
  remaining := by
    intro i
    by_cases hi : i = b
    · simp [SortState.place, hi]
    · simp [SortState.place, h.remaining i, hi]
  inDeg := by
    intro i hi
    simp only [SortState.place, List.mem_append, List.mem_singleton, not_or] at hi
    obtain ⟨hnot, hne⟩ := hi
    have hrem : Function.update st.remaining b false i = true := by
      rw [Function.update_of_ne hne]
      exact (h.remaining i).mpr hnot
    simp only [SortState.place, hrem, if_true, foldl_lowerFor, h.inDeg i hnot, List.map_append,
      List.sum_append, List.map_cons, List.map_nil, List.sum_singleton, credit]
    omega
  greedy := h.greedy.snoc (h.best_of_next hb)

/-- **The loop.**  It places everything, or it gets stuck with something left. -/
theorem placeAll (h : st.Progress) {k : ℕ} (hk : st.order.length + k = manifests.length) :
    (∃ order, st.placeAll k = .ok order ∧ Greedy.Prefix Covered Precedes order ∧
        order.length = manifests.length) ∨
      st.placeAll k = .error .cycleDetected ∧ ∃ placed : List (Index manifests),
        Greedy.Prefix Covered Precedes placed ∧ Greedy.Stuck Covered placed ∧
          placed.length < manifests.length := by
  induction k generalizing st with
  | zero => exact .inl ⟨st.order, rfl, h.greedy, hk⟩
  | succ k ih =>
    rw [SortState.placeAll]
    cases hn : st.next with
    | none => exact .inr ⟨rfl, st.order, h.greedy, h.stuck_of_next hn, by omega⟩
    | some b =>
      refine ih (h.place hn) ?_
      rw [SortState.place, List.length_append, List.length_singleton]
      omega

end Progress

end SortState

/-! ## What the sort returns -/

theorem mem_of_length {order : List (Index manifests)} (hnodup : order.Nodup)
    (hlen : order.length = manifests.length) (i : Index manifests) : i ∈ order := by
  have hcard : order.toFinset.card = Fintype.card (Index manifests) := by
    rw [List.toFinset_card_of_nodup hnodup, hlen, Fintype.card_fin]
  rw [← List.mem_toFinset, (Finset.card_eq_iff_eq_univ _).mp hcard]
  exact Finset.mem_univ i

/-- Once each, in whatever order. -/
theorem perm_finRange {order : List (Index manifests)} (hnodup : order.Nodup)
    (hlen : order.length = manifests.length) : order.Perm (List.finRange manifests.length) :=
  (List.perm_ext_iff_of_nodup hnodup (List.nodup_finRange _)).mpr fun i =>
    ⟨fun _ => List.mem_finRange i, fun _ => mem_of_length hnodup hlen i⟩

theorem topoSort_eq_placeAll (hm : missingCapability manifests = false)
    (hc : conflictingPlugs manifests = false) :
    topoSort manifests = (SortState.start manifests).placeAll manifests.length := by
  rw [topoSort, hm, hc]
  simp only [Bool.false_eq_true, if_false]
  split
  · rename_i hn
    rw [hn]
    rfl
  · rfl

/-- The two ends of the sort, when its checks pass. -/
theorem topoSort_spec (hm : missingCapability manifests = false)
    (hc : conflictingPlugs manifests = false) :
    (∃ order, topoSort manifests = .ok order ∧ Greedy.Prefix Covered Precedes order ∧
        order.length = manifests.length) ∨
      topoSort manifests = .error .cycleDetected ∧ ∃ placed : List (Index manifests),
        Greedy.Prefix Covered Precedes placed ∧ Greedy.Stuck Covered placed ∧
          placed.length < manifests.length := by
  rw [topoSort_eq_placeAll hm hc]
  exact SortState.progress_start.placeAll (Nat.zero_add _)

/-- **Every order it returns is a permutation.** -/
theorem perm_of_topoSort {order : List (Index manifests)} (h : topoSort manifests = .ok order) :
    order.Perm (List.finRange manifests.length) := by
  cases hm : missingCapability manifests with
  | true => rw [topoSort, hm] at h; cases h
  | false =>
    cases hc : conflictingPlugs manifests with
    | true => rw [topoSort, hm, hc] at h; cases h
    | false =>
      rcases topoSort_spec hm hc with ⟨order', hok, hgreedy, hlen⟩ | ⟨herr, -⟩
      · obtain rfl := Except.ok.inj (hok.symm.trans h)
        exact perm_finRange hgreedy.nodup hlen
      · rw [herr] at h
        cases h

/-- Whoever is supplied by some plugs is supplied by more. -/
theorem covered_of_subset (xs ys : List (Index manifests)) (i : Index manifests) (h : xs ⊆ ys)
    (hs : Supplied xs i) : Covered ys i := by
  refine covered_of_supplied ys i fun cap hd hself => ?_
  obtain ⟨k, hk, hprov⟩ := hs cap hd hself
  exact ⟨k, h hk, hprov⟩

/-- **A cycle is reported only where there is one.** -/
theorem not_startOrder_of_cycle (h : topoSort manifests = .error .cycleDetected) :
    ¬ ∃ order : List (Index manifests), StartOrder order := by
  cases hm : missingCapability manifests with
  | true => rw [topoSort, hm] at h; cases h
  | false =>
    cases hc : conflictingPlugs manifests with
    | true => rw [topoSort, hm, hc] at h; cases h
    | false =>
      rcases topoSort_spec hm hc with ⟨order, hok, -⟩ | ⟨-, placed, hgreedy, hstuck, hlt⟩
      · rw [hok] at h
        cases h
      · rintro ⟨order, hperm, hord⟩
        obtain ⟨x, hx⟩ : ∃ x, x ∉ placed := by
          by_contra hall
          have hsub : Finset.univ ⊆ placed.toFinset := fun i _ =>
            List.mem_toFinset.mpr (by_contra fun hi => hall ⟨i, hi⟩)
          have hcard := Finset.card_le_card hsub
          rw [Finset.card_univ, Fintype.card_fin] at hcard
          have := placed.toFinset_card_le
          omega
        exact Greedy.not_ordered_of_stuck covered_of_subset hstuck
          (hperm.symm.subset (List.mem_finRange x)) hx hord

/-! ## When the sort is right -/

variable (manifests)

/-- Some plugs have too little credit from all others together. -/
def Deadlocked : Prop :=
  ∃ K : Finset (Index manifests), K.Nonempty ∧ ∀ j ∈ K,
    ∑ i ∈ Kᶜ, credit (manifests.get i) (manifests.get j) < (manifests.get j).demands.length

/-- In the intended order, whenever the counter of a plug runs out before its requirements are
met, a plug whose requirements are met is in front of it. -/
def NoOvertaking : Prop :=
  ∀ placed : List (Index manifests), Greedy.Prefix Supplied Precedes placed → ∀ j ∉ placed,
    Covered placed j → ¬ Supplied placed j → ∃ i ∉ placed, Supplied placed i ∧ Precedes i j

variable {manifests}

theorem covered_iff_sum {placed : List (Index manifests)} (hnodup : placed.Nodup)
    (j : Index manifests) :
    Covered placed j ↔ (manifests.get j).demands.length ≤
      ∑ i ∈ placed.toFinset, credit (manifests.get i) (manifests.get j) := by
  rw [Covered, List.sum_toFinset _ hnodup]

/-- What is stuck is deadlocked. -/
theorem deadlocked_of_stuck {placed : List (Index manifests)}
    (hgreedy : Greedy.Prefix Covered Precedes placed) (hstuck : Greedy.Stuck Covered placed)
    (hlt : placed.length < manifests.length) : Deadlocked manifests := by
  refine ⟨placed.toFinsetᶜ, ?_, fun j hj => ?_⟩
  · rw [← Finset.card_pos, Finset.card_compl, Fintype.card_fin]
    have := placed.toFinset_card_le
    omega
  · have hnot : j ∉ placed := by simpa using hj
    rw [compl_compl]
    exact Nat.lt_of_not_le (mt (covered_iff_sum hgreedy.nodup j).mpr (hstuck j hnot))

/-- What is deadlocked cannot be placed: the first of them to be placed would have its credit from
the others. -/
theorem not_ordered_of_deadlocked (h : Deadlocked manifests) {order : List (Index manifests)}
    (hgreedy : Greedy.Prefix Covered Precedes order) : order.length ≠ manifests.length := by
  intro hlen
  obtain ⟨K, ⟨x, hx⟩, hK⟩ := h
  have hout (before : List (Index manifests)) : ∀ after, order = before ++ after →
      ∀ i ∈ before, i ∉ K := by
    induction before using List.reverseRecOn with
    | nil => exact fun _ _ i hi => absurd hi List.not_mem_nil
    | append_singleton before b ih =>
      intro after heq i hi
      rw [List.append_assoc] at heq
      have hbefore := ih _ heq
      rcases List.mem_append.mp hi with hi | hi
      · exact hbefore i hi
      · obtain rfl := List.mem_singleton.mp hi
        intro hiK
        obtain ⟨hpre, hbest⟩ := hgreedy.best heq
        have hcov := (covered_iff_sum hpre.nodup i).mp hbest.isReady
        have hsub : before.toFinset ⊆ Kᶜ := fun k hk =>
          Finset.mem_compl.mpr (hbefore k (List.mem_toFinset.mp hk))
        have hsum := Finset.sum_le_sum_of_subset
          (f := fun k => credit (manifests.get k) (manifests.get i)) hsub
        exact Nat.not_le.mpr (hK i hiK) (hcov.trans hsum)
  exact hout order [] (List.append_nil _).symm x (mem_of_length hgreedy.nodup hlen x) hx

/-- **When the sort is right.**  It is when it stops at a missing capability or a conflict, when
the plugs deadlock, and otherwise exactly when no early counter is in front. -/
theorem topoSort_correct_iff (manifests : List Manifest) :
    SortsCorrectly manifests ↔
      missingCapability manifests = true ∨ conflictingPlugs manifests = true ∨
        Deadlocked manifests ∨ NoOvertaking manifests := by
  have hsound : SortsCorrectly manifests ↔
      ∀ order, topoSort manifests = .ok order → StartOrder order :=
    ⟨fun h => h.1, fun h => ⟨h, not_startOrder_of_cycle⟩⟩
  rw [hsound]
  cases hm : missingCapability manifests with
  | true =>
    have herr : topoSort manifests = .error .missingCapability := by rw [topoSort, hm]; rfl
    simp [herr]
  | false =>
    cases hc : conflictingPlugs manifests with
    | true =>
      have herr : topoSort manifests = .error .conflictingPlugs := by rw [topoSort, hm, hc]; rfl
      simp [herr]
    | false =>
      simp only [Bool.false_eq_true, false_or]
      rcases topoSort_spec hm hc with
        ⟨order, hok, hgreedy, hlen⟩ | ⟨herr, placed, hgreedy, hstuck, hlt⟩
      · have hordered := hgreedy.ordered_iff precedes_asymm covered_of_supplied
          (mem_of_length hgreedy.nodup hlen)
        have hstart : StartOrder order ↔ NoOvertaking manifests :=
          ⟨fun h => hordered.mp h.2,
            fun h => ⟨perm_finRange hgreedy.nodup hlen, hordered.mpr h⟩⟩
        have hfree : ¬ Deadlocked manifests := fun h => not_ordered_of_deadlocked h hgreedy hlen
        rw [hok, or_iff_right hfree, ← hstart]
        exact ⟨fun h => h order rfl, fun h order' heq => Except.ok.inj heq ▸ h⟩
      · rw [herr]
        exact ⟨fun _ => .inl (deadlocked_of_stuck hgreedy hstuck hlt), fun _ order h => by cases h⟩

/-- Two clocks, and a plug that waits for a clock and for telemetry. -/
def twoClocks : List Manifest :=
  [{ id := ascii "memory", provides := [.memory],
     deps := [⟨.clock, .requires⟩, ⟨.telemetry, .requires⟩] },
   { id := ascii "clock-a", provides := [.clock], deps := [] },
   { id := ascii "clock-b", provides := [.clock], deps := [] },
   { id := ascii "telemetry", provides := [.telemetry], deps := [], startOrder := 1 }]

theorem topoSort_twoClocks :
    topoSort twoClocks = (.ok [1, 2, 0, 3] : Except SortError (List (Fin 4))) := rfl

/-- The second clock uses up the place of the telemetry. -/
theorem topoSort_not_correct : ¬ ∀ manifests : List Manifest, SortsCorrectly manifests := by
  intro hall
  have hord := ((hall twoClocks).1 _ topoSort_twoClocks).2
  have hsupplied := hord ([1, 2] : List (Fin 4)) (0 : Fin 4) ([3] : List (Fin 4)) rfl
  have hlate : ¬ ∃ k ∈ ([1, 2] : List (Fin 4)),
      Capability.telemetry ∈ (twoClocks.get k).provides := by decide
  exact hlate (hsupplied .telemetry (by decide) (by decide))

end Plug
end TigerClaw
