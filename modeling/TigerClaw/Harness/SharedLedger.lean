import Mathlib.Algebra.Group.Nat.Defs
import Mathlib.Data.List.Nodup
import TigerClaw.Cost.Ledger
import TigerClaw.Cost.Pricing
import TigerClaw.Library.StepMachine

/-!
# Settling a reservation

`commitUsage` and `recordDirect` of `src/cost/ledger.zig`, and the guard of
`src/harness/shared_ledger.zig`, which gives a reservation back when it is dropped.

* `Ledger.commitUsage`: the cost of a usage is booked, the part above the reservation directly.
* `Settles`, `settles_commitUsage`: either nothing changes, or the reservation is gone and the cost
  is spent.
* `Held`, `Use`, `step`: guards of one ledger, used in any order, also after they are settled.
* `Books`, `books_step`: what every use keeps.  `gone` is what a use takes off the ledger.
* `usage_settlement`: the two together.
-/

namespace TigerClaw

namespace Cost
namespace Ledger

open Agent (TokenUsage)

/-- `recordDirect`: no ceiling, since the money is spent. -/
def recordDirect (self : Ledger) (costMicros : UInt64) : Ledger :=
  { self with spentMicros := UInt64.satAdd self.spentMicros costMicros }

/-- `commitUsage`. -/
def commitUsage (self : Ledger) (table : List ModelPrice) (model : Bytes) (usage : TokenUsage)
    (res : Reservation) : Except Trap (Ledger × Except LedgerError UInt64) :=
  match priceUsage table model usage with
  | .trap t => .error t
  | .error e => e.elim
  | .ok priced =>
    let actual :=
      if priced.costMicros > res.amountMicros then res.amountMicros else priced.costMicros
    let shortfall := priced.costMicros - actual
    match self.commit res actual with
    | (l, .error e) => .ok (l, .error e)
    | (l, .ok ()) =>
      .ok (if shortfall > 0 then l.recordDirect shortfall else l, .ok priced.costMicros)

/-- The books as they were, or without the reservation and with the cost; what is spent stops at the
top, and what is on hold at zero. -/
def Settles (self : Ledger) (res : Reservation) (cost : UInt64) :
    Except Trap (Ledger × Except LedgerError UInt64) → Prop
  | .error _ => False
  | .ok (l, .error _) =>
    l.spentMicros = self.spentMicros ∧ l.pendingMicros = self.pendingMicros ∧
      l.reservations = self.reservations
  | .ok (l, .ok paid) =>
    paid = cost ∧ ∃ held, self.reservations.lookup res.id = some held ∧
      l.reservations = self.reservations.erase res.id ∧
      l.pendingMicros.toNat = self.pendingMicros.toNat - held.toNat ∧
      l.spentMicros.toNat = min (self.spentMicros.toNat + cost.toNat) (2 ^ 64 - 1)

/-- What a commit can do. -/
theorem commit_cases (self : Ledger) (res : Reservation) (actual : UInt64) :
    (∃ e, self.commit res actual = (self, .error e)) ∨
      ∃ held, self.reservations.lookup res.id = some held ∧
        self.commit res actual =
          ({ self with
              reservations := self.reservations.erase res.id
              pendingMicros := UInt64.satSub self.pendingMicros held
              spentMicros := UInt64.satAdd self.spentMicros actual },
            .ok ()) := by
  unfold commit
  cases hheld : self.reservations.lookup res.id with
  | none => exact .inl ⟨_, rfl⟩
  | some held =>
    dsimp only
    split
    · exact .inl ⟨_, rfl⟩
    · exact .inr ⟨held, rfl, rfl⟩

/-- What a release can do. -/
theorem release_cases (self : Ledger) (res : Reservation) :
    (self.reservations.lookup res.id = none ∧
        self.release res = (self, .error .unknownReservation)) ∨
      ∃ held, self.reservations.lookup res.id = some held ∧
        self.release res =
          ({ self with
              reservations := self.reservations.erase res.id
              pendingMicros := UInt64.satSub self.pendingMicros held },
            .ok ()) := by
  unfold release
  cases hheld : self.reservations.lookup res.id with
  | none => exact .inl ⟨rfl, rfl⟩
  | some held => exact .inr ⟨held, rfl, rfl⟩

/-- Two parts of a cost are spent as the whole is. -/
theorem toNat_satAdd_split {spent cost actual : UInt64} (h : actual ≤ cost) :
    (UInt64.satAdd (UInt64.satAdd spent actual) (cost - actual)).toNat =
      min (spent.toNat + cost.toNat) (2 ^ 64 - 1) := by
  have hle := UInt64.le_iff_toNat_le.mp h
  rw [UInt64.toNat_satAdd, UInt64.toNat_satAdd, UInt64.toNat_sub_of_le _ _ h]
  omega

/-- **A usage that has a price is settled**, or changes nothing. -/
theorem settles_commitUsage {self : Ledger} {table : List ModelPrice} {model : Bytes}
    {usage : TokenUsage} {priced : Priced} (hpriced : priceUsage table model usage = .ok priced)
    (res : Reservation) :
    self.Settles res priced.costMicros (self.commitUsage table model usage res) := by
  unfold commitUsage
  rw [hpriced]
  dsimp only
  generalize priced.costMicros = cost
  have hactual : (if cost > res.amountMicros then res.amountMicros else cost) ≤ cost := by
    split_ifs with h
    · exact UInt64.le_of_lt h
    · exact UInt64.le_refl cost
  generalize (if cost > res.amountMicros then res.amountMicros else cost) = actual at hactual
  rcases self.commit_cases res actual with ⟨e, hcommit⟩ | ⟨held, hheld, hcommit⟩
  · rw [hcommit]
    exact ⟨rfl, rfl, rfl⟩
  · rw [hcommit]
    refine ⟨rfl, held, hheld, ?_, ?_, ?_⟩
    · split_ifs
      · rfl
      · rfl
    · split_ifs
      · exact UInt64.toNat_satSub _ _
      · exact UInt64.toNat_satSub _ _
    · split_ifs with hshort
      · exact toNat_satAdd_split hactual
      · -- nothing is left over: the cost is what was committed
        have hle := UInt64.le_iff_toNat_le.mp hactual
        rw [gt_iff_lt, UInt64.lt_iff_toNat_lt, UInt64.toNat_sub_of_le _ _ hactual] at hshort
        have hzero : (0 : UInt64).toNat = 0 := rfl
        rw [UInt64.toNat_satAdd]
        omega

end Ledger
end Cost

namespace Harness

open Agent (TokenUsage)
open Cost (Ledger LedgerError ModelPrice Reservation)

inductive HeldState where
  | live
  | committed
  | released
  deriving DecidableEq

structure Held where
  reservation : Reservation
  state : HeldState

/-- `SharedLedger.reserve`. -/
def SharedLedger.reserve (ledger : Ledger) (granted : Bool) (upperBoundMicros : UInt64) :
    Except Trap (Ledger × Except LedgerError Held) :=
  (ledger.reserve granted upperBoundMicros).map fun p => (p.1, p.2.map fun res => ⟨res, .live⟩)

namespace Held

def commit (self : Held) (ledger : Ledger) (actualMicros : UInt64) :
    Held × Ledger × Except LedgerError Unit :=
  match ledger.commit self.reservation actualMicros with
  | (l, .error e) => (self, l, .error e)
  | (l, .ok ()) => ({ self with state := .committed }, l, .ok ())

def release (self : Held) (ledger : Ledger) : Held × Ledger × Except LedgerError Unit :=
  match ledger.release self.reservation with
  | (l, .error e) => (self, l, .error e)
  | (l, .ok ()) => ({ self with state := .released }, l, .ok ())

/-- `deinit`: an error of the release is only logged. -/
def deinit (self : Held) (ledger : Ledger) : Held × Ledger :=
  if self.state ≠ .live then (self, ledger)
  else ({ self with state := .released }, (ledger.release self.reservation).1)

end Held

/-! ## Guards of one ledger -/

/-- A ledger, the guards that were handed out for it, and the reservations taken off it so far. -/
structure World where
  ledger : Ledger
  helds : List Held := []
  settled : List UInt64 := []

/-- A use of the ledger; guards are numbered in the order in which they are handed out.  Nothing
forbids a use of a guard that is settled. -/
inductive Use where
  | reserve (upperBoundMicros : UInt64) (granted : Bool)
  | commit (i : ℕ) (actualMicros : UInt64)
  | commitUsage (i : ℕ) (table : List ModelPrice) (model : Bytes) (usage : TokenUsage)
  | release (i : ℕ)
  | deinit (i : ℕ)

/-- The reservations that are on the first ledger and no more on the second. -/
def gone (before after : Ledger) : List UInt64 :=
  before.reservations.keys.filter fun id => id ∉ after.reservations

/-- The guard and the ledger after a use of the guard. -/
def World.used (w : World) (i : ℕ) (held : Held) (l : Ledger) : World :=
  { ledger := l
    helds := w.helds.set i held
    settled := w.settled ++ gone w.ledger l }

/-- One use.  There is no state after a tripped check. -/
def step (w : World) : Use → Option World
  | .reserve upperBoundMicros granted =>
    match SharedLedger.reserve w.ledger granted upperBoundMicros with
    | .error _ => none
    | .ok (l, .error _) => some { w with ledger := l, settled := w.settled ++ gone w.ledger l }
    | .ok (l, .ok held) =>
      some { ledger := l, helds := w.helds ++ [held], settled := w.settled ++ gone w.ledger l }
  | .commit i actualMicros =>
    (w.helds[i]?).map fun held =>
      w.used i (held.commit w.ledger actualMicros).1 (held.commit w.ledger actualMicros).2.1
  | .commitUsage i table model usage =>
    (w.helds[i]?).bind fun held =>
      match w.ledger.commitUsage table model usage held.reservation with
      | .error _ => none
      | .ok (l, _) => some (w.used i held l)
  | .release i =>
    (w.helds[i]?).map fun held => w.used i (held.release w.ledger).1 (held.release w.ledger).2.1
  | .deinit i =>
    (w.helds[i]?).map fun held => w.used i (held.deinit w.ledger).1 (held.deinit w.ledger).2

def World.start (ceilingMicros : UInt64) : World := { ledger := Ledger.init ceilingMicros }

/-! ## What a use can do -/

/-- What a use does to its guard and to the ledger: at most that reservation is taken off, and it is
off once the guard says so. -/
structure Uses (held held' : Held) (l l' : Ledger) : Prop where
  reservation : held'.reservation = held.reservation
  nextId : l'.nextId = l.nextId
  others : ∀ id, id ≠ held.reservation.id → (id ∈ l'.reservations ↔ id ∈ l.reservations)
  off : held.reservation.id ∈ l'.reservations → held.reservation.id ∈ l.reservations
  ended : (held.state ≠ .live → held.reservation.id ∉ l.reservations) →
    held'.state ≠ .live → held.reservation.id ∉ l'.reservations

theorem Uses.refl (held : Held) (l : Ledger) : Uses held held l l :=
  ⟨rfl, rfl, fun _ _ => Iff.rfl, id, id⟩

/-- A reservation is taken off, whatever becomes of the totals and of the guard. -/
theorem Uses.erase {held held' : Held} {l l' : Ledger}
    (hreservation : held'.reservation = held.reservation) (hnextId : l'.nextId = l.nextId)
    (herase : l'.reservations = l.reservations.erase held.reservation.id) :
    Uses held held' l l' := by
  refine ⟨hreservation, hnextId, fun id hid => ?_, fun h => ?_, fun _ _ h => ?_⟩
  · rw [herase, AList.mem_erase, and_iff_right hid]
  · rw [herase, AList.mem_erase] at h
    exact h.2
  · rw [herase, AList.mem_erase] at h
    exact h.1 rfl

theorem uses_commit (held : Held) (l : Ledger) (actualMicros : UInt64) :
    Uses held (held.commit l actualMicros).1 l (held.commit l actualMicros).2.1 := by
  unfold Held.commit
  rcases l.commit_cases held.reservation actualMicros with ⟨e, hcommit⟩ | ⟨_, _, hcommit⟩
  · rw [hcommit]
    exact .refl held l
  · rw [hcommit]
    exact .erase rfl rfl rfl

theorem uses_release (held : Held) (l : Ledger) :
    Uses held (held.release l).1 l (held.release l).2.1 := by
  unfold Held.release
  rcases l.release_cases held.reservation with ⟨_, hrelease⟩ | ⟨_, _, hrelease⟩
  · rw [hrelease]
    exact .refl held l
  · rw [hrelease]
    exact .erase rfl rfl rfl

theorem uses_deinit (held : Held) (l : Ledger) :
    Uses held (held.deinit l).1 l (held.deinit l).2 := by
  unfold Held.deinit
  split_ifs with hstate
  · exact .refl held l
  · rcases l.release_cases held.reservation with ⟨hnone, hrelease⟩ | ⟨_, _, hrelease⟩
    · rw [hrelease]
      -- the warning of the code: the reservation is off already
      have hoff : held.reservation.id ∉ l.reservations := AList.lookup_eq_none.mp hnone
      exact ⟨rfl, rfl, fun _ _ => Iff.rfl, id, fun _ _ => hoff⟩
    · rw [hrelease]
      exact .erase rfl rfl rfl

theorem uses_commitUsage {held : Held} {l l' : Ledger} {table : List ModelPrice} {model : Bytes}
    {usage : TokenUsage} {r : Except LedgerError UInt64}
    (h : l.commitUsage table model usage held.reservation = .ok (l', r)) :
    Uses held held l l' := by
  unfold Ledger.commitUsage at h
  split at h
  · cases h
  · rename_i e _
    exact e.elim
  · rename_i priced _
    dsimp only at h
    generalize (if priced.costMicros > held.reservation.amountMicros then
      held.reservation.amountMicros else priced.costMicros) = actual at h
    rcases l.commit_cases held.reservation actual with ⟨e, hcommit⟩ | ⟨_, _, hcommit⟩
    · rw [hcommit] at h
      obtain ⟨rfl, -⟩ := Prod.mk.inj (Except.ok.inj h)
      exact .refl held l
    · rw [hcommit] at h
      obtain ⟨rfl, -⟩ := Prod.mk.inj (Except.ok.inj h)
      split_ifs
      · exact .erase rfl rfl rfl
      · exact .erase rfl rfl rfl

/-- A guard that is dropped is no more live. -/
theorem deinit_state (held : Held) (l : Ledger) : (held.deinit l).1.state ≠ .live := by
  unfold Held.deinit
  split_ifs with hstate
  · exact hstate
  · exact HeldState.noConfusion

/-! ## What every use keeps -/

theorem count_gone (before after : Ledger) (id : UInt64) :
    (gone before after).count id =
      if id ∈ before.reservations ∧ id ∉ after.reservations then 1 else 0 := by
  have hnodup : (gone before after).Nodup := before.reservations.keys_nodup.filter _
  rw [hnodup.count]
  refine if_congr ?_ rfl rfl
  rw [gone, List.mem_filter, decide_eq_true_iff]
  exact and_congr_left' AList.mem_keys.symm

/-- The books of the guards: a reservation is on the ledger, or it has been taken off once. -/
structure Books (w : World) : Prop where
  fresh : ∀ id ∈ w.ledger.reservations, id.toNat < w.ledger.nextId.toNat
  issued : ∀ held ∈ w.helds, held.reservation.id.toNat < w.ledger.nextId.toNat
  bounded : ∀ id ∈ w.settled, id.toNat < w.ledger.nextId.toNat
  once : ∀ held ∈ w.helds, w.settled.count held.reservation.id =
    if held.reservation.id ∈ w.ledger.reservations then 0 else 1
  ended : ∀ held ∈ w.helds, held.state ≠ .live → held.reservation.id ∉ w.ledger.reservations

theorem books_start (ceilingMicros : UInt64) : Books (.start ceilingMicros) where
  fresh := by simp [World.start, Ledger.init]
  issued := by simp [World.start]
  bounded := by simp [World.start]
  once := by simp [World.start]
  ended := by simp [World.start]

/-- How often a reservation has been taken off, after a use that touches it at most. -/
theorem count_settled_append {l l' : Ledger} {settled : List UInt64} {id : UInt64}
    (hcount : settled.count id = if id ∈ l.reservations then 0 else 1)
    (hoff : id ∈ l'.reservations → id ∈ l.reservations) :
    (settled ++ gone l l').count id = if id ∈ l'.reservations then 0 else 1 := by
  rw [List.count_append, hcount, count_gone]
  by_cases hafter : id ∈ l'.reservations
  · rw [if_pos (hoff hafter), if_neg fun h => h.2 hafter, if_pos hafter]
  · rw [if_neg hafter]
    by_cases hbefore : id ∈ l.reservations
    · rw [if_pos hbefore, if_pos ⟨hbefore, hafter⟩]
    · rw [if_neg hbefore, if_neg fun h => hbefore h.1]

theorem gone_eq_nil {before after : Ledger}
    (h : ∀ id ∈ before.reservations, id ∈ after.reservations) : gone before after = [] := by
  refine List.filter_eq_nil_iff.mpr fun id hid => ?_
  rw [decide_eq_true_iff, not_not]
  exact h id (AList.mem_keys.mpr hid)

theorem mem_of_mem_gone {l l' : Ledger} {id : UInt64} (h : id ∈ gone l l') :
    id ∈ l.reservations := AList.mem_keys.mpr (List.mem_of_mem_filter h)

/-- **A use of a guard keeps the books.** -/
theorem Books.used {w : World} (hw : Books w) {i : ℕ} {held held' : Held} {l' : Ledger}
    (hheld : w.helds[i]? = some held) (huses : Uses held held' w.ledger l') :
    Books (w.used i held' l') := by
  have hmem : held ∈ w.helds := List.mem_of_getElem? hheld
  have hback : ∀ id, id ∈ l'.reservations → id ∈ w.ledger.reservations := by
    intro id hid
    by_cases hself : id = held.reservation.id
    · subst hself
      exact huses.off hid
    · exact (huses.others id hself).mp hid
  -- every guard stands for one that was there before
  have hold : ∀ h ∈ w.helds.set i held', ∃ h₀ ∈ w.helds, h.reservation = h₀.reservation := by
    intro h hh
    rcases List.mem_or_eq_of_mem_set hh with hh | rfl
    · exact ⟨h, hh, rfl⟩
    · exact ⟨held, hmem, huses.reservation⟩
  refine ⟨?_, ?_, ?_, ?_, ?_⟩
  · intro id hid
    have hlt := hw.fresh id (hback id hid)
    rwa [← huses.nextId] at hlt
  · intro h hh
    obtain ⟨h₀, hh₀, hsame⟩ := hold h hh
    have hlt := hw.issued h₀ hh₀
    rwa [← hsame, ← huses.nextId] at hlt
  · intro id hid
    have hlt : id.toNat < w.ledger.nextId.toNat := by
      rcases List.mem_append.mp hid with hid | hid
      · exact hw.bounded id hid
      · exact hw.fresh id (mem_of_mem_gone hid)
    rwa [← huses.nextId] at hlt
  · intro h hh
    obtain ⟨h₀, hh₀, hsame⟩ := hold h hh
    rw [hsame]
    exact count_settled_append (hw.once h₀ hh₀) (hback _)
  · intro h hh hstate
    rcases List.mem_or_eq_of_mem_set hh with hh | rfl
    · exact fun hid => hw.ended h hh hstate (hback _ hid)
    · rw [huses.reservation]
      exact huses.ended (hw.ended held hmem) hstate

/-- **A new guard keeps the books.** -/
theorem Books.reserved {w : World} (hw : Books w) {upperBound : UInt64}
    (hid : w.ledger.nextId.toNat + 1 ≠ 2 ^ 64) :
    Books
      { ledger :=
          { w.ledger with
            nextId := w.ledger.nextId + 1
            reservations := w.ledger.reservations.insert w.ledger.nextId upperBound
            pendingMicros := UInt64.satAdd w.ledger.pendingMicros upperBound }
        helds := w.helds ++ [⟨⟨w.ledger.nextId, upperBound⟩, .live⟩]
        settled := w.settled } := by
  have hsucc := Ledger.toNat_nextId_succ hid
  refine ⟨?_, ?_, ?_, ?_, ?_⟩
  · intro id hmem
    rw [hsucc]
    rcases (AList.mem_insert _).mp hmem with rfl | hmem
    · omega
    · have := hw.fresh id hmem
      omega
  · intro h hh
    rw [hsucc]
    rcases List.mem_append.mp hh with hh | hh
    · have := hw.issued h hh
      omega
    · rw [List.mem_singleton.mp hh]
      exact Nat.lt_succ_self _
  · intro id hmem
    rw [hsucc]
    have := hw.bounded id hmem
    omega
  · intro h hh
    rcases List.mem_append.mp hh with hh | hh
    · have hne : h.reservation.id ≠ w.ledger.nextId := by
        intro heq
        have hlt := hw.issued h hh
        rw [heq] at hlt
        exact lt_irrefl _ hlt
      rw [hw.once h hh]
      refine if_congr ?_ rfl rfl
      rw [AList.mem_insert, or_iff_right hne]
    · rw [List.mem_singleton.mp hh, if_pos ((AList.mem_insert _).mpr (.inl rfl))]
      refine List.count_eq_zero_of_not_mem fun hmem => ?_
      exact lt_irrefl _ (hw.bounded _ hmem)
  · intro h hh hstate
    rcases List.mem_append.mp hh with hh | hh
    · intro hmem
      rcases (AList.mem_insert _).mp hmem with heq | hmem
      · have hlt := hw.issued h hh
        rw [heq] at hlt
        exact lt_irrefl _ hlt
      · exact hw.ended h hh hstate hmem
    · rw [List.mem_singleton.mp hh] at hstate
      exact absurd rfl hstate

/-- A reservation that fails may draw an id. -/
theorem Books.drawn {w : World} (hw : Books w) (hid : w.ledger.nextId.toNat + 1 ≠ 2 ^ 64) :
    Books { w with ledger := { w.ledger with nextId := w.ledger.nextId + 1 } } := by
  have hsucc := Ledger.toNat_nextId_succ hid
  refine ⟨?_, ?_, ?_, hw.once, hw.ended⟩
  · intro id hmem
    have := hw.fresh id hmem
    simp only [hsucc]
    omega
  · intro h hh
    have := hw.issued h hh
    simp only [hsucc]
    omega
  · intro id hmem
    have := hw.bounded id hmem
    simp only [hsucc]
    omega

/-- What a reservation leaves on the ledger is not taken off. -/
theorem Books.of_subset {w : World} {l : Ledger} {helds : List Held}
    (hsub : ∀ id ∈ w.ledger.reservations, id ∈ l.reservations)
    (h : Books { ledger := l, helds, settled := w.settled }) :
    Books { ledger := l, helds, settled := w.settled ++ gone w.ledger l } := by
  rw [gone_eq_nil hsub, List.append_nil]
  exact h

theorem books_reserve {w w' : World} {upperBoundMicros : UInt64} {granted : Bool} (hw : Books w)
    (h : step w (.reserve upperBoundMicros granted) = some w') : Books w' := by
  unfold step SharedLedger.reserve Ledger.reserve at h
  dsimp only at h
  split_ifs at h with hroom hid hgranted
  · obtain rfl := Option.some.inj h
    exact .of_subset (fun _ hid => hid) hw
  · cases h
  · obtain rfl := Option.some.inj h
    exact .of_subset (fun id hid => (AList.mem_insert _).mpr (.inr hid)) (hw.reserved hid)
  · obtain rfl := Option.some.inj h
    exact .of_subset (fun _ hid => hid) (hw.drawn hid)

theorem books_step (w : World) (use : Use) (w' : World) (hw : Books w)
    (h : step w use = some w') : Books w' := by
  cases use with
  | reserve upperBoundMicros granted => exact books_reserve hw h
  | commit i actualMicros =>
    obtain ⟨held, hheld, rfl⟩ := Option.map_eq_some_iff.mp h
    exact hw.used hheld (uses_commit held w.ledger actualMicros)
  | commitUsage i table model usage =>
    obtain ⟨held, hheld, h⟩ := Option.bind_eq_some_iff.mp h
    split at h
    · cases h
    · rename_i l r husage
      obtain rfl := Option.some.inj h
      exact hw.used hheld (uses_commitUsage husage)
  | release i =>
    obtain ⟨held, hheld, rfl⟩ := Option.map_eq_some_iff.mp h
    exact hw.used hheld (uses_release held w.ledger)
  | deinit i =>
    obtain ⟨held, hheld, rfl⟩ := Option.map_eq_some_iff.mp h
    exact hw.used hheld (uses_deinit held w.ledger)

theorem books_run {ceilingMicros : UInt64} {uses : List Use} {w : World}
    (h : StepMachine.run step (.start ceilingMicros) uses = some w) : Books w :=
  StepMachine.invariant_run books_step (books_start ceilingMicros) h

/-- A guard that is committed, released or dropped. -/
theorem Books.settled_once {w : World} (hw : Books w) {held : Held} (hheld : held ∈ w.helds)
    (hstate : held.state ≠ .live) : w.settled.count held.reservation.id = 1 := by
  rw [hw.once held hheld, if_neg (hw.ended held hheld hstate)]

theorem deinit_settled {w w' : World} (hw : Books w) {i : ℕ} (h : step w (.deinit i) = some w')
    {held' : Held} (hheld' : w'.helds[i]? = some held') :
    w'.settled.count held'.reservation.id = 1 := by
  have hw' := books_step w _ w' hw h
  obtain ⟨held, hheld, rfl⟩ := Option.map_eq_some_iff.mp h
  refine hw'.settled_once (List.mem_of_getElem? hheld') ?_
  have hlt := (List.getElem?_eq_some_iff.mp hheld).1
  have hset : (w.helds.set i (held.deinit w.ledger).1)[i]? = some (held.deinit w.ledger).1 :=
    List.getElem?_set_self hlt
  rw [World.used, hset] at hheld'
  rw [← Option.some.inj hheld']
  exact deinit_state held w.ledger

/-- **A usage that has a price is settled or changes nothing, and every guard is settled once.**
The cost is spent in full up to the top of the counter.  Over every run of uses of the guards of one
ledger, each reservation is on the ledger or has been taken off once, and it has been once its guard
is committed, released or dropped. -/
theorem usage_settlement :
    (∀ (l : Ledger) (table : List ModelPrice) (model : Bytes) (usage : TokenUsage)
        (res : Reservation) (priced : Cost.Priced),
      Cost.priceUsage table model usage = .ok priced →
        l.Settles res priced.costMicros (l.commitUsage table model usage res)) ∧
      ∀ (ceilingMicros : UInt64) (uses : List Use) (w : World),
        StepMachine.run step (.start ceilingMicros) uses = some w →
          (∀ held ∈ w.helds, (w.settled.count held.reservation.id =
              if held.reservation.id ∈ w.ledger.reservations then 0 else 1) ∧
            (held.state ≠ .live → w.settled.count held.reservation.id = 1)) ∧
          ∀ i w', step w (.deinit i) = some w' → ∀ held, w'.helds[i]? = some held →
            w'.settled.count held.reservation.id = 1 := by
  refine ⟨fun l table model usage res priced hpriced => Ledger.settles_commitUsage hpriced res, ?_⟩
  intro ceilingMicros uses w hrun
  have hw := books_run hrun
  refine ⟨fun held hheld => ⟨hw.once held hheld, hw.settled_once hheld⟩, ?_⟩
  exact fun i w' hstep held hheld => deinit_settled hw hstep hheld

/-! ## A small and a full ledger -/

/-- A micro for a token. -/
def prices : List ModelPrice := [{ model := ascii "m", input := 1000000, output := 1000000 }]

/-- A ledger with one reservation. -/
def oneHeld : Ledger :=
  { ceilingMicros := 500
    nextId := 2
    pendingMicros := 100
    reservations := AList.insert 1 100 ∅ }

/-- A reservation is committed above its amount, its guard is used again, and then dropped. -/
theorem usage_settlement_run :
    oneHeld.Settles ⟨1, 100⟩ 3
        (oneHeld.commitUsage prices (ascii "m") { input := 3 } ⟨1, 100⟩) ∧
      ∀ w, StepMachine.run step (.start 500)
          [.reserve 100 true, .commitUsage 0 prices (ascii "m") { input := 300 }, .commit 0 5,
            .deinit 0] = some w →
        ∀ held ∈ w.helds, held.state ≠ .live → w.settled.count held.reservation.id = 1 := by
  refine ⟨usage_settlement.1 oneHeld prices (ascii "m") { input := 3 } ⟨1, 100⟩
    ⟨3, 3, 0, 0, 0, false⟩ (by decide), fun w hrun held hheld => ?_⟩
  exact ((usage_settlement.2 500 _ w hrun).1 held hheld).2

/-- What is spent does not grow past the top. -/
theorem spent_at_top :
    ∃ l res l', (Ledger.init 0).reserve true 100 = .ok (l, .ok res) ∧
      (l.recordDirect Cost.maxMicros).commitUsage prices (ascii "m") { input := 3 } res =
        .ok (l', .ok 3) ∧
      l'.spentMicros.toNat ≠ (l.recordDirect Cost.maxMicros).spentMicros.toNat + 3 := by
  refine ⟨_, _, _, rfl, rfl, ?_⟩
  decide

end Harness
end TigerClaw
