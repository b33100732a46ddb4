import TigerClaw.Library.Checked
import TigerClaw.Library.StepMachine
import TigerClaw.Library.Tally

/-!
# The cost ledger

`src/cost/ledger.zig` keeps an operator's budget with a two-phase protocol: `reserve` puts an
upper bound on hold, `commit` books the real cost and drops the hold, `release` drops the hold.
Every call runs under one lock, so a history of the ledger is a list of calls.

* `Ledger.reserve`, `Ledger.commit`, `Ledger.release`: the three calls as the code makes them,
  saturating arithmetic included.  `Ledger.call` puts them behind one label type.
* `Ledger.Sound`: what holds between two calls.  The ceiling bounds what is spent together with
  what is on hold, and that is why no saturating operation ever saturates.
* `ledger_within_ceiling`: the invariant over all histories.
-/

namespace TigerClaw
namespace Cost

/-- The errors of the ledger, with the allocator's failure that `put` passes on. -/
inductive LedgerError where
  | ceilingExceeded
  | overCommit
  | unknownReservation
  | outOfMemory

/-- The handle `reserve` returns.  A plain value: a caller can make one up. -/
structure Reservation where
  id : UInt64
  amountMicros : UInt64

structure Ledger where
  ceilingMicros : UInt64
  nextId : UInt64 := 1
  spentMicros : UInt64 := 0
  pendingMicros : UInt64 := 0
  /-- Live reservations, keyed by id. -/
  reservations : AList (fun _ : UInt64 => UInt64) := ∅

namespace Ledger

def init (ceilingMicros : UInt64) : Ledger := { ceilingMicros }

/-- `reserve`.  `granted` says whether the allocator serves the map's `put`.  The counter's
`next_id += 1` is a checked addition: at the top it takes the program down. -/
def reserve (self : Ledger) (granted : Bool) (upperBound : UInt64) :
    Except Trap (Ledger × Except LedgerError Reservation) :=
  let committed := UInt64.satAdd self.spentMicros self.pendingMicros
  let wouldBe := UInt64.satAdd committed upperBound
  if self.ceilingMicros ≠ 0 ∧ self.ceilingMicros < wouldBe then
    .ok (self, .error .ceilingExceeded)
  else if self.nextId.toNat + 1 = 2 ^ 64 then
    .error .overflow
  else
    let id := self.nextId
    let self := { self with nextId := self.nextId + 1 }
    if granted then
      .ok ({ self with
              reservations := self.reservations.insert id upperBound
              pendingMicros := UInt64.satAdd self.pendingMicros upperBound },
            .ok ⟨id, upperBound⟩)
    else
      .ok (self, .error .outOfMemory)

/-- `commit`.  The amount in the handle is not looked at, only the one on record. -/
def commit (self : Ledger) (res : Reservation) (actualMicros : UInt64) :
    Ledger × Except LedgerError Unit :=
  match self.reservations.lookup res.id with
  | none => (self, .error .unknownReservation)
  | some held =>
    if held < actualMicros then (self, .error .overCommit)
    else
      ({ self with
          reservations := self.reservations.erase res.id
          pendingMicros := UInt64.satSub self.pendingMicros held
          spentMicros := UInt64.satAdd self.spentMicros actualMicros },
        .ok ())

/-- `release`. -/
def release (self : Ledger) (res : Reservation) : Ledger × Except LedgerError Unit :=
  match self.reservations.lookup res.id with
  | none => (self, .error .unknownReservation)
  | some held =>
    ({ self with
        reservations := self.reservations.erase res.id
        pendingMicros := UInt64.satSub self.pendingMicros held },
      .ok ())

/-- One call of a caller.  Nothing ties a handle to an earlier `reserve`. -/
inductive Call where
  | reserve (upperBound : UInt64) (granted : Bool)
  | commit (res : Reservation) (actualMicros : UInt64)
  | release (res : Reservation)

/-- The ledger after a call, and the error it returned if it failed. -/
def call (self : Ledger) : Call → Except Trap (Ledger × Except LedgerError Unit)
  | .reserve upperBound granted =>
    (self.reserve granted upperBound).map fun p => (p.1, p.2.map fun _ => ())
  | .commit res actualMicros => .ok (self.commit res actualMicros)
  | .release res => .ok (self.release res)

/-- What a successful call books: the actual amount of a commit, nothing otherwise. -/
def booked : Call → Except LedgerError Unit → ℕ
  | .commit _ actualMicros, .ok () => actualMicros.toNat
  | _, _ => 0

/-- The sum of the amounts of the live reservations. -/
def live (self : Ledger) : ℕ := self.reservations.tally fun _ amount => amount.toNat

/-! ## What one call can do -/

/-- **A call that returns an error leaves the books as they were.**  Only the id counter can
have moved, and only when the allocator refused. -/
theorem call_error {self l : Ledger} {c : Call} {e : LedgerError}
    (h : self.call c = .ok (l, .error e)) :
    l.spentMicros = self.spentMicros ∧ l.pendingMicros = self.pendingMicros ∧
      l.reservations = self.reservations := by
  cases c with
  | reserve upperBound granted =>
    simp only [call, reserve] at h
    split at h
    · obtain ⟨rfl, -⟩ := by simpa [Except.map] using h
      exact ⟨rfl, rfl, rfl⟩
    · split at h
      · simp [Except.map] at h
      · cases granted
        · obtain ⟨rfl, -⟩ := by simpa [Except.map] using h
          exact ⟨rfl, rfl, rfl⟩
        · simp [Except.map] at h
  | commit res actualMicros =>
    simp only [call, commit] at h
    split at h
    · obtain ⟨rfl, -⟩ := by simpa using h
      exact ⟨rfl, rfl, rfl⟩
    · split at h
      · obtain ⟨rfl, -⟩ := by simpa using h
        exact ⟨rfl, rfl, rfl⟩
      · simp at h
  | release res =>
    simp only [call, release] at h
    split at h
    · obtain ⟨rfl, -⟩ := by simpa using h
      exact ⟨rfl, rfl, rfl⟩
    · simp at h

/-! ## The invariant -/

/-- What holds between two calls, for a ledger opened with ceiling `c` whose successful
commits so far add up to `total`. -/
structure Sound (c : UInt64) (l : Ledger) (total : ℕ) : Prop where
  ceiling : l.ceilingMicros = c
  /-- Ids are handed out in increasing order, so the next one is not live. -/
  fresh : ∀ id ∈ l.reservations, id.toNat < l.nextId.toNat
  pending : l.pendingMicros.toNat = l.live
  spent : l.spentMicros.toNat = total
  within : l.spentMicros.toNat + l.pendingMicros.toNat ≤ c.toNat

theorem sound_init (c : UInt64) : Sound c (init c) 0 where
  ceiling := rfl
  fresh := by simp [init]
  pending := by simp [init, live]
  spent := rfl
  within := by simp [init]

/-- A reservation that went through fits under the ceiling, exactly. -/
theorem le_ceiling_of_not_lt {c a b u : UInt64} (hc : c.toNat < 2 ^ 64 - 1)
    (h : ¬ c < UInt64.satAdd (UInt64.satAdd a b) u) : a.toNat + b.toNat + u.toNat ≤ c.toNat := by
  rw [UInt64.lt_iff_toNat_lt, UInt64.toNat_satAdd, UInt64.toNat_satAdd] at h
  omega

/-- The counter, where its addition does not trip. -/
theorem toNat_nextId_succ {n : UInt64} (h : n.toNat + 1 ≠ 2 ^ 64) :
    (n + 1).toNat = n.toNat + 1 := by
  have hlt := n.toNat_lt
  rw [UInt64.toNat_add, UInt64.toNat_one]
  omega

/-- An id that is drawn and not used. -/
theorem Sound.drawn {c : UInt64} {self : Ledger} {total : ℕ} (hs : Sound c self total)
    (hid : self.nextId.toNat + 1 ≠ 2 ^ 64) :
    Sound c { self with nextId := self.nextId + 1 } total where
  ceiling := hs.ceiling
  fresh := fun id hmem => by
    have hlt := hs.fresh id hmem
    simp only [toNat_nextId_succ hid]
    omega
  pending := hs.pending
  spent := hs.spent
  within := hs.within

/-- A reservation that is granted within the ceiling. -/
theorem Sound.reserved {c upperBound : UInt64} {self : Ledger} {total : ℕ}
    (hs : Sound c self total) (hid : self.nextId.toNat + 1 ≠ 2 ^ 64)
    (hfit : self.spentMicros.toNat + self.pendingMicros.toNat + upperBound.toNat ≤ c.toNat) :
    Sound c
      { self with
        nextId := self.nextId + 1
        reservations := self.reservations.insert self.nextId upperBound
        pendingMicros := UInt64.satAdd self.pendingMicros upperBound } total := by
  have hlt := c.toNat_lt
  have hnew : self.nextId ∉ self.reservations := fun hmem =>
    absurd (hs.fresh _ hmem) (lt_irrefl _)
  have hadd : (UInt64.satAdd self.pendingMicros upperBound).toNat =
      self.pendingMicros.toNat + upperBound.toNat :=
    UInt64.toNat_satAdd_of_lt (by omega)
  refine ⟨hs.ceiling, fun id hmem => ?_, ?_, hs.spent, ?_⟩
  · simp only [toNat_nextId_succ hid]
    rcases (AList.mem_insert _).mp hmem with rfl | hmem
    · omega
    · have := hs.fresh id hmem
      omega
  · have hpending := hs.pending
    rw [live] at hpending
    simp only [live, AList.tally_insert_of_notMem _ _ hnew, hadd]
    omega
  · simp only [hadd]
    omega

theorem sound_reserve {c upperBound : UInt64} {self l : Ledger} {total : ℕ} {granted : Bool}
    {r : Except LedgerError Reservation} (hc₀ : 0 < c) (hc₁ : c.toNat < 2 ^ 64 - 1)
    (hs : Sound c self total) (h : self.reserve granted upperBound = .ok (l, r)) :
    Sound c l total := by
  have hne : self.ceilingMicros ≠ 0 := by
    rw [hs.ceiling]
    rintro rfl
    exact absurd hc₀ (by decide)
  simp only [reserve, hne, ne_eq, not_false_eq_true, true_and] at h
  split at h
  · obtain ⟨rfl, -⟩ := by simpa using h
    exact hs
  · rename_i hroom
    rw [hs.ceiling] at hroom
    split at h
    · cases h
    · rename_i hid
      cases granted
      · obtain ⟨rfl, -⟩ := by simpa using h
        exact hs.drawn hid
      · obtain ⟨rfl, -⟩ := by simpa using h
        exact hs.reserved hid (le_ceiling_of_not_lt hc₁ hroom)

/-- Dropping a live reservation takes its amount out of the total on hold. -/
theorem pending_erase {c : UInt64} {self : Ledger} {total : ℕ} {id held : UInt64}
    (hs : Sound c self total) (hheld : self.reservations.lookup id = some held) :
    self.pendingMicros.toNat = held.toNat +
      (self.reservations.erase id).tally fun _ amount => amount.toNat := by
  rw [hs.pending, live, AList.tally_erase _ hheld]

theorem sound_commit {c actualMicros : UInt64} {self : Ledger} {res : Reservation} {total : ℕ}
    (hs : Sound c self total) :
    Sound c (self.commit res actualMicros).1
      (total + booked (.commit res actualMicros) (self.commit res actualMicros).2) := by
  simp only [commit]
  split
  · exact hs
  · rename_i held hheld
    split
    · exact hs
    · rename_i hactual
      have hp := pending_erase hs hheld
      have hw := hs.within
      have hlt := c.toNat_lt
      rw [UInt64.lt_iff_toNat_lt] at hactual
      have hadd : (UInt64.satAdd self.spentMicros actualMicros).toNat =
          self.spentMicros.toNat + actualMicros.toNat :=
        UInt64.toNat_satAdd_of_lt (by omega)
      refine ⟨hs.ceiling, fun id hid => hs.fresh id (AList.mem_erase.mp hid).2, ?_, ?_, ?_⟩
      · simp only [live, UInt64.toNat_satSub]
        omega
      · simp only [hadd, booked, hs.spent]
      · simp only [hadd, UInt64.toNat_satSub]
        omega

theorem sound_release {c : UInt64} {self : Ledger} {res : Reservation} {total : ℕ}
    (hs : Sound c self total) : Sound c (self.release res).1 total := by
  simp only [release]
  split
  · exact hs
  · rename_i held hheld
    have hp := pending_erase hs hheld
    have hw := hs.within
    refine ⟨hs.ceiling, fun id hid => hs.fresh id (AList.mem_erase.mp hid).2, ?_, hs.spent, ?_⟩
    · simp only [live, UInt64.toNat_satSub]
      omega
    · simp only [UInt64.toNat_satSub]
      omega

/-- **Every call keeps the books sound.** -/
theorem sound_call {c : UInt64} {self l : Ledger} {total : ℕ} {k : Call}
    {r : Except LedgerError Unit} (hc₀ : 0 < c) (hc₁ : c.toNat < 2 ^ 64 - 1)
    (hs : Sound c self total) (h : self.call k = .ok (l, r)) :
    Sound c l (total + booked k r) := by
  cases k with
  | reserve upperBound granted =>
    simp only [call] at h
    cases hr : self.reserve granted upperBound with
    | error t => simp [hr, Except.map] at h
    | ok p =>
      obtain ⟨l', r'⟩ := p
      obtain ⟨rfl, -⟩ := by simpa [hr, Except.map] using h
      exact sound_reserve hc₀ hc₁ hs hr
  | commit res actualMicros =>
    obtain ⟨rfl, rfl⟩ := Prod.mk.inj (Except.ok.inj h)
    exact sound_commit hs
  | release res =>
    obtain ⟨rfl, rfl⟩ := Prod.mk.inj (Except.ok.inj h)
    exact sound_release hs

/-! ## Histories -/

/-- The ledger together with the sum of the actual amounts of its successful commits. -/
structure History where
  ledger : Ledger
  committed : ℕ

/-- Take one more call.  There is no state after a tripped check. -/
def History.step (s : History) (k : Call) : Option History :=
  match s.ledger.call k with
  | .error _ => none
  | .ok (l, r) => some ⟨l, s.committed + booked k r⟩

/-- A ledger just opened. -/
def History.start (c : UInt64) : History := ⟨init c, 0⟩

theorem History.sound_step {c : UInt64} (hc₀ : 0 < c) (hc₁ : c.toNat < 2 ^ 64 - 1)
    (s : History) (k : Call) (s' : History) (hs : Sound c s.ledger s.committed)
    (h : s.step k = some s') : Sound c s'.ledger s'.committed := by
  simp only [History.step] at h
  split at h
  · simp at h
  · rename_i l r hcall
    obtain rfl := Option.some.inj h
    exact sound_call hc₀ hc₁ hs hcall

/-- **The ceiling holds over every history.**  For a ceiling strictly between zero and the top
of `u64`, after any list of calls with any handles: what is spent and what is on hold stay
within the ceiling, what is on hold is the sum over the live reservations, what is spent is
the sum over the successful commits, and a further call that fails changes none of the three. -/
theorem ledger_within_ceiling (c : UInt64) (hc₀ : 0 < c) (hc₁ : c.toNat < 2 ^ 64 - 1)
    (calls : List Call) (s : History)
    (h : StepMachine.run History.step (History.start c) calls = some s) :
    s.ledger.spentMicros.toNat + s.ledger.pendingMicros.toNat ≤ c.toNat ∧
      s.ledger.pendingMicros.toNat = s.ledger.live ∧
      s.ledger.spentMicros.toNat = s.committed ∧
      ∀ k l e, s.ledger.call k = .ok (l, .error e) →
        l.spentMicros = s.ledger.spentMicros ∧ l.pendingMicros = s.ledger.pendingMicros ∧
          l.reservations = s.ledger.reservations := by
  have hs : Sound c s.ledger s.committed :=
    StepMachine.invariant_run (I := fun s : History => Sound c s.ledger s.committed)
      (fun s k s' => History.sound_step hc₀ hc₁ s k s') (sound_init c) h
  exact ⟨hs.within, hs.pending, hs.spent, fun _ _ _ => call_error⟩

/-- The invariant on a history with a refused reservation, a commit through a made-up handle,
a commit of a settled one and a release of a handle nobody was given. -/
theorem ledger_within_ceiling_history :
    ∃ s, StepMachine.run History.step (History.start 500)
        [.reserve 400 true, .reserve 200 true, .reserve 100 true, .commit ⟨1, 0⟩ 300,
          .commit ⟨1, 400⟩ 300, .release ⟨7, 1⟩] = some s ∧
      s.ledger.spentMicros = 300 ∧ s.ledger.pendingMicros = 100 ∧
      s.ledger.spentMicros.toNat + s.ledger.pendingMicros.toNat ≤ (500 : UInt64).toNat ∧
      s.ledger.pendingMicros.toNat = s.ledger.live ∧
      s.ledger.spentMicros.toNat = s.committed := by
  obtain ⟨s, hrun, hspent, hpending⟩ :
      ∃ s, StepMachine.run History.step (History.start 500)
          [.reserve 400 true, .reserve 200 true, .reserve 100 true, .commit ⟨1, 0⟩ 300,
            .commit ⟨1, 400⟩ 300, .release ⟨7, 1⟩] = some s ∧
        s.ledger.spentMicros = 300 ∧ s.ledger.pendingMicros = 100 := ⟨_, rfl, rfl, rfl⟩
  obtain ⟨hw, hp, hc, -⟩ := ledger_within_ceiling 500 (by decide) (by decide) _ s hrun
  exact ⟨s, hrun, hspent, hpending, hw, hp, hc⟩

end Ledger
end Cost
end TigerClaw
