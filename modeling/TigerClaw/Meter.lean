import TigerClaw.Basic
import TigerClaw.Library.Checked
import TigerClaw.Library.KeyedTable
import TigerClaw.Library.StepMachine
import TigerClaw.Library.Tally

/-!
# The in-memory meter

`src/meter.zig` keeps the remaining budget of five kinds of resource.  `reserve` debits the
balance and hands out an id, `consume` drops the reservation, `refund` credits a part of it and
drops it.  The meter never refuses: a reservation that asks for more than is left takes the
balance to zero, and its full amount goes on record all the same.

* `InMemoryMeter`: the balances and the table of open reservations, with the bound of the table.
* `Books`: what an auditor writes down beside the meter, each reservation with what it took from
  the balance and not with what it asked for.  `Audit.step` is a call on the meter and its entry
  in the books.
* `Audit.Agrees`: the meter's table and the books hold the same reservations.
* `meter_balances_iff`: balance and books add up to the initial budget exactly if no refund has
  handed back more than its reservation took.
-/

namespace TigerClaw
namespace Meter

inductive Kind where
  | tokens
  | dollarsMicros
  | wallMs
  | bytes
  | apiCalls
  deriving DecidableEq

abbrev ReservationId : Type := UInt64

structure Reservation where
  id : ReservationId
  kind : Kind
  amount : UInt64

/-- `open[0..open_len]` is a list; the array has room for 1024. -/
structure InMemoryMeter where
  remainings : Kind → UInt64
  nextId : UInt64 := 1
  opened : List Reservation := []
  openLen_le : opened.length ≤ 1024 := by simp

namespace InMemoryMeter

/-- `init`: kinds that are not listed have nothing, and of two entries the later one counts. -/
def init (initial : List (Kind × UInt64)) : InMemoryMeter :=
  { remainings := initial.foldl (fun rem entry => Function.update rem entry.1 entry.2) fun _ => 0 }

def remaining (self : InMemoryMeter) (kind : Kind) : UInt64 := self.remainings kind

def findReservation (self : InMemoryMeter) (id : ReservationId) : Option Reservation :=
  self.opened.find? fun r => r.id == id

def removeReservation (self : InMemoryMeter) (id : ReservationId) : InMemoryMeter :=
  { self with
    opened := self.opened.swapRemove fun r => r.id == id
    openLen_le := (List.length_swapRemove_le _ _).trans self.openLen_le }

/-- `reserveImpl`.  The balance stops at zero; the counter's `next_id += 1` is checked. -/
def reserve (self : InMemoryMeter) (kind : Kind) (amount : UInt64) :
    Outcome PlugError (InMemoryMeter × ReservationId) :=
  if hroom : self.opened.length ≥ 1024 then .error .internal
  else
    let rem := self.remainings kind
    let remainings :=
      Function.update self.remainings kind (if rem ≥ amount then rem - amount else 0)
    if self.nextId.toNat + 1 < 2 ^ 64 then
      .ok ({ remainings
             nextId := self.nextId + 1
             opened := self.opened ++ [⟨self.nextId, kind, amount⟩]
             openLen_le := by rw [List.length_append, List.length_singleton]; omega },
            self.nextId)
    else .trap .overflow

/-- `consumeImpl`: the debit stays. -/
def consume (self : InMemoryMeter) (id : ReservationId) : InMemoryMeter :=
  self.removeReservation id

/-- `refundImpl`.  At most the amount on record is credited, with a checked addition. -/
def refund (self : InMemoryMeter) (id : ReservationId) (unused : UInt64) :
    Outcome PlugError InMemoryMeter :=
  match self.findReservation id with
  | none => .ok self
  | some r =>
    let refundAmount := min unused r.amount
    let rem := self.remainings r.kind
    if rem.toNat + refundAmount.toNat < 2 ^ 64 then
      .ok (({ self with
        remainings := Function.update self.remainings r.kind (rem + refundAmount) } :
          InMemoryMeter).removeReservation id)
    else .trap .overflow

/-- A call on the meter.  Nothing ties an id to an earlier `reserve`. -/
inductive Call where
  | reserve (kind : Kind) (amount : UInt64)
  | consume (id : ReservationId)
  | refund (id : ReservationId) (unused : UInt64)

/-- The meter after a call that returns; an error of `reserve` changes nothing. -/
def call (self : InMemoryMeter) : Call → Option InMemoryMeter
  | .reserve kind amount =>
    match self.reserve kind amount with
    | .ok (m, _) => some m
    | .error _ => some self
    | .trap _ => none
  | .consume id => some (self.consume id)
  | .refund id unused => (self.refund id unused).toOption

end InMemoryMeter

/-! ## The books -/

/-- An open reservation as the auditor has it: what it asked for, and what it took from the
balance. -/
structure Entry where
  kind : Kind
  amount : UInt64
  debit : ℕ

structure Books where
  entries : AList (fun _ : ReservationId => Entry) := ∅
  /-- What closed reservations have kept. -/
  settled : Kind → ℕ := fun _ => 0

namespace Books

/-- What the open reservations of a kind have taken. -/
def outstanding (self : Books) (kind : Kind) : ℕ :=
  self.entries.tally fun _ e => if e.kind = kind then e.debit else 0

/-- What is gone from the balance, for good or for now. -/
def debited (self : Books) (kind : Kind) : ℕ := self.settled kind + self.outstanding kind

/-- Close a reservation; `kept` of it stays debited. -/
def close (self : Books) (id : ReservationId) (kept : Entry → ℕ) : Books :=
  match self.entries.lookup id with
  | none => self
  | some e =>
    { entries := self.entries.erase id
      settled := Function.update self.settled e.kind (self.settled e.kind + kept e) }

/-- The entry for a call that meets the meter in the state `m`. -/
def enter (self : Books) (m : InMemoryMeter) : InMemoryMeter.Call → Books
  | .reserve kind amount =>
    if m.opened.length ≥ 1024 then self
    else
      { self with
        entries := self.entries.insert m.nextId
          ⟨kind, amount, min (m.remaining kind).toNat amount.toNat⟩ }
  | .consume id => self.close id fun e => e.debit
  | .refund id unused => self.close id fun e => e.debit - (min unused e.amount).toNat

end Books

/-- The meter and its books. -/
structure Audit where
  meter : InMemoryMeter
  books : Books := {}

namespace Audit

def init (initial : List (Kind × UInt64)) : Audit := { meter := InMemoryMeter.init initial }

/-- A call that returns, and its entry. -/
def step (self : Audit) (c : InMemoryMeter.Call) : Option Audit :=
  (self.meter.call c).map fun m => { meter := m, books := self.books.enter self.meter c }

/-- Balance and debits together. -/
def accounted (self : Audit) (kind : Kind) : ℕ :=
  (self.meter.remaining kind).toNat + self.books.debited kind

/-- The call hands back no more than its reservation has taken from the balance. -/
def WithinDebit (self : Audit) : InMemoryMeter.Call → Prop
  | .refund id unused =>
    ∀ e, self.books.entries.lookup id = some e → (min unused e.amount).toNat ≤ e.debit
  | _ => True

/-- The table and the books hold the same reservations, each under its own id, and the counter is
past all of them. -/
structure Agrees (m : InMemoryMeter) (b : Books) : Prop where
  nodup : (m.opened.map Reservation.id).Nodup
  lt_nextId : ∀ r ∈ m.opened, r.id.toNat < m.nextId.toNat
  same : ∀ r, r ∈ m.opened ↔ ∃ debit, b.entries.lookup r.id = some ⟨r.kind, r.amount, debit⟩

end Audit

/-! ## What one call can do -/

namespace InMemoryMeter

theorem reserve_eq_ok {self m : InMemoryMeter} {kind : Kind} {amount : UInt64} {id : ReservationId}
    (h : self.reserve kind amount = .ok (m, id)) :
    self.opened.length < 1024 ∧ self.nextId.toNat + 1 < 2 ^ 64 ∧
      m.opened = self.opened ++ [⟨self.nextId, kind, amount⟩] ∧ m.nextId = self.nextId + 1 ∧
      m.remainings = Function.update self.remainings kind
        (if self.remainings kind ≥ amount then self.remainings kind - amount else 0) := by
  unfold reserve at h
  split at h
  · simp at h
  · rename_i hroom
    split at h
    · rename_i hid
      obtain ⟨rfl, -⟩ := Prod.mk.inj (Outcome.ok.inj h)
      exact ⟨by omega, hid, rfl, rfl, rfl⟩
    · simp at h

theorem reserve_eq_error {self : InMemoryMeter} {kind : Kind} {amount : UInt64} {e : PlugError}
    (h : self.reserve kind amount = .error e) : 1024 ≤ self.opened.length := by
  unfold reserve at h
  split at h
  · assumption
  · split at h <;> simp at h

theorem refund_eq_ok {self m : InMemoryMeter} {id : ReservationId} {unused : UInt64}
    (h : self.refund id unused = .ok m) :
    (self.findReservation id = none ∧ m = self) ∨
      ∃ r, self.findReservation id = some r ∧ m.nextId = self.nextId ∧
        m.opened = self.opened.swapRemove (fun r => r.id == id) ∧
        (self.remainings r.kind).toNat + (min unused r.amount).toNat < 2 ^ 64 ∧
        m.remainings = Function.update self.remainings r.kind
          (self.remainings r.kind + min unused r.amount) := by
  unfold refund at h
  split at h
  · exact .inl ⟨‹_›, (Outcome.ok.inj h).symm⟩
  · rename_i r hfind
    dsimp only at h
    split at h
    · rename_i hfit
      obtain rfl := Outcome.ok.inj h
      exact .inr ⟨r, hfind, rfl, rfl, hfit, rfl⟩
    · simp at h

/-- What `reserve` takes from the balance. -/
theorem toNat_reserve_add (rem amount : UInt64) :
    (if rem ≥ amount then rem - amount else 0 : UInt64).toNat + min rem.toNat amount.toNat =
      rem.toNat := by
  split
  · rename_i hle
    have := UInt64.le_iff_toNat_le.mp hle
    rw [UInt64.toNat_sub_of_le _ _ hle]
    omega
  · rename_i hlt
    have := UInt64.le_iff_toNat_le.not.mp hlt
    rw [UInt64.toNat_zero]
    omega

end InMemoryMeter

namespace Books

theorem close_of_none {b : Books} {id : ReservationId} (h : b.entries.lookup id = none)
    (kept : Entry → ℕ) : b.close id kept = b := by
  rw [close, h]

theorem lookup_close {b : Books} {id : ReservationId} (kept : Entry → ℕ) (id' : ReservationId) :
    (b.close id kept).entries.lookup id' = if id' = id then none else b.entries.lookup id' := by
  unfold close
  split
  · split
    · rename_i hnone heq
      rw [heq, hnone]
    · rfl
  · split
    · rename_i heq
      rw [heq, AList.lookup_erase]
    · rename_i hne
      exact AList.lookup_erase_ne hne

/-- Closing moves what is kept from the open debits to the settled ones. -/
theorem debited_close {b : Books} {id : ReservationId} {e : Entry} (kept : Entry → ℕ)
    (h : b.entries.lookup id = some e) (kind : Kind) :
    (b.close id kept).debited kind + (if e.kind = kind then e.debit else 0) =
      b.debited kind + if e.kind = kind then kept e else 0 := by
  have hout := AList.tally_erase (fun _ e => if e.kind = kind then e.debit else 0) h
  have hset : (b.close id kept).settled kind =
      b.settled kind + if e.kind = kind then kept e else 0 := by
    simp only [close, h, Function.update_apply, eq_comm]
    split
    · rename_i heq
      rw [← heq]
    · rfl
  have hopen : (b.close id kept).outstanding kind =
      (b.entries.erase id).tally fun _ e => if e.kind = kind then e.debit else 0 := by
    simp only [close, h, outstanding]
  rw [debited, debited, hset, hopen, outstanding, hout]
  omega

end Books

namespace Audit

theorem agrees_init (initial : List (Kind × UInt64)) :
    Agrees (InMemoryMeter.init initial) {} where
  nodup := List.nodup_nil
  lt_nextId r hr := absurd hr (by simp [InMemoryMeter.init])
  same r := by simp [InMemoryMeter.init]

variable {m m' : InMemoryMeter} {b : Books}

/-- The reservation that the meter finds is the one in the books. -/
theorem Agrees.lookup_of_find (h : Agrees m b) {id : ReservationId} {r : Reservation}
    (hfind : m.findReservation id = some r) :
    ∃ debit, b.entries.lookup id = some ⟨r.kind, r.amount, debit⟩ := by
  obtain ⟨hmem, hid⟩ := (List.find?_key_eq_some h.nodup).mp hfind
  exact hid ▸ (h.same r).mp hmem

theorem Agrees.lookup_of_find_none (h : Agrees m b) {id : ReservationId}
    (hfind : m.findReservation id = none) : b.entries.lookup id = none := by
  rw [Option.eq_none_iff_forall_ne_some]
  rintro ⟨kind, amount, debit⟩ hlook
  have hmem : (⟨id, kind, amount⟩ : Reservation) ∈ m.opened := (h.same _).mpr ⟨debit, hlook⟩
  have := List.find?_eq_none.mp hfind _ hmem
  simp at this

/-- Table and books lose the same reservation. -/
theorem Agrees.close (h : Agrees m b) {id : ReservationId} (hid : m'.nextId = m.nextId)
    (hopen : m'.opened = m.opened.swapRemove fun r => r.id == id) (kept : Entry → ℕ) :
    Agrees m' (b.close id kept) := by
  have hmem (r : Reservation) : r ∈ m'.opened ↔ r ∈ m.opened ∧ r.id ≠ id := by
    rw [hopen, List.mem_swapRemove_key h.nodup]
  refine ⟨?_, ?_, fun r => ?_⟩
  · rw [hopen]
    exact List.nodup_map_swapRemove h.nodup _
  · intro r hr
    exact hid ▸ h.lt_nextId r ((hmem r).mp hr).1
  · rw [hmem, Books.lookup_close, h.same]
    by_cases hrid : r.id = id
    · simp [hrid]
    · simp [hrid]

/-- Table and books gain the same reservation, under an id that neither has had. -/
theorem Agrees.reserve (h : Agrees m b) {kind : Kind} {amount : UInt64} (debit : ℕ)
    (hnext : m.nextId.toNat + 1 < 2 ^ 64) (hid : m'.nextId = m.nextId + 1)
    (hopen : m'.opened = m.opened ++ [⟨m.nextId, kind, amount⟩]) :
    Agrees m' { b with entries := b.entries.insert m.nextId ⟨kind, amount, debit⟩ } := by
  have hsucc : m'.nextId.toNat = m.nextId.toNat + 1 := by
    rw [hid, UInt64.toNat_add, UInt64.toNat_one, Nat.mod_eq_of_lt hnext]
  have hfresh : ∀ r ∈ m.opened, r.id ≠ m.nextId := by
    intro r hr heq
    have := h.lt_nextId r hr
    rw [heq] at this
    omega
  refine ⟨?_, ?_, fun r => ?_⟩
  · rw [hopen, List.map_append, List.nodup_append_comm]
    refine List.nodup_cons.mpr ⟨?_, h.nodup⟩
    rintro hmem
    obtain ⟨r, hr, heq⟩ := List.mem_map.mp hmem
    exact hfresh r hr heq
  · intro r hr
    rw [hopen, List.mem_append, List.mem_singleton] at hr
    rcases hr with hr | rfl
    · have := h.lt_nextId r hr
      omega
    · dsimp only
      omega
  · rw [hopen, List.mem_append, List.mem_singleton]
    by_cases hrid : r.id = m.nextId
    · have hnot : r ∉ m.opened := fun hr => hfresh r hr hrid
      obtain ⟨id, k, a⟩ := r
      subst hrid
      simp [hnot, eq_comm]
    · have hne : r ≠ ⟨m.nextId, kind, amount⟩ := fun heq => hrid (by rw [heq])
      simp [hne, h.same, AList.lookup_insert_ne hrid]

theorem step_eq_some {a a' : Audit} {c : InMemoryMeter.Call} (h : a.step c = some a') :
    a.meter.call c = some a'.meter ∧ a'.books = a.books.enter a.meter c := by
  obtain ⟨m, hm, rfl⟩ := Option.map_eq_some_iff.mp h
  exact ⟨hm, rfl⟩

/-- Every call leaves the table and the books in agreement. -/
theorem agrees_step {a a' : Audit} {c : InMemoryMeter.Call} (hag : Agrees a.meter a.books)
    (h : a.step c = some a') : Agrees a'.meter a'.books := by
  obtain ⟨hcall, hbooks⟩ := step_eq_some h
  rw [hbooks]
  cases c with
  | reserve kind amount =>
    simp only [InMemoryMeter.call] at hcall
    split at hcall
    · rename_i m id hres
      obtain rfl := Option.some.inj hcall
      obtain ⟨hroom, hnext, hopen, hid, -⟩ := InMemoryMeter.reserve_eq_ok hres
      simp only [Books.enter, if_neg (Nat.not_le.mpr hroom)]
      exact hag.reserve _ hnext hid hopen
    · rename_i e hres
      have hfull := InMemoryMeter.reserve_eq_error hres
      simp only [Books.enter, if_pos hfull]
      exact Option.some.inj hcall ▸ hag
    · simp at hcall
  | consume id =>
    have hm : a.meter.consume id = a'.meter := Option.some.inj hcall
    exact hag.close (by rw [← hm]; rfl) (by rw [← hm]; rfl) _
  | refund id unused =>
    rcases InMemoryMeter.refund_eq_ok (Outcome.toOption_eq_some.mp hcall) with
      ⟨hfind, hm⟩ | ⟨r, -, hid, hopen, -, -⟩
    · rw [hm]
      simp only [Books.enter, Books.close_of_none (hag.lookup_of_find_none hfind)]
      exact hag
    · exact hag.close hid hopen _

/-- A reservation takes from the balance what goes into the books. -/
theorem accounted_reserve {a a' : Audit} {kind : Kind} {amount : UInt64}
    (hag : Agrees a.meter a.books) (h : a.step (.reserve kind amount) = some a') :
    a'.accounted = a.accounted := by
  obtain ⟨hcall, hbooks⟩ := step_eq_some h
  funext k
  rw [accounted, accounted, hbooks]
  simp only [InMemoryMeter.call] at hcall
  split at hcall
  · rename_i m id hres
    obtain ⟨hroom, -, -, -, hrem⟩ := InMemoryMeter.reserve_eq_ok hres
    obtain rfl := Option.some.inj hcall
    have hfresh : a.meter.nextId ∉ a.books.entries := by
      intro hmem
      obtain ⟨⟨k', a'', d⟩, hlook⟩ := Option.isSome_iff_exists.mp (AList.lookup_isSome.mpr hmem)
      exact absurd (hag.lt_nextId ⟨a.meter.nextId, k', a''⟩ ((hag.same _).mpr ⟨d, hlook⟩))
        (Nat.lt_irrefl _)
    simp only [Books.enter, if_neg (Nat.not_le.mpr hroom), Books.debited, Books.outstanding,
      AList.tally_insert_of_notMem _ _ hfresh, InMemoryMeter.remaining, hrem]
    by_cases hk : k = kind
    · subst hk
      have := InMemoryMeter.toNat_reserve_add (a.meter.remainings k) amount
      rw [Function.update_self, if_pos rfl]
      omega
    · rw [Function.update_of_ne hk, if_neg (Ne.symm hk)]
      omega
  · rename_i e hres
    have hfull := InMemoryMeter.reserve_eq_error hres
    rw [← Option.some.inj hcall]
    simp only [Books.enter, if_pos hfull]
  · simp at hcall

theorem accounted_consume {a a' : Audit} {id : ReservationId} (h : a.step (.consume id) = some a') :
    a'.accounted = a.accounted := by
  obtain ⟨hcall, hbooks⟩ := step_eq_some h
  funext k
  rw [accounted, accounted, hbooks, ← Option.some.inj hcall]
  simp only [Books.enter]
  cases hlook : a.books.entries.lookup id with
  | none =>
    rw [Books.close_of_none hlook]
    rfl
  | some e =>
    have := Books.debited_close (fun e => e.debit) hlook k
    simp only [InMemoryMeter.consume, InMemoryMeter.removeReservation, InMemoryMeter.remaining]
    omega

/-- A refund credits the balance with what is unused of the amount on record, and the books take
off what is unused of the debit. -/
theorem accounted_refund {a a' : Audit} {id : ReservationId} {unused : UInt64}
    (hag : Agrees a.meter a.books) (h : a.step (.refund id unused) = some a') (k : Kind) :
    a'.accounted k = a.accounted k +
      match a.books.entries.lookup id with
      | none => 0
      | some e => if e.kind = k then (min unused e.amount).toNat - e.debit else 0 := by
  obtain ⟨hcall, hbooks⟩ := step_eq_some h
  rw [accounted, accounted, hbooks]
  simp only [Books.enter]
  rcases InMemoryMeter.refund_eq_ok (Outcome.toOption_eq_some.mp hcall) with
    ⟨hfind, hm⟩ | ⟨r, hfind, -, -, hfit, hrem⟩
  · have hnone := hag.lookup_of_find_none hfind
    rw [hm, Books.close_of_none hnone, hnone, Nat.add_zero]
  · obtain ⟨debit, hlook⟩ := hag.lookup_of_find hfind
    have hclose := Books.debited_close (fun e => e.debit - (min unused e.amount).toNat) hlook k
    simp only [hlook, InMemoryMeter.remaining, hrem]
    by_cases hrk : k = r.kind
    · subst hrk
      simp only [if_true] at hclose ⊢
      rw [Function.update_self, UInt64.toNat_add, Nat.mod_eq_of_lt hfit]
      rcases Nat.le_total (min unused r.amount).toNat debit with hle | hle
      · rw [Nat.sub_eq_zero_of_le hle]
        omega
      · have := Nat.sub_add_cancel hle
        rw [Nat.sub_eq_zero_of_le hle] at hclose
        omega
    · simp only [if_neg (Ne.symm hrk)] at hclose ⊢
      rw [Function.update_of_ne hrk]
      omega

theorem accounted_le_step {a a' : Audit} {c : InMemoryMeter.Call} (hag : Agrees a.meter a.books)
    (h : a.step c = some a') : a.accounted ≤ a'.accounted := by
  cases c with
  | reserve kind amount => exact (accounted_reserve hag h).ge
  | consume id => exact (accounted_consume h).ge
  | refund id unused => exact fun k => accounted_refund hag h k ▸ Nat.le_add_right _ _

/-- The sum stays put exactly on the calls that stay within the debit. -/
theorem accounted_step_iff {a a' : Audit} {c : InMemoryMeter.Call}
    (hag : Agrees a.meter a.books) (h : a.step c = some a') :
    a'.accounted = a.accounted ↔ a.WithinDebit c := by
  cases c with
  | reserve kind amount => exact iff_of_true (accounted_reserve hag h) trivial
  | consume id => exact iff_of_true (accounted_consume h) trivial
  | refund id unused =>
    have hkey := accounted_refund hag h
    rw [WithinDebit, funext_iff]
    cases hlook : a.books.entries.lookup id with
    | none => simp only [hkey, hlook, Nat.add_zero, implies_true, reduceCtorEq, false_implies]
    | some e =>
      simp only [hlook] at hkey
      constructor
      · rintro heq e' he'
        obtain rfl := Option.some.inj he'
        have := heq e.kind
        rw [hkey e.kind, if_pos rfl] at this
        omega
      · intro hle k
        rw [hkey k, Nat.sub_eq_zero_of_le (hle e rfl), ite_self, Nat.add_zero]

theorem accounted_init (initial : List (Kind × UInt64)) (kind : Kind) :
    (init initial).accounted kind = ((InMemoryMeter.init initial).remaining kind).toNat := by
  simp [accounted, init, Books.debited, Books.outstanding]

/-- No more is left of any kind than there was at first, and what is missing is what the books
have as debited. -/
def Balances (initial : List (Kind × UInt64)) (self : Audit) : Prop :=
  ∀ kind, self.meter.remaining kind ≤ (InMemoryMeter.init initial).remaining kind ∧
    (self.meter.remaining kind).toNat + self.books.debited kind =
      ((InMemoryMeter.init initial).remaining kind).toNat

theorem balances_iff_accounted {initial : List (Kind × UInt64)} {a : Audit} :
    Balances initial a ↔ a.accounted = (init initial).accounted := by
  rw [funext_iff]
  refine forall_congr' fun kind => ?_
  rw [accounted_init, accounted, and_iff_right_iff_imp, UInt64.le_iff_toNat_le]
  omega

end Audit

/-- **The meter keeps its budget exactly as long as no refund hands back more than its reservation
took.**  After any list of calls that return, the balances have stayed within the initial budget
and differ from it by the debits, if and only if every refund so far was within the debit of its
reservation. -/
theorem meter_balances_iff {initial : List (Kind × UInt64)} {calls : List InMemoryMeter.Call}
    {a : Audit} (h : StepMachine.run Audit.step (Audit.init initial) calls = some a) :
    Audit.Balances initial a ↔
      StepMachine.Along Audit.step Audit.WithinDebit (Audit.init initial) calls := by
  rw [Audit.balances_iff_accounted]
  exact StepMachine.run_eq_iff_along (I := fun a => Audit.Agrees a.meter a.books)
    (fun _ _ _ => Audit.agrees_step) (fun _ _ _ => Audit.accounted_le_step)
    (fun _ _ _ => Audit.accounted_step_iff) (Audit.agrees_init initial) h

/-- Of ten tokens, thirty are asked for and five handed back. -/
theorem meter_balances_ten_thirty_five :
    ∃ a, StepMachine.run Audit.step (Audit.init [(.tokens, 10)])
        [.reserve .tokens 30, .refund 1 5] = some a ∧
      a.meter.remaining .tokens = 5 ∧ Audit.Balances [(.tokens, 10)] a := by
  have hrun := show StepMachine.run Audit.step (Audit.init [(.tokens, 10)])
    [.reserve .tokens 30, .refund 1 5] = some _ from rfl
  refine ⟨_, hrun, rfl, (meter_balances_iff hrun).mpr ⟨trivial, ?_⟩⟩
  rintro a ha
  obtain rfl := Option.some.inj ha
  refine ⟨fun e he => ?_, fun _ _ => trivial⟩
  obtain rfl := Option.some.inj he
  decide

/-- Of ten tokens, a hundred are asked for and all handed back: there are a hundred now. -/
theorem not_meter_balances :
    ∃ a, StepMachine.run Audit.step (Audit.init [(.tokens, 10)])
        [.reserve .tokens 100, .refund 1 100] = some a ∧
      a.meter.remaining .tokens = 100 ∧ ¬ Audit.Balances [(.tokens, 10)] a :=
  ⟨_, rfl, rfl, fun h => absurd (h .tokens).1 (by decide)⟩

end Meter
end TigerClaw
