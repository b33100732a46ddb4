import Mathlib.Algebra.Group.Nat.Defs
import Mathlib.Data.List.Nodup
import Mathlib.Data.List.Sort
import Mathlib.Logic.Function.Basic
import TigerClaw.Library.StepMachine

/-!
# The hook bus

`src/hook_bus.zig`.  Handlers are subscribed to events, and a fire runs those of its event in the
order of their priorities.  A handler may unsubscribe handlers while the fire runs, which shifts the
list that the loop walks over.

* `subscribe`, `unsubscribe`, `fire`: the code.  The loop is over the slice that the list had at its
  beginning; what a removal leaves behind the end of the list is undefined.
* `turns`: who should be called.  `Right`: a fire calls them, and nobody else.
* `fire_right_iff`: a fire is right exactly when nobody but the last one unsubscribes a handler of
  the event.
-/

namespace TigerClaw
namespace Runtime

namespace HookBus

/-- The value of the enumeration, which is open. -/
abbrev HookEvent : Type := UInt16

structure Subscription where
  event : HookEvent
  id : ℕ
  deriving DecidableEq

structure SubscriberRecord (η : Type*) where
  id : ℕ
  priority : ℤ
  seq : ℕ
  handler : η

variable {η ε : Type*}

/-- `lt` of the sort, or equal numbers. -/
def SubscriberRecord.Before (a b : SubscriberRecord η) : Prop :=
  a.priority < b.priority ∨ a.priority = b.priority ∧ a.seq ≤ b.seq

instance decidableBefore (a b : SubscriberRecord η) : Decidable (a.Before b) :=
  inferInstanceAs (Decidable (_ ∨ _))

structure Bus (η : Type*) where
  subs : HookEvent → List (SubscriberRecord η) := fun _ => []
  nextId : ℕ := 0
  nextSeq : ℕ := 0

/-- Where the allocator can refuse. -/
inductive Fault where
  | getOrPut
  | append
  deriving DecidableEq

namespace Bus

/-- `subscribe`; none when a counter is at its end. -/
def subscribe (self : Bus η) (event : HookEvent) (handler : η) (priority : ℤ)
    (fault : Option Fault) : Option (Bus η × Option Subscription) :=
  if fault = some .getOrPut then some (self, none)
  else if self.nextId + 1 = 2 ^ 32 ∨ self.nextSeq + 1 = 2 ^ 32 then none
  else
    let counted : Bus η := { self with nextId := self.nextId + 1, nextSeq := self.nextSeq + 1 }
    if fault = some .append then some (counted, none)
    else
      let record := { id := self.nextId, priority, seq := self.nextSeq, handler }
      some ({ counted with
        subs := Function.update self.subs event
          ((self.subs event ++ [record]).insertionSort SubscriberRecord.Before) },
        some ⟨event, self.nextId⟩)

def unsubscribe (self : Bus η) (sub : Subscription) : Bus η :=
  { self with
    subs := Function.update self.subs sub.event
      ((self.subs sub.event).eraseP fun s => s.id = sub.id) }

def unsubscribeAll (self : Bus η) (subs : List Subscription) : Bus η :=
  subs.foldl unsubscribe self

end Bus

/-- What a handler does when it is called after others: whom it unsubscribes, and what it
returns. -/
abbrev Behaviour (η ε : Type*) : Type _ :=
  List (SubscriberRecord η) → SubscriberRecord η → List Subscription × Except ε Unit

/-- How a fire ends. -/
inductive Ending (ε : Type*) where
  | returned
  | failed (e : ε)
  /-- A slot of the slice is read that no longer belongs to the list. -/
  | undefined

structure Fired (η ε : Type*) where
  bus : Bus η
  calls : List (SubscriberRecord η)
  ending : Ending ε

/-- The loop, with the slots that are left. -/
def fireFrom (behave : Behaviour η ε) (event : HookEvent) :
    ℕ → Bus η → List (SubscriberRecord η) → ℕ → Fired η ε
  | _, bus, calls, 0 => ⟨bus, calls, .returned⟩
  | i, bus, calls, left + 1 =>
    match (bus.subs event)[i]? with
    | none => ⟨bus, calls, .undefined⟩
    | some s =>
      let done := bus.unsubscribeAll (behave calls s).1
      match (behave calls s).2 with
      | .error e => ⟨done, calls ++ [s], .failed e⟩
      | .ok _ => fireFrom behave event (i + 1) done (calls ++ [s]) left

def Bus.fire (self : Bus η) (behave : Behaviour η ε) (event : HookEvent) : Fired η ε :=
  fireFrom behave event 0 self [] (self.subs event).length

def Bus.subscriberCount (self : Bus η) (event : HookEvent) : ℕ := (self.subs event).length

/-! ## Who should be called -/

/-- Of those that were subscribed, each is called unless it is not subscribed any more. -/
def turns (behave : Behaviour η ε) (event : HookEvent) :
    List (SubscriberRecord η) → Bus η → List (SubscriberRecord η) →
      Bus η × List (SubscriberRecord η)
  | [], bus, calls => (bus, calls)
  | s :: rest, bus, calls =>
    if (bus.subs event).any fun r => r.id = s.id then
      turns behave event rest (bus.unsubscribeAll (behave calls s).1) (calls ++ [s])
    else turns behave event rest bus calls

/-- Whom the calls unsubscribe. -/
def asked (behave : Behaviour η ε) :
    List (SubscriberRecord η) → List (SubscriberRecord η) → List Subscription
  | _, [] => []
  | before, s :: rest => (behave before s).1 ++ asked behave (before ++ [s]) rest

/-- No handler returns an error. -/
def NoErrors (behave : Behaviour η ε) : Prop := ∀ calls s, (behave calls s).2 = .ok ()

/-- **A fire is right**: it calls who should be called, once and in order, and leaves those who were
not unsubscribed to the next one. -/
structure Right (bus : Bus η) (behave : Behaviour η ε) (event : HookEvent) : Prop where
  returned : (bus.fire behave event).ending = .returned
  calls : (bus.fire behave event).calls = (turns behave event (bus.subs event) bus []).2
  ordered : (bus.fire behave event).calls.Pairwise fun a b => a.Before b ∧ a.id ≠ b.id
  next : ∀ behave' : Behaviour η ε, (∀ calls s, behave' calls s = ([], .ok ())) →
    ((bus.fire behave event).bus.fire behave' event).calls =
      (bus.subs event).filter fun s =>
        decide (⟨event, s.id⟩ ∉ asked behave [] (bus.fire behave event).calls)

/-- Nobody but the last one unsubscribes a handler of the event. -/
def Careful (bus : Bus η) (behave : Behaviour η ε) (event : HookEvent) : Prop :=
  ∀ before s after, bus.subs event = before ++ s :: after → after ≠ [] →
    ∀ r ∈ bus.subs event, ⟨event, r.id⟩ ∉ (behave before s).1

/-! ## Removing -/

theorem Bus.unsubscribeAll_append (self : Bus η) (as bs : List Subscription) :
    self.unsubscribeAll (as ++ bs) = (self.unsubscribeAll as).unsubscribeAll bs :=
  List.foldl_append

/-- The identities of a list are its own. -/
def Distinct (subs : List (SubscriberRecord η)) : Prop := (subs.map SubscriberRecord.id).Nodup

theorem Distinct.eraseP {subs : List (SubscriberRecord η)} (h : Distinct subs) (id : ℕ) :
    (subs.eraseP fun s => s.id = id) = subs.filter fun s => s.id ≠ id := by
  induction subs with
  | nil => rfl
  | cons s rest ih =>
    obtain ⟨hs, hrest⟩ := List.nodup_cons.mp h
    by_cases hid : s.id = id
    · rw [List.eraseP_cons_of_pos (by simpa using hid),
        List.filter_cons_of_neg (by simpa using hid)]
      refine (List.filter_eq_self.mpr fun r hr => ?_).symm
      rw [decide_eq_true_eq]
      rintro rfl
      exact hs (hid ▸ List.mem_map_of_mem hr)
    · rw [List.eraseP_cons_of_neg (by simpa using hid),
        List.filter_cons_of_pos (by simpa using hid), ih hrest]

theorem Distinct.filter {subs : List (SubscriberRecord η)} (h : Distinct subs)
    (p : SubscriberRecord η → Bool) : Distinct (subs.filter p) :=
  List.Nodup.sublist (List.filter_sublist.map _) h

theorem Bus.subs_unsubscribe {self : Bus η} {event : HookEvent} (h : Distinct (self.subs event))
    (sub : Subscription) :
    (self.unsubscribe sub).subs event =
      (self.subs event).filter fun s => decide ((⟨event, s.id⟩ : Subscription) ≠ sub) := by
  by_cases hevent : event = sub.event
  · subst hevent
    rw [unsubscribe]
    dsimp only
    rw [Function.update_self, h.eraseP]
    refine List.filter_congr fun s _ => ?_
    have hiff : s.id ≠ sub.id ↔ (⟨sub.event, s.id⟩ : Subscription) ≠ sub := by
      cases sub
      simp
    exact decide_eq_decide.mpr hiff
  · rw [unsubscribe]
    dsimp only
    rw [Function.update_of_ne hevent]
    refine (List.filter_eq_self.mpr fun s _ => decide_eq_true ?_).symm
    rintro rfl
    exact hevent rfl

/-- **What is left** after any unsubscribes. -/
theorem Bus.subs_unsubscribeAll {self : Bus η} {event : HookEvent}
    (h : Distinct (self.subs event)) (subs : List Subscription) :
    (self.unsubscribeAll subs).subs event =
      (self.subs event).filter fun s => decide (⟨event, s.id⟩ ∉ subs) := by
  induction subs generalizing self with
  | nil => simp [unsubscribeAll]
  | cons sub rest ih =>
    have hone := self.subs_unsubscribe h sub
    have hstep : self.unsubscribeAll (sub :: rest) =
        (self.unsubscribe sub).unsubscribeAll rest := rfl
    rw [hstep, ih (hone ▸ h.filter _), hone, List.filter_filter]
    refine List.filter_congr fun s _ => ?_
    simp [List.mem_cons, not_or, Bool.and_comm]

/-- Whom nobody of the list is affected by. -/
theorem Bus.subs_unsubscribeAll_of_disjoint {self : Bus η} {event : HookEvent}
    (h : Distinct (self.subs event)) {subs : List Subscription}
    (hsubs : ∀ r ∈ self.subs event, ⟨event, r.id⟩ ∉ subs) :
    (self.unsubscribeAll subs).subs event = self.subs event := by
  rw [subs_unsubscribeAll h]
  exact List.filter_eq_self.mpr fun r hr => decide_eq_true (hsubs r hr)

theorem Bus.length_unsubscribeAll_lt {self : Bus η} {event : HookEvent}
    (h : Distinct (self.subs event)) {subs : List Subscription} {r : SubscriberRecord η}
    (hr : r ∈ self.subs event) (hsub : ⟨event, r.id⟩ ∈ subs) :
    ((self.unsubscribeAll subs).subs event).length < (self.subs event).length := by
  rw [subs_unsubscribeAll h]
  refine List.length_filter_lt_length_iff_exists.mpr ⟨r, hr, ?_⟩
  simpa using hsub

theorem Bus.length_unsubscribeAll_le {self : Bus η} {event : HookEvent}
    (h : Distinct (self.subs event)) (subs : List Subscription) :
    ((self.unsubscribeAll subs).subs event).length ≤ (self.subs event).length := by
  rw [subs_unsubscribeAll h]
  exact List.length_filter_le _ _

theorem Bus.distinct_unsubscribeAll {self : Bus η} {event : HookEvent}
    (h : Distinct (self.subs event)) (subs : List Subscription) :
    Distinct ((self.unsubscribeAll subs).subs event) := by
  rw [subs_unsubscribeAll h]
  exact h.filter _

/-! ## Fires -/

section Fire

variable {behave : Behaviour η ε} {event : HookEvent}

theorem fireFrom_succ (hbehave : NoErrors behave) {i left : ℕ} {bus : Bus η}
    {calls : List (SubscriberRecord η)} {s : SubscriberRecord η}
    (hs : (bus.subs event)[i]? = some s) :
    fireFrom behave event i bus calls (left + 1) =
      fireFrom behave event (i + 1) (bus.unsubscribeAll (behave calls s).1) (calls ++ [s])
        left := by
  rw [fireFrom, hs]
  dsimp only
  rw [hbehave calls s]

/-- **A list that has become shorter** is walked over to its end and beyond. -/
theorem fireFrom_of_short (hbehave : NoErrors behave) {i left : ℕ} {bus : Bus η}
    {calls : List (SubscriberRecord η)} (hdistinct : Distinct (bus.subs event)) (hleft : 0 < left)
    (hshort : (bus.subs event).length < i + left) :
    (fireFrom behave event i bus calls left).ending = .undefined := by
  induction left generalizing i bus calls with
  | zero => exact absurd hleft (lt_irrefl 0)
  | succ left ih =>
    cases hs : (bus.subs event)[i]? with
    | none =>
      rw [fireFrom, hs]
    | some s =>
      have hi := (List.getElem?_eq_some_iff.mp hs).1
      have hlength := bus.length_unsubscribeAll_le hdistinct (behave calls s).1
      rw [fireFrom_succ hbehave hs]
      exact ih (bus.distinct_unsubscribeAll hdistinct _) (by omega) (by omega)

/-- A fire in which the list does not change before the last call. -/
theorem fireFrom_of_careful (hbehave : NoErrors behave) {bus : Bus η}
    {before rest : List (SubscriberRecord η)} (hdistinct : Distinct (before ++ rest))
    (hsubs : bus.subs event = before ++ rest)
    (hcareful : ∀ front s after, rest = front ++ s :: after → after ≠ [] →
      ∀ r ∈ before ++ rest, ⟨event, r.id⟩ ∉ (behave (before ++ front) s).1) :
    fireFrom behave event before.length bus before rest.length =
        ⟨bus.unsubscribeAll (asked behave before rest), before ++ rest, .returned⟩ ∧
      turns behave event rest bus before =
        (bus.unsubscribeAll (asked behave before rest), before ++ rest) := by
  induction rest generalizing before bus with
  | nil =>
    rw [List.append_nil]
    exact ⟨rfl, rfl⟩
  | cons s rest ih =>
    have hs : (bus.subs event)[before.length]? = some s := by
      rw [hsubs, List.getElem?_append_right (le_refl _), Nat.sub_self]
      rfl
    have hsubscribed : (bus.subs event).any (fun r => r.id = s.id) = true := by
      rw [hsubs, List.any_eq_true]
      exact ⟨s, by simp, decide_eq_true rfl⟩
    have hask : bus.unsubscribeAll (asked behave before (s :: rest)) =
        (bus.unsubscribeAll (behave before s).1).unsubscribeAll
          (asked behave (before ++ [s]) rest) := by
      rw [asked, Bus.unsubscribeAll_append]
    have hlength : before.length + 1 = (before ++ [s]).length := by
      rw [List.length_append, List.length_singleton]
    rw [List.length_cons, fireFrom_succ hbehave hs, turns, if_pos hsubscribed, hask, hlength,
      List.append_cons before s rest]
    cases rest with
    | nil => exact ⟨by rw [List.append_nil]; rfl, by rw [List.append_nil]; rfl⟩
    | cons s' rest =>
      have hkeep : (bus.unsubscribeAll (behave before s).1).subs event =
          before ++ s :: s' :: rest := by
        rw [Bus.subs_unsubscribeAll_of_disjoint (hsubs ▸ hdistinct), hsubs]
        rw [hsubs]
        have hnone := hcareful [] s (s' :: rest) rfl (List.cons_ne_nil _ _)
        rwa [List.append_nil] at hnone
      rw [List.append_cons] at hdistinct hkeep
      refine ih hdistinct hkeep fun front r after hrest hafter => ?_
      have hnone := hcareful (s :: front) r after (by rw [hrest, List.cons_append]) hafter
      rwa [List.append_cons before s front, List.append_cons before s] at hnone

/-- A fire that returns did not change the list before the last call. -/
theorem careful_of_fireFrom (hbehave : NoErrors behave) {bus : Bus η}
    {before rest : List (SubscriberRecord η)} (hdistinct : Distinct (before ++ rest))
    (hsubs : bus.subs event = before ++ rest)
    (hreturned : (fireFrom behave event before.length bus before rest.length).ending = .returned) :
    ∀ front s after, rest = front ++ s :: after → after ≠ [] →
      ∀ r ∈ before ++ rest, ⟨event, r.id⟩ ∉ (behave (before ++ front) s).1 := by
  induction rest generalizing before bus with
  | nil =>
    intro front s after hrest
    exact absurd hrest.symm (by simp)
  | cons s rest ih =>
    have hs : (bus.subs event)[before.length]? = some s := by
      rw [hsubs, List.getElem?_append_right (le_refl _), Nat.sub_self]
      rfl
    have hlength : before.length + 1 = (before ++ [s]).length := by
      rw [List.length_append, List.length_singleton]
    rw [List.length_cons, fireFrom_succ hbehave hs] at hreturned
    intro front r after hrest hafter
    have hne : rest ≠ [] := by
      rintro rfl
      cases front with
      | nil => exact hafter (List.cons.inj hrest).2.symm
      | cons f front => exact absurd (List.cons.inj hrest).2.symm (by simp)
    have hnone : ∀ r ∈ before ++ s :: rest, ⟨event, r.id⟩ ∉ (behave before s).1 := by
      intro r hr hsub
      have hlt := bus.length_unsubscribeAll_lt (hsubs ▸ hdistinct) (hsubs ▸ hr) hsub
      have hpos := List.length_pos_iff.mpr hne
      rw [fireFrom_of_short hbehave (bus.distinct_unsubscribeAll (hsubs ▸ hdistinct) _) hpos
        (by rw [hsubs, List.length_append, List.length_cons] at hlt; omega)] at hreturned
      cases hreturned
    cases front with
    | nil =>
      obtain ⟨rfl, -⟩ := List.cons.inj hrest
      rwa [List.append_nil]
    | cons f front =>
      obtain ⟨rfl, htail⟩ := List.cons.inj hrest
      have hkeep : (bus.unsubscribeAll (behave before s).1).subs event = before ++ s :: rest := by
        rw [Bus.subs_unsubscribeAll_of_disjoint (hsubs ▸ hdistinct), hsubs]
        rwa [hsubs]
      rw [hlength] at hreturned
      rw [List.append_cons] at hdistinct hkeep ⊢
      rw [List.append_cons before s front]
      exact ih hdistinct hkeep hreturned front r after htail hafter

end Fire

/-! ## Runs -/

/-- What a program does with a bus. -/
inductive Action (η ε : Type*) where
  | subscribe (event : HookEvent) (handler : η) (priority : ℤ) (fault : Option Fault)
  | unsubscribe (sub : Subscription)
  | fire (behave : Behaviour η ε) (event : HookEvent)

/-- One action.  After an overflow, or a read of what is undefined, there is no state. -/
def step (bus : Bus η) : Action η ε → Option (Bus η)
  | .subscribe event handler priority fault =>
    (bus.subscribe event handler priority fault).map Prod.fst
  | .unsubscribe sub => some (bus.unsubscribe sub)
  | .fire behave event =>
    match (bus.fire behave event).ending with
    | .undefined => none
    | _ => some (bus.fire behave event).bus

/-- What every reachable bus is like. -/
structure Valid (bus : Bus η) : Prop where
  ordered : ∀ event, (bus.subs event).Pairwise SubscriberRecord.Before
  distinct : ∀ event, Distinct (bus.subs event)
  below : ∀ event, ∀ s ∈ bus.subs event, s.id < bus.nextId

instance total_before : Std.Total (SubscriberRecord.Before (η := η)) where
  total a b := by
    unfold SubscriberRecord.Before
    omega

instance trans_before : IsTrans (SubscriberRecord η) SubscriberRecord.Before where
  trans a b c := by
    unfold SubscriberRecord.Before
    omega

theorem Valid.unsubscribe {bus : Bus η} (h : Valid bus) (sub : Subscription) :
    Valid (bus.unsubscribe sub) := by
  have hsublist (event : HookEvent) :
      ((bus.unsubscribe sub).subs event).Sublist (bus.subs event) := by
    rw [Bus.subs_unsubscribe (h.distinct event)]
    exact List.filter_sublist
  exact ⟨fun event => (h.ordered event).sublist (hsublist event),
    fun event => List.Nodup.sublist ((hsublist event).map _) (h.distinct event),
    fun event s hs => h.below event s ((hsublist event).subset hs)⟩

theorem Valid.unsubscribeAll {bus : Bus η} (h : Valid bus) (subs : List Subscription) :
    Valid (bus.unsubscribeAll subs) := by
  induction subs generalizing bus with
  | nil => exact h
  | cons sub rest ih => exact ih (h.unsubscribe sub)

/-- A counter goes up, and nobody is subscribed. -/
theorem Valid.counted {bus : Bus η} (h : Valid bus) :
    Valid { bus with nextId := bus.nextId + 1, nextSeq := bus.nextSeq + 1 } :=
  ⟨h.ordered, h.distinct, fun event s hs => Nat.lt_succ_of_lt (h.below event s hs)⟩

/-- The new handler comes where it belongs. -/
theorem Valid.inserted {bus : Bus η} (h : Valid bus) (event : HookEvent)
    {record : SubscriberRecord η} (hrecord : record.id = bus.nextId) :
    Valid { bus with
      nextId := bus.nextId + 1
      nextSeq := bus.nextSeq + 1
      subs := Function.update bus.subs event
        ((bus.subs event ++ [record]).insertionSort SubscriberRecord.Before) } := by
  have hperm := List.perm_insertionSort SubscriberRecord.Before (bus.subs event ++ [record])
  have hfresh : Distinct (bus.subs event ++ [record]) := by
    rw [Distinct, List.map_append, List.nodup_append]
    refine ⟨h.distinct event, List.nodup_singleton _, ?_⟩
    intro a ha b hb
    obtain ⟨s, hs, rfl⟩ := List.mem_map.mp ha
    rw [List.map_singleton, List.mem_singleton, hrecord] at hb
    exact hb ▸ Nat.ne_of_lt (h.below event s hs)
  refine ⟨fun e => ?_, fun e => ?_, fun e s hs => ?_⟩ <;> dsimp only at *
  · by_cases he : e = event
    · subst he
      rw [Function.update_self]
      exact List.pairwise_insertionSort _ _
    · rw [Function.update_of_ne he]
      exact h.ordered e
  · by_cases he : e = event
    · subst he
      rw [Function.update_self]
      exact (hperm.map _).nodup_iff.mpr hfresh
    · rw [Function.update_of_ne he]
      exact h.distinct e
  · by_cases he : e = event
    · subst he
      rw [Function.update_self] at hs
      rcases List.mem_append.mp (hperm.mem_iff.mp hs) with hold | hnew
      · exact Nat.lt_succ_of_lt (h.below e s hold)
      · rw [List.mem_singleton.mp hnew, hrecord]
        exact Nat.lt_succ_self _
    · rw [Function.update_of_ne he] at hs
      exact Nat.lt_succ_of_lt (h.below e s hs)

theorem Valid.subscribe {bus : Bus η} (h : Valid bus) {event : HookEvent} {handler : η}
    {priority : ℤ} {fault : Option Fault} {done : Bus η × Option Subscription}
    (hdone : bus.subscribe event handler priority fault = some done) : Valid done.1 := by
  unfold Bus.subscribe at hdone
  split at hdone
  · exact Option.some.inj hdone ▸ h
  · split at hdone
    · cases hdone
    · dsimp only at hdone
      split at hdone
      · exact Option.some.inj hdone ▸ h.counted
      · exact Option.some.inj hdone ▸ h.inserted event rfl

theorem Valid.fireFrom {behave : Behaviour η ε} {event : HookEvent} {i left : ℕ} {bus : Bus η}
    {calls : List (SubscriberRecord η)} (h : Valid bus) :
    Valid (fireFrom behave event i bus calls left).bus := by
  induction left generalizing i bus calls with
  | zero => exact h
  | succ left ih =>
    rw [HookBus.fireFrom]
    split
    · exact h
    · dsimp only
      split
      · exact h.unsubscribeAll _
      · exact ih (h.unsubscribeAll _)

/-- **Every action keeps a bus valid.** -/
theorem Valid.step {bus bus' : Bus η} {action : Action η ε} (h : Valid bus)
    (hstep : step bus action = some bus') : Valid bus' := by
  cases action with
  | subscribe event handler priority fault =>
    obtain ⟨done, hdone, rfl⟩ := Option.map_eq_some_iff.mp hstep
    exact h.subscribe hdone
  | unsubscribe sub => exact Option.some.inj hstep ▸ h.unsubscribe sub
  | fire behave event =>
    unfold HookBus.step at hstep
    dsimp only at hstep
    split at hstep
    · cases hstep
    · exact Option.some.inj hstep ▸ h.fireFrom

theorem valid_empty : Valid ({} : Bus η) where
  ordered _ := List.Pairwise.nil
  distinct _ := List.nodup_nil
  below _ _ hs := absurd hs List.not_mem_nil

theorem valid_run {actions : List (Action η ε)} {bus : Bus η}
    (h : StepMachine.run step {} actions = some bus) : Valid bus :=
  StepMachine.invariant_run (fun _ _ _ hvalid hstep => hvalid.step hstep) valid_empty h

/-- A fire that nobody disturbs calls the whole list. -/
theorem Bus.calls_fire_of_silent {bus : Bus η} {behave : Behaviour η ε} {event : HookEvent}
    (hdistinct : Distinct (bus.subs event)) (hsilent : ∀ calls s, behave calls s = ([], .ok ())) :
    (bus.fire behave event).calls = bus.subs event := by
  have hbehave : NoErrors behave := fun calls s => by rw [hsilent]
  have hcareful : Careful bus behave event := fun before s _ _ _ r _ => by
    rw [hsilent]
    exact List.not_mem_nil
  exact congrArg Fired.calls
    (@fireFrom_of_careful _ _ behave event hbehave bus [] _ hdistinct rfl hcareful).1

/-- **When a fire is right**: exactly if no handler but the last one in the order unsubscribes a
handler of the event that is fired. -/
theorem fire_right_iff {actions : List (Action η ε)} {bus : Bus η} {behave : Behaviour η ε}
    {event : HookEvent} (hrun : StepMachine.run step {} actions = some bus)
    (hbehave : NoErrors behave) : Right bus behave event ↔ Careful bus behave event := by
  have hvalid := valid_run hrun
  have hdistinct := hvalid.distinct event
  constructor
  · intro hright before s after hsubs hafter
    exact @careful_of_fireFrom _ _ behave event hbehave bus [] _ hdistinct rfl hright.returned
      before s after hsubs hafter
  · intro hcareful
    obtain ⟨hfire, hturns⟩ :=
      @fireFrom_of_careful _ _ behave event hbehave bus [] _ hdistinct rfl hcareful
    have hfired : bus.fire behave event =
        ⟨bus.unsubscribeAll (asked behave [] (bus.subs event)), bus.subs event, .returned⟩ := hfire
    refine ⟨by rw [hfired], by rw [hfired, hturns]; rfl, ?_, fun behave' hsilent => ?_⟩
    · rw [hfired]
      exact (hvalid.ordered event).and (List.pairwise_map.mp hdistinct)
    · rw [hfired]
      dsimp only
      rw [Bus.calls_fire_of_silent (Bus.distinct_unsubscribeAll hdistinct _) hsilent,
        Bus.subs_unsubscribeAll hdistinct]

/-- Three handlers of one event. -/
def three : List (Action ℕ Unit) :=
  [.subscribe 3 10 0 none, .subscribe 3 11 0 none, .subscribe 3 12 0 none]

/-- The third call removes the first handler, which has been called. -/
theorem fire_right_iff_last : ∃ bus : Bus ℕ, StepMachine.run step {} three = some bus ∧
    @Right ℕ Unit bus (fun calls _ => (if calls.length = 2 then [⟨3, 0⟩] else [], .ok ())) 3 := by
  refine ⟨_, rfl, (@fire_right_iff _ _ three _ _ _ rfl fun _ _ => rfl).mpr ?_⟩
  intro before s after hsubs hafter r _
  have hlength := congrArg List.length hsubs
  rw [List.length_append, List.length_cons] at hlength
  have hpos := List.length_pos_iff.mpr hafter
  have hthree : 3 = before.length + (after.length + 1) := hlength
  dsimp only
  rw [if_neg (by omega)]
  exact List.not_mem_nil

/-- The first of three handlers unsubscribes itself: the second one is not called, and the loop
reads behind the end of the list. -/
theorem fire_skips : ∃ bus : Bus ℕ, StepMachine.run step {} three = some bus ∧
    ∃ behave : Behaviour ℕ Unit, NoErrors behave ∧
      (bus.fire behave 3).calls.map SubscriberRecord.id = [0, 2] ∧
      (turns behave 3 (bus.subs 3) bus []).2.map SubscriberRecord.id = [0, 1, 2] ∧
      ¬ Right bus behave 3 := by
  refine ⟨_, rfl, fun _ s => (if s.id = 0 then [⟨3, 0⟩] else [], .ok ()), fun _ _ => rfl, by decide,
    by decide, fun hright => ?_⟩
  exact absurd (congrArg (List.map SubscriberRecord.id) hright.calls) (by decide)

end HookBus

end Runtime
end TigerClaw
