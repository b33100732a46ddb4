import Mathlib.Algebra.Group.Nat.Defs
import TigerClaw.Basic
import TigerClaw.Library.GrowBuffer
import TigerClaw.Library.StepMachine

/-!
# Prepared statements

The text parameters of a statement are kept in one buffer, and SQLite is told where they stand in
it.  It goes on reading there until the parameter is bound again, also after a reset.

* `Stmt`, `bindText`, `bindInt`, `bindNull`, `reset`: the code, from `src/db/sqlite.zig`.
* `Bound`: every parameter reads what it was last bound to.
* `bound_next_iff`: a call keeps this exactly if it leaves the texts of the other parameters where
  they are, as they are.
-/

namespace TigerClaw
namespace Db

open GrowBuffer (View)
open StepMachine (run)

inductive Error where
  | bindFailed
  | stepFailed
  | outOfMemory

/-- What a parameter is bound to, for the caller. -/
inductive Value where
  | text (s : Bytes)
  | int (n : ℤ)
  | null
  deriving DecidableEq

/-- What SQLite keeps of it. -/
inductive Binding where
  | text (owned : View)
  | int (n : ℤ)
  | null

structure Stmt where
  scratch : GrowBuffer UInt8
  bindings : ℕ → Option Binding

namespace Stmt

/-- `Db.prepare`. -/
def prepared : Stmt := ⟨.empty, fun _ => none⟩

variable (self : Stmt)

/-- What SQLite reads for a parameter. -/
def value (idx : ℕ) : Option Value :=
  match self.bindings idx with
  | none => none
  | some (.text owned) => (owned.read self.scratch).map .text
  | some (.int n) => some (.int n)
  | some .null => some .null

def bind (idx : ℕ) (binding : Binding) : Stmt :=
  { self with bindings := Function.update self.bindings idx (some binding) }

/-- The length of a text must fit a `c_int`. -/
def maxLen : ℕ := 2 ^ 31 - 1

/-- None if a check trips.  `granted`: there is memory, if more is needed; `accepted`: SQLite takes
the binding. -/
def bindText (grow : Growth) (idx : ℕ) (value : Bytes) (granted accepted : Bool) :
    Option (Except Error Unit × Stmt) :=
  match self.scratch.append grow value granted with
  | none => some (.error .outOfMemory, self)
  | some (scratch, owned) =>
    let self := { self with scratch := scratch }
    if maxLen < value.length then none
    else if accepted then some (.ok (), self.bind idx (.text owned))
    else some (.error .bindFailed, self)

def bindInt (idx : ℕ) (value : ℤ) (accepted : Bool) : Except Error Unit × Stmt :=
  if accepted then (.ok (), self.bind idx (.int value)) else (.error .bindFailed, self)

def bindNull (idx : ℕ) (accepted : Bool) : Except Error Unit × Stmt :=
  if accepted then (.ok (), self.bind idx .null) else (.error .bindFailed, self)

/-- `ok`: the last step has not failed. -/
def reset (ok : Bool) : Except Error Unit × Stmt :=
  if ok then (.ok (), { self with scratch := self.scratch.clear }) else (.error .stepFailed, self)

end Stmt

/-! ## Calls -/

inductive Call where
  | bindText (idx : ℕ) (value : Bytes) (granted accepted : Bool)
  | bindInt (idx : ℕ) (value : ℤ) (accepted : Bool)
  | bindNull (idx : ℕ) (accepted : Bool)
  | step
  | reset (ok : Bool)

/-- What every parameter was last bound to. -/
abbrev Given : Type := ℕ → Option Value

/-- The parameter and the value of a call that binds. -/
def Call.binds : Call → Option (ℕ × Value)
  | .bindText idx value _ _ => some (idx, .text value)
  | .bindInt idx value _ => some (idx, .int value)
  | .bindNull idx _ => some (idx, .null)
  | .step | .reset _ => none

/-- A call that succeeds binds what it says. -/
def Given.after (given : Given) (call : Call) (result : Except Error Unit) : Given :=
  match result, call.binds with
  | .ok _, some (idx, value) => Function.update given idx (some value)
  | _, _ => given

/-- A call on the statement; a step reads the parameters and leaves them. -/
def Call.on (grow : Growth) (stmt : Stmt) : Call → Option (Except Error Unit × Stmt)
  | .bindText idx value granted accepted => stmt.bindText grow idx value granted accepted
  | .bindInt idx value accepted => some (stmt.bindInt idx value accepted)
  | .bindNull idx accepted => some (stmt.bindNull idx accepted)
  | .step => some (.ok (), stmt)
  | .reset ok => some (stmt.reset ok)

abbrev State : Type := Stmt × Given

def next (grow : Growth) (s : State) (call : Call) : Option State :=
  (call.on grow s.1).map fun r => (r.2, s.2.after call r.1)

def start : State := (.prepared, fun _ => none)

/-- **Every parameter reads what it was last bound to.** -/
def Bound (s : State) : Prop := ∀ idx v, s.2 idx = some v → s.1.value idx = some v

/-- The text that a parameter keeps over a binding of `idx`, if that succeeds. -/
def KeptText (s : State) (idx : ℕ) (accepted : Bool) (owned : View) (text : Bytes) : Prop :=
  ∃ idx', (idx' = idx → accepted = false) ∧ s.1.bindings idx' = some (.text owned) ∧
    s.2 idx' = some (.text text) ∧ text ≠ []

/-- A text is appended without moving the texts of other parameters, and without writing something
else over them. -/
def Keeps (s : State) : Call → Prop
  | .bindText idx value granted accepted =>
    ∀ owned text, KeptText s idx accepted owned text →
      if s.1.scratch.Fits value then s.1.scratch.Spares value owned text else granted = false
  | _ => True

/-! ## One call -/

/-- What SQLite keeps is of the kind and length that was given. -/
def Matches : Option Binding → Option Value → Prop
  | none, none => True
  | some (.text owned), some (.text text) => owned.length = text.length
  | some (.int n), some (.int n') => n = n'
  | some .null, some .null => True
  | _, _ => False

def Consistent (s : State) : Prop := ∀ idx, Matches (s.1.bindings idx) (s.2 idx)

theorem consistent_start : Consistent start := fun _ => trivial

theorem bound_start : Bound start := fun _ _ h => by cases h

theorem consistent_bind {s : State} (hs : Consistent s) (scratch : GrowBuffer UInt8) {idx : ℕ}
    {binding : Binding} {v : Value} (h : Matches (some binding) (some v)) :
    Consistent (({ s.1 with scratch := scratch } : Stmt).bind idx binding,
      Function.update s.2 idx (some v)) := by
  intro idx'
  show Matches (Function.update s.1.bindings idx (some binding) idx')
    (Function.update s.2 idx (some v) idx')
  by_cases hidx : idx' = idx
  · subst hidx
    rw [Function.update_self, Function.update_self]
    exact h
  · rw [Function.update_of_ne hidx, Function.update_of_ne hidx]
    exact hs idx'

theorem consistent_next {grow : Growth} (s : State) (call : Call) (s' : State) (hs : Consistent s)
    (h : next grow s call = some s') : Consistent s' := by
  obtain ⟨⟨result, stmt⟩, hon, rfl⟩ := Option.map_eq_some_iff.mp h
  cases call with
  | bindText idx value granted accepted =>
    rw [Call.on, Stmt.bindText] at hon
    split at hon
    · obtain ⟨rfl, rfl⟩ := Prod.mk.inj (Option.some.inj hon)
      exact hs
    · rename_i scratch owned happend
      have hlen : owned.length = value.length := by
        rw [(GrowBuffer.append_spec happend).1]
        rfl
      dsimp only at hon
      split_ifs at hon
      · obtain ⟨rfl, rfl⟩ := Prod.mk.inj (Option.some.inj hon)
        exact consistent_bind hs scratch hlen
      · obtain ⟨rfl, rfl⟩ := Prod.mk.inj (Option.some.inj hon)
        exact hs
  | bindInt idx value accepted =>
    rw [Call.on, Stmt.bindInt] at hon
    split at hon
    · obtain ⟨rfl, rfl⟩ := Prod.mk.inj (Option.some.inj hon)
      have hmatches : Matches (some (.int value)) (some (.int value)) := rfl
      exact consistent_bind hs s.1.scratch hmatches
    · obtain ⟨rfl, rfl⟩ := Prod.mk.inj (Option.some.inj hon)
      exact hs
  | bindNull idx accepted =>
    rw [Call.on, Stmt.bindNull] at hon
    split at hon
    · obtain ⟨rfl, rfl⟩ := Prod.mk.inj (Option.some.inj hon)
      have hmatches : Matches (some .null) (some .null) := trivial
      exact consistent_bind hs s.1.scratch hmatches
    · obtain ⟨rfl, rfl⟩ := Prod.mk.inj (Option.some.inj hon)
      exact hs
  | step =>
    obtain ⟨rfl, rfl⟩ := Prod.mk.inj (Option.some.inj hon)
    exact hs
  | reset ok =>
    rw [Call.on, Stmt.reset] at hon
    split at hon
    · obtain ⟨rfl, rfl⟩ := Prod.mk.inj (Option.some.inj hon)
      exact hs
    · obtain ⟨rfl, rfl⟩ := Prod.mk.inj (Option.some.inj hon)
      exact hs

/-- **A parameter that reads what it was given goes on doing so** while a text is appended, exactly
if its own text, if it has one, stays in place and is spared. -/
theorem value_append_iff {grow : Growth} {s : State} (hs : Consistent s) {text : Bytes}
    {granted : Bool} {scratch : GrowBuffer UInt8} {owned' : View}
    (happend : s.1.scratch.append grow text granted = some (scratch, owned')) {idx : ℕ} {v : Value}
    (hgiven : s.2 idx = some v) (hvalue : s.1.value idx = some v) :
    ({ s.1 with scratch := scratch } : Stmt).value idx = some v ↔
      ∀ owned kept, s.1.bindings idx = some (.text owned) → s.2 idx = some (.text kept) →
        kept ≠ [] → s.1.scratch.Fits text ∧ s.1.scratch.Spares text owned kept := by
  have hmatches := hs idx
  rw [hgiven] at hmatches
  rw [Stmt.value] at hvalue ⊢
  cases hbinding : s.1.bindings idx with
  | none =>
    rw [hbinding] at hmatches
    exact absurd hmatches id
  | some binding =>
    rw [hbinding] at hmatches hvalue
    cases binding with
    | int n => exact iff_of_true hvalue fun _ _ h => by cases h
    | null => exact iff_of_true hvalue fun _ _ h => by cases h
    | text owned =>
      cases v with
      | int n => exact absurd hmatches id
      | null => exact absurd hmatches id
      | text kept =>
        have hlen : owned.length = kept.length := hmatches
        obtain ⟨kept', hread, heq⟩ := Option.map_eq_some_iff.mp hvalue
        obtain rfl := Value.text.inj heq
        have hmap : (owned.read scratch).map Value.text = some (.text kept') ↔
            owned.read scratch = some kept' := by
          cases owned.read scratch <;> simp
        show (owned.read scratch).map Value.text = some (.text kept') ↔ _
        rw [hmap]
        by_cases hkept : kept' = []
        · subst hkept
          refine iff_of_true (GrowBuffer.read_of_length_eq_zero hlen) ?_
          intro _ kept _ h hne
          rw [hgiven] at h
          obtain rfl := Value.text.inj (Option.some.inj h)
          exact absurd rfl hne
        · rw [GrowBuffer.read_append_iff happend hread hlen hkept]
          constructor
          · rintro hboth owned₁ kept₁ h₁ h₂ -
            rw [hgiven] at h₂
            obtain rfl := Binding.text.inj (Option.some.inj h₁)
            obtain rfl := Value.text.inj (Option.some.inj h₂)
            exact hboth
          · exact fun hall => hall owned kept' rfl hgiven hkept

/-- A parameter that was given a text has one. -/
theorem exists_of_given_text {s : State} (hs : Consistent s) {idx : ℕ} {text : Bytes}
    (h : s.2 idx = some (.text text)) : ∃ owned, s.1.bindings idx = some (.text owned) := by
  have hmatches := hs idx
  rw [h] at hmatches
  cases hbinding : s.1.bindings idx with
  | none =>
    rw [hbinding] at hmatches
    exact absurd hmatches id
  | some binding =>
    rw [hbinding] at hmatches
    cases binding with
    | text owned => exact ⟨owned, rfl⟩
    | int n => exact absurd hmatches id
    | null => exact absurd hmatches id

@[simp] theorem Stmt.bindings_bind_self (stmt : Stmt) (idx : ℕ) (binding : Binding) :
    (stmt.bind idx binding).bindings idx = some binding := Function.update_self ..

theorem Stmt.bindings_bind_of_ne (stmt : Stmt) {idx idx' : ℕ} (h : idx' ≠ idx)
    (binding : Binding) : (stmt.bind idx binding).bindings idx' = stmt.bindings idx' :=
  Function.update_of_ne h _ _

/-- Binding a parameter leaves what the others read. -/
theorem value_bind_of_ne (stmt : Stmt) {idx idx' : ℕ} (h : idx' ≠ idx) (binding : Binding) :
    (stmt.bind idx binding).value idx' = stmt.value idx' := by
  rw [Stmt.value, Stmt.value, stmt.bindings_bind_of_ne h]
  rfl

theorem value_bind_self (stmt : Stmt) (idx : ℕ) (owned : View) :
    (stmt.bind idx (.text owned)).value idx = (owned.read stmt.scratch).map .text := by
  rw [Stmt.value, Stmt.bindings_bind_self]
  rfl

/-- Any other binding is read as it was given. -/
theorem bound_bind {s : State} (hq : Bound s) {idx : ℕ} {binding : Binding} {v : Value}
    (h : (s.1.bind idx binding).value idx = some v) :
    Bound (s.1.bind idx binding, Function.update s.2 idx (some v)) := by
  intro idx' w hw
  have hw' : Function.update s.2 idx (some v) idx' = some w := hw
  by_cases hidx : idx' = idx
  · subst hidx
    rw [Function.update_self] at hw'
    exact hw' ▸ h
  · rw [Function.update_of_ne hidx] at hw'
    rw [value_bind_of_ne s.1 hidx]
    exact hq idx' w hw'

/-- **A call keeps every parameter readable exactly if it is one of those that do.** -/
theorem bound_next_iff {grow : Growth} (s : State) (call : Call) (s' : State) (hs : Consistent s)
    (hq : Bound s) (h : next grow s call = some s') : Bound s' ↔ Keeps s call := by
  obtain ⟨⟨result, stmt⟩, hon, rfl⟩ := Option.map_eq_some_iff.mp h
  cases call with
  | bindText idx text granted accepted =>
    rw [Call.on, Stmt.bindText] at hon
    split at hon
    · rename_i happend
      obtain ⟨rfl, rfl⟩ := Prod.mk.inj (Option.some.inj hon)
      refine iff_of_true hq fun owned kept _ => ?_
      rw [GrowBuffer.append] at happend
      split at happend
      · cases happend
      · rename_i hfits
        rw [if_neg hfits]
        split at happend
        · cases happend
        · rename_i hgranted
          exact Bool.eq_false_iff.mpr hgranted
    · rename_i scratch owned' happend
      have hroom : s.1.scratch.Fits text ∨ ¬ s.1.scratch.Fits text ∧ granted = true := by
        by_cases hfits : s.1.scratch.Fits text
        · exact .inl hfits
        · refine .inr ⟨hfits, ?_⟩
          by_contra hgranted
          rw [GrowBuffer.append, dif_neg hfits, if_neg hgranted] at happend
          cases happend
      have hkeeps : Keeps s (.bindText idx text granted accepted) ↔
          ∀ owned kept, KeptText s idx accepted owned kept →
            s.1.scratch.Fits text ∧ s.1.scratch.Spares text owned kept := by
        refine forall_congr' fun owned => forall_congr' fun kept => imp_congr_right fun _ => ?_
        rcases hroom with hfits | ⟨hfits, hgranted⟩
        · rw [if_pos hfits, and_iff_right hfits]
        · rw [if_neg hfits, hgranted]
          exact iff_of_false (by simp) fun hboth => hfits hboth.1
      -- what the other parameters read
      have hothers : (∀ idx', (idx' = idx → accepted = false) → ∀ v, s.2 idx' = some v →
            ({ s.1 with scratch := scratch } : Stmt).value idx' = some v) ↔
          Keeps s (.bindText idx text granted accepted) := by
        rw [hkeeps]
        constructor
        · rintro hall owned kept ⟨idx', hother, hbinding, hgiven, hne⟩
          exact (value_append_iff hs happend hgiven (hq idx' _ hgiven)).mp
            (hall idx' hother _ hgiven) owned kept hbinding hgiven hne
        · intro hall idx' hother v hgiven
          refine (value_append_iff hs happend hgiven (hq idx' v hgiven)).mpr ?_
          exact fun owned kept hbinding hkept hne => hall owned kept ⟨idx', hother, hbinding,
            hkept, hne⟩
      dsimp only at hon
      split_ifs at hon with hlen haccepted
      · obtain ⟨rfl, rfl⟩ := Prod.mk.inj (Option.some.inj hon)
        rw [← hothers]
        constructor
        · intro hbound idx' hother v hgiven
          have hidx : idx' ≠ idx := fun heq => by
            have hfalse := hother heq
            rw [haccepted] at hfalse
            cases hfalse
          have hvalue := hbound idx' v
            (show Function.update s.2 idx (some (.text text)) idx' = some v by
              rw [Function.update_of_ne hidx, hgiven])
          rwa [value_bind_of_ne _ hidx] at hvalue
        · intro hall idx' v hgiven
          have hgiven' : Function.update s.2 idx (some (.text text)) idx' = some v := hgiven
          by_cases hidx : idx' = idx
          · subst hidx
            rw [Function.update_self] at hgiven'
            rw [value_bind_self]
            show (owned'.read scratch).map _ = _
            rw [GrowBuffer.read_append_self happend, Option.map_some, hgiven']
          · rw [Function.update_of_ne hidx] at hgiven'
            rw [value_bind_of_ne _ hidx]
            exact hall idx' (fun heq => absurd heq hidx) v hgiven'
      · obtain ⟨rfl, rfl⟩ := Prod.mk.inj (Option.some.inj hon)
        rw [← hothers]
        constructor
        · exact fun hbound idx' _ v hgiven => hbound idx' v hgiven
        · exact fun hall idx' v hgiven =>
            hall idx' (fun _ => Bool.eq_false_iff.mpr haccepted) v hgiven
  | bindInt idx value accepted =>
    rw [Call.on, Stmt.bindInt] at hon
    split at hon
    · obtain ⟨rfl, rfl⟩ := Prod.mk.inj (Option.some.inj hon)
      refine iff_of_true (bound_bind hq ?_) trivial
      rw [Stmt.value, Stmt.bindings_bind_self]
    · obtain ⟨rfl, rfl⟩ := Prod.mk.inj (Option.some.inj hon)
      exact iff_of_true hq trivial
  | bindNull idx accepted =>
    rw [Call.on, Stmt.bindNull] at hon
    split at hon
    · obtain ⟨rfl, rfl⟩ := Prod.mk.inj (Option.some.inj hon)
      refine iff_of_true (bound_bind hq ?_) trivial
      rw [Stmt.value, Stmt.bindings_bind_self]
    · obtain ⟨rfl, rfl⟩ := Prod.mk.inj (Option.some.inj hon)
      exact iff_of_true hq trivial
  | step =>
    obtain ⟨rfl, rfl⟩ := Prod.mk.inj (Option.some.inj hon)
    exact iff_of_true hq trivial
  | reset ok =>
    rw [Call.on, Stmt.reset] at hon
    split at hon
    · obtain ⟨rfl, rfl⟩ := Prod.mk.inj (Option.some.inj hon)
      exact iff_of_true hq trivial
    · obtain ⟨rfl, rfl⟩ := Prod.mk.inj (Option.some.inj hon)
      exact iff_of_true hq trivial

end Db
end TigerClaw
