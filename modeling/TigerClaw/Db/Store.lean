import Mathlib.Algebra.Group.Int.Defs
import TigerClaw.Db.Stmt
import TigerClaw.Instances.Repo

/-!
# What a statement stores

Values are bound to a new statement, one parameter after the other, and it is stepped once.

* `insert`, `setTokenHash`: the code, from `src/db/instances_repo.zig`.
* `run_bindAll`: all parameters are readable exactly if the texts fit the memory that the first of
  them gets.
* `store_eq_some_iff`: then, and only then, what is stored is what was given.
* `bound_iff_keeps`: this, and any sequence of calls on one statement.
-/

namespace TigerClaw
namespace Db

open GrowBuffer (View)
open StepMachine (run)

/-! ## Fresh statements -/

/-- The parameters, from the first on. -/
def Given.ofList (values : List Value) : Given
  | 0 => none
  | idx + 1 => values[idx]?

/-- The calls that bind some values, from a parameter on, if nothing fails. -/
def bindAll (idx : ℕ) : List Value → List Call
  | [] => []
  | .text text :: values => .bindText idx text true true :: bindAll (idx + 1) values
  | .int n :: values => .bindInt idx n true :: bindAll (idx + 1) values
  | .null :: values => .bindNull idx true :: bindAll (idx + 1) values

/-- What a step reads after some values have been bound to a new statement. -/
def store (grow : Growth) (values : List Value) : Option (List (Option Value)) :=
  (run (next grow) start (bindAll 1 values ++ [.step])).map fun s =>
    (List.range values.length).map fun idx => s.1.value (idx + 1)

/-- `@intCast` to an `i64`. -/
def intCast (n : ℤ) : Option ℤ := if -2 ^ 63 ≤ n ∧ n < 2 ^ 63 then some n else none

/-- What `Repo.insert` stores. -/
def insert (grow : Growth) (rec : Instances.Record) : Option (List (Option Value)) := do
  let heartbeatIntervalMs ← intCast rec.heartbeatIntervalMs.toNat
  let connectedAtNs ← intCast rec.connectedAtNs
  let lastHeartbeatAtNs ← intCast rec.lastHeartbeatAtNs
  let evictedAtNs ← intCast rec.evictedAtNs
  store grow [.text rec.id, .text rec.kind.toString, .text rec.name, .text rec.agentId,
    .text rec.sessionId, .int heartbeatIntervalMs, .int connectedAtNs, .int lastHeartbeatAtNs,
    .int evictedAtNs]

/-- What `Repo.setTokenHash` stores, and under which id. -/
def setTokenHash (grow : Growth) (id tokenHash : Bytes) : Option (List (Option Value)) :=
  store grow [.text tokenHash, .text id]

/-- The texts fit what is there, once one of them is kept. -/
def Fitting (grow : Growth) (kept : Bool) (len capacity : ℕ) : List Value → Prop
  | [] => True
  | .text text :: values =>
    if len + text.length ≤ capacity then
      Fitting grow (kept || text ≠ []) (len + text.length) capacity values
    else kept = false ∧
      Fitting grow true (len + text.length) (grow.1 capacity (len + text.length)) values
  | _ :: values => Fitting grow kept len capacity values

/-- A statement to whose first parameters some values were bound, and that was not reset. -/
structure Ready (s : State) (values : List Value) : Prop where
  consistent : Consistent s
  given : s.2 = Given.ofList values
  within : ∀ idx owned, s.1.bindings idx = some (.text owned) → s.1.scratch.Within owned

theorem ready_start : Ready start [] where
  consistent := consistent_start
  given := by
    funext idx
    cases idx <;> rfl
  within _ _ h := by cases h

theorem update_ofList (values : List Value) (v : Value) :
    Function.update (Given.ofList values) (values.length + 1) (some v) =
      Given.ofList (values ++ [v]) := by
  funext idx
  by_cases hidx : idx = values.length + 1
  · subst hidx
    rw [Function.update_self]
    exact (List.getElem?_concat_length).symm
  · rw [Function.update_of_ne hidx]
    cases idx with
    | zero => rfl
    | succ idx =>
      show values[idx]? = (values ++ [v])[idx]?
      by_cases hlt : idx < values.length
      · rw [List.getElem?_append_left hlt]
      · rw [List.getElem?_eq_none (by omega), List.getElem?_eq_none (by simp; omega)]

/-- Some text that is kept. -/
def KeepsText (values : List Value) : Prop := ∃ text, Value.text text ∈ values ∧ text ≠ []

theorem Ready.exists_given {s : State} {values : List Value} (h : Ready s values) {v : Value}
    (hv : v ∈ values) : ∃ idx, idx ≠ values.length + 1 ∧ s.2 idx = some v := by
  obtain ⟨k, hk⟩ := List.getElem?_of_mem hv
  have hlt := (List.getElem?_eq_some_iff.mp hk).1
  refine ⟨k + 1, by omega, ?_⟩
  rw [h.given]
  exact hk

theorem Ready.mem_of_given {s : State} {values : List Value} (h : Ready s values) {idx : ℕ}
    {v : Value} (hv : s.2 idx = some v) : v ∈ values ∧ idx ≠ values.length + 1 := by
  rw [h.given] at hv
  cases idx with
  | zero => cases hv
  | succ idx =>
    have hk : values[idx]? = some v := hv
    refine ⟨List.mem_of_getElem? hk, ?_⟩
    have hlt := (List.getElem?_eq_some_iff.mp hk).1
    omega

/-- A parameter reads what it was given after a text is appended exactly if it did before, and does
not lose its own text. -/
theorem Ready.value_append_iff {grow : Growth} {s : State} {values : List Value}
    (h : Ready s values) {text : Bytes} {granted : Bool} {scratch : GrowBuffer UInt8}
    {owned : View} (happend : s.1.scratch.append grow text granted = some (scratch, owned))
    {idx : ℕ} {v : Value} (hgiven : s.2 idx = some v) :
    ({ s.1 with scratch := scratch } : Stmt).value idx = some v ↔
      s.1.value idx = some v ∧
        (s.1.scratch.Fits text ∨ ∀ kept, v = .text kept → kept = []) := by
  have hmatches := h.consistent idx
  rw [hgiven] at hmatches
  rw [Stmt.value, Stmt.value]
  cases hbinding : s.1.bindings idx with
  | none =>
    rw [hbinding] at hmatches
    exact absurd hmatches id
  | some binding =>
    rw [hbinding] at hmatches
    cases binding with
    | int n =>
      refine (and_iff_left (.inr fun kept hv => ?_)).symm
      subst hv
      exact absurd hmatches id
    | null =>
      refine (and_iff_left (.inr fun kept hv => ?_)).symm
      subst hv
      exact absurd hmatches id
    | text owned' =>
      cases v with
      | int n => exact absurd hmatches id
      | null => exact absurd hmatches id
      | text kept =>
        have hlen : owned'.length = kept.length := hmatches
        show (owned'.read scratch).map Value.text = some (.text kept) ↔
          (owned'.read s.1.scratch).map Value.text = some (.text kept) ∧ _
        by_cases hkept : kept = []
        · subst hkept
          rw [GrowBuffer.read_of_length_eq_zero hlen, GrowBuffer.read_of_length_eq_zero hlen]
          exact iff_of_true rfl ⟨rfl, .inr fun kept hv => (Value.text.inj hv).symm⟩
        · have hne : owned'.length ≠ 0 := fun hzero =>
            hkept (List.length_eq_zero_iff.mp (hlen ▸ hzero))
          rw [GrowBuffer.read_append_of_within happend (h.within idx owned' hbinding) hne]
          by_cases hfits : s.1.scratch.Fits text
          · rw [if_pos hfits, and_iff_left (.inl hfits)]
          · rw [if_neg hfits]
            refine iff_of_false (by simp) fun hboth => ?_
            rcases hboth.2 with hfits' | hempty
            · exact hfits hfits'
            · exact hkept (hempty kept rfl)

/-- **One more text.**  All are readable exactly if the others were, and it fits, unless it is the
first. -/
theorem Ready.bindText (grow : Growth) {s : State} {values : List Value} (h : Ready s values)
    {text : Bytes} (hlen : text.length ≤ Stmt.maxLen) :
    ∃ s', next grow s (.bindText (values.length + 1) text true true) = some s' ∧
      Ready s' (values ++ [.text text]) ∧
      s'.1.scratch.len = s.1.scratch.len + text.length ∧
      s'.1.scratch.capacity =
        (if s.1.scratch.Fits text then s.1.scratch.capacity
          else grow.1 s.1.scratch.capacity (s.1.scratch.len + text.length)) ∧
      (Bound s' ↔ Bound s ∧ (s.1.scratch.Fits text ∨ ¬ KeepsText values)) := by
  obtain ⟨scratch, owned, happend⟩ : ∃ scratch owned,
      s.1.scratch.append grow text true = some (scratch, owned) := by
    rw [GrowBuffer.append]
    split
    · exact ⟨_, _, rfl⟩
    · exact ⟨_, _, rfl⟩
  have hnext : next grow s (.bindText (values.length + 1) text true true) =
      some (({ s.1 with scratch := scratch } : Stmt).bind (values.length + 1) (.text owned),
        Function.update s.2 (values.length + 1) (some (.text text))) := by
    rw [next, Call.on, Stmt.bindText, happend]
    simp [Nat.not_lt.mpr hlen, Given.after, Call.binds]
  obtain ⟨howned, hscratch, hcases⟩ := GrowBuffer.append_spec happend
  obtain ⟨hnew, hwithin⟩ := GrowBuffer.within_append happend
  refine ⟨_, hnext, ⟨consistent_next s _ _ h.consistent hnext, ?_, ?_⟩, hscratch, ?_, ?_⟩
  · show Function.update s.2 _ _ = _
    rw [h.given, update_ofList]
  · intro idx owned' hbinding
    show scratch.Within owned'
    by_cases hidx : idx = values.length + 1
    · subst hidx
      rw [Stmt.bindings_bind_self] at hbinding
      obtain rfl := Binding.text.inj (Option.some.inj hbinding)
      exact hnew
    · rw [Stmt.bindings_bind_of_ne _ hidx] at hbinding
      exact hwithin owned' (h.within idx owned' hbinding)
  · show scratch.capacity = _
    rcases hcases with ⟨hfits, -, hcapacity, -⟩ | ⟨hfits, -, hcapacity, -⟩
    · rw [if_pos hfits, hcapacity]
    · rw [if_neg hfits, hcapacity]
  · constructor
    · intro hbound
      have hold : ∀ idx v, s.2 idx = some v → s.1.value idx = some v ∧
          (s.1.scratch.Fits text ∨ ∀ kept, v = .text kept → kept = []) := by
        intro idx v hgiven
        have hidx := (h.mem_of_given hgiven).2
        have hvalue := hbound idx v
          (show Function.update s.2 _ _ idx = some v by rw [Function.update_of_ne hidx, hgiven])
        rw [value_bind_of_ne _ hidx] at hvalue
        exact (h.value_append_iff happend hgiven).mp hvalue
      refine ⟨fun idx v hgiven => (hold idx v hgiven).1, ?_⟩
      by_cases hfits : s.1.scratch.Fits text
      · exact .inl hfits
      · refine .inr ?_
        rintro ⟨kept, hmem, hne⟩
        obtain ⟨idx, -, hgiven⟩ := h.exists_given hmem
        rcases (hold idx _ hgiven).2 with hfits' | hempty
        · exact hfits hfits'
        · exact hne (hempty kept rfl)
    · rintro ⟨hbound, hroom⟩ idx v hgiven
      have hgiven' : Function.update s.2 (values.length + 1) (some (.text text)) idx = some v :=
        hgiven
      by_cases hidx : idx = values.length + 1
      · subst hidx
        rw [Function.update_self] at hgiven'
        rw [value_bind_self]
        show (owned.read scratch).map _ = _
        rw [GrowBuffer.read_append_self happend, Option.map_some, hgiven']
      · rw [Function.update_of_ne hidx] at hgiven'
        rw [value_bind_of_ne _ hidx]
        refine (h.value_append_iff happend hgiven').mpr ⟨hbound idx v hgiven', ?_⟩
        refine hroom.imp_right fun hnone kept hv => ?_
        by_contra hne
        exact hnone ⟨kept, hv ▸ (h.mem_of_given hgiven').1, hne⟩

/-- One more value that is no text. -/
theorem Ready.bindOther {s : State} {values : List Value} (h : Ready s values) {v : Value}
    {binding : Binding} (hmatches : Matches (some binding) (some v))
    (hvalue : ∀ stmt : Stmt, (stmt.bind (values.length + 1) binding).value (values.length + 1) =
      some v) (htext : ∀ owned, binding ≠ .text owned) :
    Ready (s.1.bind (values.length + 1) binding,
        Function.update s.2 (values.length + 1) (some v)) (values ++ [v]) ∧
      (Bound (s.1.bind (values.length + 1) binding,
        Function.update s.2 (values.length + 1) (some v)) ↔ Bound s) := by
  refine ⟨⟨?_, ?_, ?_⟩, ?_, fun hbound => bound_bind hbound (hvalue s.1)⟩
  · exact consistent_bind h.consistent s.1.scratch hmatches
  · show Function.update s.2 _ _ = _
    rw [h.given, update_ofList]
  · intro idx owned hbinding
    by_cases hidx : idx = values.length + 1
    · subst hidx
      rw [Stmt.bindings_bind_self] at hbinding
      exact absurd (Option.some.inj hbinding) (htext owned)
    · rw [Stmt.bindings_bind_of_ne _ hidx] at hbinding
      exact h.within idx owned hbinding
  · intro hbound idx w hgiven
    have hidx := (h.mem_of_given hgiven).2
    have hw := hbound idx w
      (show Function.update s.2 _ _ idx = some w by rw [Function.update_of_ne hidx, hgiven])
    rwa [value_bind_of_ne _ hidx] at hw

theorem not_keepsText_nil : ¬ KeepsText [] := by
  rintro ⟨text, hmem, -⟩
  exact absurd hmem List.not_mem_nil

theorem keepsText_append {values : List Value} {v : Value} :
    KeepsText (values ++ [v]) ↔ KeepsText values ∨ ∃ text, v = .text text ∧ text ≠ [] := by
  constructor
  · rintro ⟨text, hmem, hne⟩
    rcases List.mem_append.mp hmem with hmem | hmem
    · exact .inl ⟨text, hmem, hne⟩
    · exact .inr ⟨text, (List.mem_singleton.mp hmem).symm, hne⟩
  · rintro (⟨text, hmem, hne⟩ | ⟨text, rfl, hne⟩)
    · exact ⟨text, List.mem_append_left _ hmem, hne⟩
    · exact ⟨text, List.mem_append_right _ (List.mem_singleton_self _), hne⟩

/-- The texts are not too long. -/
def Short (values : List Value) : Prop :=
  ∀ text, Value.text text ∈ values → text.length ≤ Stmt.maxLen

/-- **Binding some values.**  All are readable exactly if the texts fit. -/
theorem run_bindAll (grow : Growth) {s : State} {before : List Value} (h : Ready s before)
    {kept : Bool} (hkept : kept = true ↔ KeepsText before) {values : List Value}
    (hshort : Short values) :
    ∃ s', run (next grow) s (bindAll (before.length + 1) values) = some s' ∧
      Ready s' (before ++ values) ∧
      (Bound s' ↔
        Bound s ∧ Fitting grow kept s.1.scratch.len s.1.scratch.capacity values) := by
  induction values generalizing s before kept with
  | nil =>
    refine ⟨s, rfl, by rwa [List.append_nil], ?_⟩
    rw [Fitting, and_iff_left trivial]
  | cons v values ih =>
    have hrest : Short values := fun text hmem => hshort text (List.mem_cons_of_mem _ hmem)
    have hlength : (before ++ [v]).length = before.length + 1 := List.length_append
    have happend : before ++ v :: values = (before ++ [v]) ++ values := by simp
    rw [happend]
    cases v with
    | text text =>
      obtain ⟨s₁, hnext, hready, hlen, hcapacity, hbound⟩ :=
        h.bindText grow (hshort text List.mem_cons_self)
      have hkept' : (kept || text ≠ []) = true ↔ KeepsText (before ++ [.text text]) := by
        rw [keepsText_append, Bool.or_eq_true, hkept, decide_eq_true_eq]
        simp
      obtain ⟨s', hrun, hready', hbound'⟩ := ih hready hkept' hrest
      rw [hlength] at hrun
      refine ⟨s', ?_, hready', ?_⟩
      · rw [bindAll, StepMachine.run_cons, hnext, Option.bind_some]
        exact hrun
      · rw [hbound', hbound, hlen, hcapacity, Fitting]
        by_cases hfits : s.1.scratch.Fits text
        · have hroom : s.1.scratch.Fits text ∨ ¬ KeepsText before := .inl hfits
          rw [if_pos hfits, if_pos (show _ ≤ _ from hfits), and_iff_left hroom]
        · -- only a text that is not empty may fail to fit
          have hne : text ≠ [] := by
            rintro rfl
            exact hfits (le_trans s.1.scratch.len_le s.1.scratch.contents_le)
          have hlast : (s.1.scratch.Fits text ∨ ¬ KeepsText before) ↔ kept = false := by
            rw [or_iff_right hfits, ← hkept, Bool.not_eq_true]
          have hnow : (kept || decide (text ≠ [])) = true := by simp [hne]
          rw [if_neg hfits, if_neg (show ¬ _ ≤ _ from hfits), hlast, and_assoc, hnow]
    | int n =>
      have hnext : next grow s (.bindInt (before.length + 1) n true) =
          some (s.1.bind (before.length + 1) (.int n),
            Function.update s.2 (before.length + 1) (some (.int n))) := rfl
      have hmatches : Matches (some (.int n)) (some (.int n)) := rfl
      obtain ⟨hready, hbound⟩ := h.bindOther hmatches
        (fun stmt => by rw [Stmt.value, Stmt.bindings_bind_self]) (by simp)
      have hkept' : kept = true ↔ KeepsText (before ++ [.int n]) := by
        rw [keepsText_append, hkept]
        simp
      obtain ⟨s', hrun, hready', hbound'⟩ := ih hready hkept' hrest
      rw [hlength] at hrun
      refine ⟨s', ?_, hready', ?_⟩
      · rw [bindAll, StepMachine.run_cons, hnext, Option.bind_some]
        exact hrun
      · rw [hbound', hbound]
        exact Iff.rfl
    | null =>
      have hnext : next grow s (.bindNull (before.length + 1) true) =
          some (s.1.bind (before.length + 1) .null,
            Function.update s.2 (before.length + 1) (some .null)) := rfl
      have hmatches : Matches (some .null) (some .null) := trivial
      obtain ⟨hready, hbound⟩ := h.bindOther hmatches
        (fun stmt => by rw [Stmt.value, Stmt.bindings_bind_self]) (by simp)
      have hkept' : kept = true ↔ KeepsText (before ++ [.null]) := by
        rw [keepsText_append, hkept]
        simp
      obtain ⟨s', hrun, hready', hbound'⟩ := ih hready hkept' hrest
      rw [hlength] at hrun
      refine ⟨s', ?_, hready', ?_⟩
      · rw [bindAll, StepMachine.run_cons, hnext, Option.bind_some]
        exact hrun
      · rw [hbound', hbound]
        exact Iff.rfl

/-- A text that is too long trips a check. -/
theorem run_bindAll_eq_none {grow : Growth} {s : State} {idx : ℕ} {values : List Value}
    (hshort : ¬ Short values) : run (next grow) s (bindAll idx values) = none := by
  induction values generalizing s idx with
  | nil => exact absurd (fun text hmem => absurd hmem List.not_mem_nil) hshort
  | cons v values ih =>
    by_cases hrest : Short values
    · -- the text that is too long is the first one
      obtain ⟨text, rfl, hlong⟩ : ∃ text, v = .text text ∧ Stmt.maxLen < text.length := by
        by_contra hnone
        refine hshort fun text hmem => ?_
        rcases List.mem_cons.mp hmem with rfl | hmem
        · exact Nat.le_of_not_lt fun hlong => hnone ⟨text, rfl, hlong⟩
        · exact hrest text hmem
      have hnext : next grow s (.bindText idx text true true) = none := by
        rw [next, Call.on, Stmt.bindText]
        cases happend : s.1.scratch.append grow text true with
        | none =>
          rw [GrowBuffer.append] at happend
          split at happend
          · cases happend
          · rw [if_pos rfl] at happend
            cases happend
        | some r =>
          dsimp only
          rw [if_pos hlong]
          rfl
      rw [bindAll, StepMachine.run_cons, hnext, Option.bind_none]
    · cases v with
      | text text =>
        rw [bindAll, StepMachine.run_cons]
        cases next grow s (.bindText idx text true true) with
        | none => rfl
        | some s₁ => exact ih hrest
      | int n =>
        rw [bindAll, StepMachine.run_cons]
        exact ih hrest
      | null =>
        rw [bindAll, StepMachine.run_cons]
        exact ih hrest

/-- What is read for the parameters is what was given, if all of them can be read. -/
theorem Ready.row_eq_iff {s : State} {values : List Value} (h : Ready s values) :
    (List.range values.length).map (fun idx => s.1.value (idx + 1)) = values.map some ↔
      Bound s := by
  have hrow : ∀ idx < values.length, s.2 (idx + 1) = values[idx]? := by
    intro idx _
    rw [h.given]
    rfl
  constructor
  · intro heq idx v hgiven
    have hgiven' := hgiven
    rw [h.given] at hgiven'
    cases idx with
    | zero => cases hgiven'
    | succ idx =>
      have hv : values[idx]? = some v := hgiven'
      have hlt := (List.getElem?_eq_some_iff.mp hv).1
      have hat := congrArg (fun row => row[idx]?) heq
      have hget : values[idx] = v := (List.getElem?_eq_some_iff.mp hv).2
      simpa [hlt, hget] using hat
  · intro hbound
    refine List.ext_getElem (by simp) fun idx hidx _ => ?_
    have hlt : idx < values.length := by simpa using hidx
    have hvalue := hbound (idx + 1) values[idx] (by rw [hrow idx hlt, List.getElem?_eq_getElem hlt])
    simpa using hvalue

theorem store_eq_some_iff_fitting {grow : Growth} {values : List Value} :
    store grow values = some (values.map some) ↔
      Short values ∧ Fitting grow false 0 0 values := by
  rw [store, StepMachine.run_append]
  by_cases hshort : Short values
  · have hnone : false = true ↔ KeepsText [] :=
      iff_of_false Bool.false_ne_true not_keepsText_nil
    obtain ⟨s, hrun, hready, hbound⟩ := run_bindAll grow ready_start hnone hshort
    rw [List.nil_append] at hready
    have hbegin : run (next grow) start (bindAll 1 values) = some s := hrun
    have hstep : run (next grow) s [.step] = some s := rfl
    rw [hbegin, Option.bind_some, hstep, Option.map_some, Option.some.injEq, hready.row_eq_iff,
      hbound, and_iff_right bound_start, and_iff_right hshort]
    exact Iff.rfl
  · rw [run_bindAll_eq_none hshort, Option.bind_none, Option.map_none]
    exact iff_of_false (by simp) fun hboth => hshort hboth.1

/-! ## The memory of the first text -/

def Value.text? : Value → Option Bytes
  | .text s => some s
  | _ => none

/-- The texts that take memory. -/
def texts (values : List Value) : List Bytes :=
  (values.filterMap Value.text?).filter fun text => text ≠ []

/-- The texts fit the memory that the first of them gets. -/
def FitFirst (grow : Growth) (values : List Value) : Prop :=
  match texts values with
  | [] => True
  | text :: rest => text.length + rest.flatten.length ≤ grow.1 0 text.length

theorem texts_text_cons (text : Bytes) (values : List Value) :
    texts (.text text :: values) = if text = [] then texts values else text :: texts values := by
  by_cases hne : text = [] <;> simp [texts, Value.text?, hne]

theorem fitting_true_iff {grow : Growth} {len capacity : ℕ} (h : len ≤ capacity)
    (values : List Value) :
    Fitting grow true len capacity values ↔ len + (texts values).flatten.length ≤ capacity := by
  induction values generalizing len with
  | nil => exact iff_of_true trivial h
  | cons v values ih =>
    cases v with
    | text text =>
      have hlength : (texts (.text text :: values)).flatten.length =
          text.length + (texts values).flatten.length := by
        rw [texts_text_cons]
        split
        · rename_i hnil
          rw [hnil, List.length_nil, Nat.zero_add]
        · rw [List.flatten_cons, List.length_append]
      rw [Fitting, hlength, Bool.true_or]
      by_cases hfits : len + text.length ≤ capacity
      · rw [if_pos hfits, ih hfits, Nat.add_assoc]
      · rw [if_neg hfits]
        refine iff_of_false (fun hboth => Bool.noConfusion hboth.1) ?_
        omega
    | int n => exact ih h
    | null => exact ih h

theorem fitting_false_iff {grow : Growth} (values : List Value) :
    Fitting grow false 0 0 values ↔ FitFirst grow values := by
  induction values with
  | nil => exact Iff.rfl
  | cons v values ih =>
    cases v with
    | text text =>
      rw [Fitting, FitFirst, texts_text_cons]
      by_cases hnil : text = []
      · subst hnil
        rw [if_pos rfl, if_pos (by simp)]
        exact ih
      · have hlong : ¬ 0 + text.length ≤ 0 := by
          rw [Nat.zero_add, Nat.le_zero, List.length_eq_zero_iff]
          exact hnil
        rw [if_neg hnil, if_neg hlong, and_iff_right rfl, Nat.zero_add,
          fitting_true_iff (grow.2 0 _)]
    | int n => exact ih
    | null => exact ih

/-- **What is stored is what was given** exactly if no text is too long, and the texts fit the
memory that the first of them gets. -/
theorem store_eq_some_iff {grow : Growth} {values : List Value} :
    store grow values = some (values.map some) ↔ Short values ∧ FitFirst grow values := by
  rw [store_eq_some_iff_fitting, fitting_false_iff]

/-! ## Records -/

/-- The columns of a record, in their order. -/
def fields (rec : Instances.Record) : List Value :=
  [.text rec.id, .text rec.kind.toString, .text rec.name, .text rec.agentId, .text rec.sessionId,
    .int rec.heartbeatIntervalMs.toNat, .int rec.connectedAtNs, .int rec.lastHeartbeatAtNs,
    .int rec.evictedAtNs]

/-- The times fit 64 bits. -/
def TimesFit (rec : Instances.Record) : Prop :=
  ∀ n ∈ [rec.connectedAtNs, rec.lastHeartbeatAtNs, rec.evictedAtNs], -2 ^ 63 ≤ n ∧ n < 2 ^ 63

theorem intCast_of_fits {n : ℤ} (h : -2 ^ 63 ≤ n ∧ n < 2 ^ 63) : intCast n = some n := if_pos h

theorem intCast_eq_none {n : ℤ} (h : ¬ (-2 ^ 63 ≤ n ∧ n < 2 ^ 63)) : intCast n = none := if_neg h

theorem insert_eq_some_iff {grow : Growth} {rec : Instances.Record} :
    insert grow rec = some ((fields rec).map some) ↔
      TimesFit rec ∧ Short (fields rec) ∧ FitFirst grow (fields rec) := by
  have hheartbeat : intCast rec.heartbeatIntervalMs.toNat =
      some (rec.heartbeatIntervalMs.toNat : ℤ) :=
    intCast_of_fits (by have := rec.heartbeatIntervalMs.toNat_lt; omega)
  rw [insert, hheartbeat, ← store_eq_some_iff]
  by_cases htimes : TimesFit rec
  · rw [intCast_of_fits (htimes _ (by simp)), intCast_of_fits (htimes _ (by simp)),
      intCast_of_fits (htimes _ (by simp)), and_iff_right htimes]
    exact Iff.rfl
  · refine iff_of_false (fun h => htimes ?_) fun hboth => htimes hboth.1
    have hcast : ∀ {n : ℤ} {k : ℤ → Option (List (Option Value))} {row},
        (intCast n).bind k = some row → (-2 ^ 63 ≤ n ∧ n < 2 ^ 63) ∧ ∃ m, k m = some row := by
      intro n k row hbind
      obtain ⟨m, hm, hk⟩ := Option.bind_eq_some_iff.mp hbind
      refine ⟨?_, m, hk⟩
      by_contra hout
      rw [intCast_eq_none hout] at hm
      cases hm
    rw [Option.bind_eq_bind, Option.bind_some] at h
    obtain ⟨hconnected, m, h⟩ := hcast h
    obtain ⟨hlast, m', h⟩ := hcast h
    obtain ⟨hevicted, -⟩ := hcast h
    intro n hn
    simp only [List.mem_cons, List.not_mem_nil, or_false] at hn
    rcases hn with rfl | rfl | rfl
    · exact hconnected
    · exact hlast
    · exact hevicted

theorem setTokenHash_eq_some_iff {grow : Growth} {id tokenHash : Bytes} :
    setTokenHash grow id tokenHash = some [some (.text tokenHash), some (.text id)] ↔
      Short [.text tokenHash, .text id] ∧ FitFirst grow [.text tokenHash, .text id] :=
  store_eq_some_iff

/-! ## Any calls -/

/-- **All parameters can be read all along** exactly if every call keeps the others' texts.  A
record and a token hash are stored as they are exactly if nothing is too long, and the texts fit the
memory that the first of them gets. -/
theorem bound_iff_keeps (grow : Growth) :
    (∀ calls t, run (next grow) start calls = some t →
      ((∀ before s, before <+: calls → run (next grow) start before = some s → Bound s) ↔
        StepMachine.Along (next grow) Keeps start calls)) ∧
    (∀ rec, insert grow rec = some ((fields rec).map some) ↔
      TimesFit rec ∧ Short (fields rec) ∧ FitFirst grow (fields rec)) ∧
    ∀ id tokenHash,
      setTokenHash grow id tokenHash = some [some (.text tokenHash), some (.text id)] ↔
        Short [.text tokenHash, .text id] ∧ FitFirst grow [.text tokenHash, .text id] := by
  refine ⟨fun calls t hrun => ?_, fun rec => insert_eq_some_iff, fun id tokenHash =>
    setTokenHash_eq_some_iff⟩
  exact StepMachine.always_iff_along consistent_next bound_next_iff consistent_start bound_start
    hrun

/-- Half as much again, and a cache line. -/
def cacheLines : Growth :=
  ⟨fun _ minimum => minimum + (minimum / 2 + 128), fun _ _ => Nat.le_add_right ..⟩

/-- A text and a step. -/
def oneText : List Call := [.bindText 1 (ascii "a") true true, .step]

def alice : Instances.Record where
  id := ascii "i-1"
  kind := .tui
  name := ascii "alice"
  connectedAtNs := 1
  lastHeartbeatAtNs := 1

theorem bound_iff_keeps_alice :
    (∃ s, run (next cacheLines) start oneText = some s ∧ Bound s) ∧
      insert cacheLines alice = some ((fields alice).map some) := by
  constructor
  · obtain ⟨s, hrun⟩ : ∃ s, run (next cacheLines) start oneText = some s := ⟨_, rfl⟩
    refine ⟨s, hrun, ((bound_iff_keeps cacheLines).1 oneText s hrun).mpr ?_ oneText s
      (List.prefix_refl _) hrun⟩
    refine ⟨?_, fun _ _ => ⟨trivial, fun _ _ => trivial⟩⟩
    rintro owned text ⟨idx, -, hbinding, -⟩
    cases hbinding
  · refine ((bound_iff_keeps cacheLines).2.1 alice).mpr ⟨?_, fun text hmem => ?_, ?_⟩
    · simp [TimesFit, alice]
    · simp only [fields, alice, List.mem_cons, Value.text.injEq, reduceCtorEq, List.not_mem_nil,
        or_false] at hmem
      rcases hmem with rfl | rfl | rfl | rfl | rfl <;> decide
    · show _ + _ ≤ _
      decide

/-- A statement that is used twice, with one of its parameters bound anew. -/
def usedTwice : List Call :=
  [.bindText 1 (ascii "a") true true, .step, .reset true, .bindText 2 (ascii "b") true true, .step]

/-- A record with a long name. -/
def longName : Instances.Record := { alice with name := List.replicate 200 0x61 }

theorem not_bound_longName :
    (¬ ∀ calls s, run (next cacheLines) start calls = some s → Bound s) ∧
      insert cacheLines longName ≠ some ((fields longName).map some) := by
  constructor
  · intro hall
    obtain ⟨s, hrun⟩ : ∃ s, run (next cacheLines) start usedTwice = some s := ⟨_, rfl⟩
    have hread : (run (next cacheLines) start usedTwice).map (fun s => s.1.value 1) =
        some (some (.text (ascii "b"))) := rfl
    have hgiven : (run (next cacheLines) start usedTwice).map (fun s => s.2 1) =
        some (some (.text (ascii "a"))) := rfl
    rw [hrun, Option.map_some, Option.some.injEq] at hread hgiven
    have hvalue := hall usedTwice s hrun 1 _ hgiven
    rw [hread] at hvalue
    exact absurd hvalue (by decide)
  · intro h
    have hfit : FitFirst cacheLines (fields longName) := (insert_eq_some_iff.mp h).2.2
    have htexts : texts (fields longName) =
        [ascii "i-1", ascii "tui", List.replicate 200 0x61] := by
      simp [texts, fields, longName, alice, Value.text?, Instances.Kind.toString, ascii]
    rw [FitFirst, htexts] at hfit
    simp [cacheLines, ascii, -List.reduceReplicate] at hfit

end Db
end TigerClaw
