import Mathlib.Algebra.Group.Nat.Defs
import Mathlib.Data.Fintype.Basic
import TigerClaw.Basic
import TigerClaw.Library.Exclusion
import TigerClaw.Library.StepMachine

/-!
# Reloading the settings

`POST /config/reload` runs on the thread of its connection: `Boot.rebuild` reads the settings file
and publishes a snapshot stamped with the generation that the counter is about to have, and then
`configReloadHandler` counts the request.  Any number of connections may do so at once.

* `step`: the requests, cut at the accesses to what they share.
* `Right`: generations increase, no snapshot is dropped while it may be in use, and, with no request
  under way, the active settings are the ones loaded last.
* `reloads_in_turn`: so it is while no reload begins between another one's load and its count.
-/

namespace TigerClaw
namespace Gateway
namespace Reload

open Exclusion (Sole)

structure SettingsSnapshot (α : Type) where
  settings : α
  generation : UInt64

/-- Where a request stands. -/
inductive Stage (α : Type) where
  | idle
  /-- `loadSettings` has returned settings. -/
  | loaded (settings : α)
  /-- The snapshot has been created, with the generation in it. -/
  | stamped (snap : SettingsSnapshot α)
  /-- The snapshot is in the list. -/
  | appended (snap : SettingsSnapshot α)
  /-- `current_settings` is set. -/
  | stored (snap : SettingsSnapshot α)
  /-- `rebuild` has returned, with or without a snapshot published. -/
  | returned (published : Bool)

/-- A snapshot is on its way, or published and not counted yet. -/
def Stage.Busy {α : Type} : Stage α → Prop
  | .idle | .returned false => False
  | _ => True

instance {α : Type} : DecidablePred (Stage.Busy (α := α))
  | .idle | .returned false => isFalse id
  | .loaded _ | .stamped _ | .appended _ | .stored _ | .returned true => isTrue trivial

/-- `published` and `lastLoaded` are for statements only. -/
structure World (κ α : Type) where
  reloadGeneration : UInt64
  snapshots : List (SettingsSnapshot α)
  currentSettings : α
  activeSnapshot : SettingsSnapshot α
  stage : κ → Stage α := fun _ => .idle
  published : List (SettingsSnapshot α) := [activeSnapshot]
  lastLoaded : Option α := none

inductive Action (κ α : Type) where
  /-- `loadSettings`. -/
  | load (c : κ) (settings : α)
  | loadFails (c : κ)
  | stamp (c : κ)
  /-- The snapshot cannot be created, or the list cannot grow. -/
  | outOfMemory (c : κ)
  | append (c : κ)
  | store (c : κ)
  | publish (c : κ)
  /-- The handler counts the request. -/
  | count (c : κ)

variable {κ α : Type} [DecidableEq κ]

/-- The request goes on to another stage. -/
def World.goto (w : World κ α) (c : κ) (stage : Stage α) : World κ α :=
  { w with stage := Function.update w.stage c stage }

/-- Without a step, the request stands elsewhere, or `+ 1` has overflowed. -/
def step (w : World κ α) : Action κ α → Option (World κ α)
  | .load c settings =>
    match w.stage c with
    | .idle => some { w.goto c (.loaded settings) with lastLoaded := some settings }
    | _ => none
  | .loadFails c =>
    match w.stage c with
    | .idle => some (w.goto c (.returned false))
    | _ => none
  | .stamp c =>
    match w.stage c with
    | .loaded settings =>
      if w.reloadGeneration.toNat + 1 < 2 ^ 64 then
        some (w.goto c (.stamped ⟨settings, w.reloadGeneration + 1⟩))
      else none
    | _ => none
  | .outOfMemory c =>
    match w.stage c with
    | .loaded _ | .stamped _ => some (w.goto c (.returned false))
    | _ => none
  | .append c =>
    match w.stage c with
    | .stamped snap => some { w.goto c (.appended snap) with snapshots := w.snapshots ++ [snap] }
    | _ => none
  | .store c =>
    match w.stage c with
    | .appended snap => some { w.goto c (.stored snap) with currentSettings := snap.settings }
    | _ => none
  | .publish c =>
    match w.stage c with
    | .stored snap => some { w.goto c (.returned true) with
        activeSnapshot := snap
        published := w.published ++ [snap] }
    | _ => none
  | .count c =>
    match w.stage c with
    | .returned _ => some { w.goto c .idle with reloadGeneration := w.reloadGeneration + 1 }
    | _ => none

/-- `Boot.run` before it serves: the initial snapshot is published, and no request is under way. -/
def start (reloadGeneration : UInt64) (settings : α) : World κ α where
  reloadGeneration
  snapshots := [⟨settings, reloadGeneration⟩]
  currentSettings := settings
  activeSnapshot := ⟨settings, reloadGeneration⟩

/-- **Reloads take effect one after the other.** -/
structure Right (w : World κ α) : Prop where
  increasing : w.published.Pairwise fun a b => a.generation < b.generation
  kept : ∀ snap ∈ w.published, snap ∈ w.snapshots
  current : (∀ c, w.stage c = .idle) → ∀ settings, w.lastLoaded = some settings →
    w.activeSnapshot.generation ≤ w.reloadGeneration ∧ w.activeSnapshot.settings = settings

/-- No settings are loaded while a snapshot is under way that has not been counted; memory does not
run out, and neither does the counter. -/
def InTurn (w : World κ α) : Action κ α → Prop
  | .load _ _ => ∀ d, ¬ (w.stage d).Busy
  | .outOfMemory _ => False
  | .count _ => w.reloadGeneration.toNat + 1 < 2 ^ 64
  | _ => True

instance [Fintype κ] (w : World κ α) : ∀ a, Decidable (InTurn w a)
  | .load _ _ => inferInstanceAs (Decidable (∀ d, ¬ (w.stage d).Busy))
  | .outOfMemory _ => isFalse id
  | .count _ => inferInstanceAs (Decidable (w.reloadGeneration.toNat + 1 < 2 ^ 64))
  | .loadFails _ | .stamp _ | .append _ | .store _ | .publish _ => isTrue trivial

/-! ## What a step can do -/

/-- The steps, as far as they keep to `InTurn`. -/
inductive Moves (w : World κ α) : Action κ α → World κ α → Prop
  | loaded (c : κ) (settings : α) (hstage : w.stage c = .idle) :
      Moves w (.load c settings) { w.goto c (.loaded settings) with lastLoaded := some settings }
  | failed (c : κ) (hstage : w.stage c = .idle) :
      Moves w (.loadFails c) (w.goto c (.returned false))
  | stamped (c : κ) (settings : α) (hstage : w.stage c = .loaded settings)
      (hlt : w.reloadGeneration.toNat + 1 < 2 ^ 64) :
      Moves w (.stamp c) (w.goto c (.stamped ⟨settings, w.reloadGeneration + 1⟩))
  | appended (c : κ) (snap : SettingsSnapshot α) (hstage : w.stage c = .stamped snap) :
      Moves w (.append c) { w.goto c (.appended snap) with snapshots := w.snapshots ++ [snap] }
  | stored (c : κ) (snap : SettingsSnapshot α) (hstage : w.stage c = .appended snap) :
      Moves w (.store c) { w.goto c (.stored snap) with currentSettings := snap.settings }
  | published (c : κ) (snap : SettingsSnapshot α) (hstage : w.stage c = .stored snap) :
      Moves w (.publish c) { w.goto c (.returned true) with
        activeSnapshot := snap
        published := w.published ++ [snap] }
  | counted (c : κ) (published : Bool) (hstage : w.stage c = .returned published)
      (hlt : w.reloadGeneration.toNat + 1 < 2 ^ 64) :
      Moves w (.count c) { w.goto c .idle with reloadGeneration := w.reloadGeneration + 1 }

theorem moves_of_step {w w' : World κ α} {a : Action κ α} (ha : InTurn w a)
    (h : step w a = some w') : Moves w a w' := by
  cases a with
  | load c settings =>
    rw [step] at h
    split at h
    · rename_i hstage
      obtain rfl := Option.some.inj h
      exact .loaded c settings hstage
    · cases h
  | loadFails c =>
    rw [step] at h
    split at h
    · rename_i hstage
      obtain rfl := Option.some.inj h
      exact .failed c hstage
    · cases h
  | stamp c =>
    rw [step] at h
    split at h
    · rename_i settings hstage
      split at h
      · rename_i hlt
        obtain rfl := Option.some.inj h
        exact .stamped c settings hstage hlt
      · cases h
    · cases h
  | outOfMemory c => exact ha.elim
  | append c =>
    rw [step] at h
    split at h
    · rename_i snap hstage
      obtain rfl := Option.some.inj h
      exact .appended c snap hstage
    · cases h
  | store c =>
    rw [step] at h
    split at h
    · rename_i snap hstage
      obtain rfl := Option.some.inj h
      exact .stored c snap hstage
    · cases h
  | publish c =>
    rw [step] at h
    split at h
    · rename_i snap hstage
      obtain rfl := Option.some.inj h
      exact .published c snap hstage
    · cases h
  | count c =>
    rw [step] at h
    split at h
    · rename_i published hstage
      obtain rfl := Option.some.inj h
      exact .counted c published hstage ha
    · cases h

/-! ## One snapshot at a time -/

/-- The active snapshot is the last one published, and it has the settings loaded last. -/
structure Current (w : World κ α) : Prop where
  published : w.activeSnapshot ∈ w.published
  settings : ∀ settings, w.lastLoaded = some settings → w.activeSnapshot.settings = settings

/-- No published generation is above `n`. -/
def Below (w : World κ α) (n : ℕ) : Prop := ∀ snap ∈ w.published, snap.generation.toNat ≤ n

/-- The snapshot under way is the next to be published, with the settings loaded last. -/
structure Next (w : World κ α) (snap : SettingsSnapshot α) : Prop where
  above : ∀ old ∈ w.published, old.generation < snap.generation
  le : snap.generation.toNat ≤ w.reloadGeneration.toNat + 1
  settings : w.lastLoaded = some snap.settings

/-- What holds while the snapshot that is under way is at a stage. -/
def Good (w : World κ α) : Option (Stage α) → Prop
  | none => Below w w.reloadGeneration.toNat ∧ Current w
  | some (.loaded settings) => Below w w.reloadGeneration.toNat ∧ w.lastLoaded = some settings
  | some (.stamped snap) => Next w snap
  | some (.appended snap) | some (.stored snap) => Next w snap ∧ snap ∈ w.snapshots
  | some (.returned _) => Below w (w.reloadGeneration.toNat + 1) ∧ Current w
  | some .idle => False

/-- What every state of a run that keeps to `InTurn` satisfies. -/
structure Valid (w : World κ α) : Prop where
  increasing : w.published.Pairwise fun a b => a.generation < b.generation
  kept : ∀ snap ∈ w.published, snap ∈ w.snapshots
  busy : ∃ t, Sole Stage.Busy w.stage t ∧ Good w t

omit [DecidableEq κ] in
theorem valid_start (reloadGeneration : UInt64) (settings : α) :
    Valid (start reloadGeneration settings : World κ α) where
  increasing := List.pairwise_singleton _ _
  kept _ h := h
  busy := by
    refine ⟨none, fun _ h => h, fun snap hsnap => ?_, List.mem_singleton_self _, fun _ h => ?_⟩
    · obtain rfl := List.mem_singleton.mp hsnap
      exact Nat.le_refl _
    · cases h

theorem toNat_add_one {n : UInt64} (h : n.toNat + 1 < 2 ^ 64) : (n + 1).toNat = n.toNat + 1 := by
  rw [UInt64.toNat_add, UInt64.toNat_one, Nat.mod_eq_of_lt h]

omit [DecidableEq κ] in
theorem Below.mono {w : World κ α} {m n : ℕ} (h : Below w m) (hle : m ≤ n) : Below w n :=
  fun snap hsnap => Nat.le_trans (h snap hsnap) hle

omit [DecidableEq κ] in
theorem Next.count {w : World κ α} {snap : SettingsSnapshot α} (h : Next w snap)
    (hlt : w.reloadGeneration.toNat + 1 < 2 ^ 64) :
    Next { w with reloadGeneration := w.reloadGeneration + 1 } snap where
  above := h.above
  le := by
    have hle := h.le
    show snap.generation.toNat ≤ (w.reloadGeneration + 1).toNat + 1
    rw [toNat_add_one hlt]
    omega
  settings := h.settings

omit [DecidableEq κ] in
/-- A request that publishes nothing may be counted at any time. -/
theorem Good.count {w : World κ α} {t : Option (Stage α)} (h : Good w t)
    (hlt : w.reloadGeneration.toNat + 1 < 2 ^ 64) :
    Good { w with reloadGeneration := w.reloadGeneration + 1 } t := by
  have hnat := toNat_add_one hlt
  have hbelow : ∀ n, Below w (w.reloadGeneration.toNat + n) →
      Below w ((w.reloadGeneration + 1).toNat + n) := by
    intro n hn
    refine hn.mono ?_
    rw [hnat]
    omega
  cases t with
  | none => exact ⟨hbelow 0 h.1, h.2.1, h.2.2⟩
  | some t =>
    cases t with
    | idle => exact h
    | loaded settings => exact ⟨hbelow 0 h.1, h.2⟩
    | stamped snap => exact Next.count h hlt
    | appended snap => exact ⟨h.1.count hlt, h.2⟩
    | stored snap => exact ⟨h.1.count hlt, h.2⟩
    | returned published => exact ⟨hbelow 1 h.1, h.2.1, h.2.2⟩

/-- What holds does not depend on where the requests stand. -/
theorem Good.goto {w : World κ α} {t : Option (Stage α)} (h : Good w t) (c : κ)
    (stage : Stage α) : Good (w.goto c stage) t := by
  cases t with
  | none => exact ⟨h.1, h.2.1, h.2.2⟩
  | some t =>
    cases t with
    | idle => exact h
    | loaded settings => exact h
    | stamped snap => exact ⟨h.above, h.le, h.settings⟩
    | appended snap => exact ⟨⟨h.1.above, h.1.le, h.1.settings⟩, h.2⟩
    | stored snap => exact ⟨⟨h.1.above, h.1.le, h.1.settings⟩, h.2⟩
    | returned published => exact ⟨h.1, h.2.1, h.2.2⟩

omit [DecidableEq κ] in
/-- Where the snapshot under way stands, seen from its own request. -/
theorem Valid.good {w : World κ α} (h : Valid w) {c : κ} {stage : Stage α}
    (hstage : w.stage c = stage) (hbusy : stage.Busy) :
    Good w (some stage) ∧ Sole Stage.Busy w.stage (some stage) := by
  obtain ⟨t, hsole, hgood⟩ := h.busy
  obtain ⟨rfl, -⟩ := hsole.of_busy (c := c) (hstage.symm ▸ hbusy)
  rw [hstage] at hsole hgood
  exact ⟨hgood, hsole⟩

/-- **A step of a run that keeps to `InTurn`.** -/
theorem valid_step {w w' : World κ α} {a : Action κ α} (hs : Valid w) (ha : InTurn w a)
    (h : step w a = some w') : Valid w' := by
  cases moves_of_step ha h with
  | loaded c settings hstage =>
    -- nobody else is busy, so every generation is at most the counter
    obtain ⟨t, hsole, hgood⟩ := hs.busy
    obtain rfl := hsole.of_none ha
    exact ⟨hs.increasing, hs.kept, _, Sole.alone (fun d _ => ha d) trivial, hgood.1, rfl⟩
  | failed c hstage =>
    obtain ⟨t, hsole, hgood⟩ := hs.busy
    exact ⟨hs.increasing, hs.kept, t, hsole.idle (hstage.symm ▸ not_false) not_false,
      hgood.goto c _⟩
  | stamped c settings hstage hlt =>
    obtain ⟨⟨hbelow, hlast⟩, hsole⟩ := hs.good hstage trivial
    refine ⟨hs.increasing, hs.kept, _, hsole.move (hstage.symm ▸ trivial) trivial,
      fun old hold => ?_, ?_, hlast⟩
    · have hle := hbelow old hold
      rw [UInt64.lt_iff_toNat_lt, toNat_add_one hlt]
      omega
    · rw [toNat_add_one hlt]
      exact Nat.le_refl _
  | appended c snap hstage =>
    obtain ⟨hnext, hsole⟩ := hs.good hstage trivial
    refine ⟨hs.increasing, fun old hold => ?_, _, hsole.move (hstage.symm ▸ trivial) trivial,
      ⟨hnext.above, hnext.le, hnext.settings⟩, ?_⟩
    · exact List.mem_append_left _ (hs.kept old hold)
    · exact List.mem_append_right _ (List.mem_singleton_self snap)
  | stored c snap hstage =>
    obtain ⟨⟨hnext, hmem⟩, hsole⟩ := hs.good hstage trivial
    exact ⟨hs.increasing, hs.kept, _, hsole.move (hstage.symm ▸ trivial) trivial,
      ⟨hnext.above, hnext.le, hnext.settings⟩, hmem⟩
  | published c snap hstage =>
    obtain ⟨⟨hnext, hmem⟩, hsole⟩ := hs.good hstage trivial
    refine ⟨?_, fun old hold => ?_, _, hsole.move (hstage.symm ▸ trivial) trivial,
      fun old hold => ?_, List.mem_append_right _ (List.mem_singleton_self snap),
      fun settings hlast => ?_⟩
    · refine List.pairwise_append.mpr ⟨hs.increasing, List.pairwise_singleton _ _, ?_⟩
      intro old hold new hnew
      obtain rfl := List.mem_singleton.mp hnew
      exact hnext.above old hold
    · rcases List.mem_append.mp hold with hold | hold
      · exact hs.kept old hold
      · obtain rfl := List.mem_singleton.mp hold
        exact hmem
    · have hle := hnext.le
      rcases List.mem_append.mp hold with hold | hold
      · have hlt := hnext.above old hold
        rw [UInt64.lt_iff_toNat_lt] at hlt
        exact Nat.le_trans (Nat.le_of_lt hlt) hle
      · obtain rfl := List.mem_singleton.mp hold
        exact hle
    · exact Option.some.inj (hnext.settings.symm.trans hlast)
  | counted c published hstage hlt =>
    cases published with
    | false =>
      obtain ⟨t, hsole, hgood⟩ := hs.busy
      exact ⟨hs.increasing, hs.kept, t, hsole.idle (hstage.symm ▸ not_false) not_false,
        (hgood.goto c .idle).count hlt⟩
    | true =>
      obtain ⟨⟨hbelow, hcurrent⟩, hsole⟩ := hs.good hstage trivial
      refine ⟨hs.increasing, hs.kept, none, hsole.finish (hstage.symm ▸ trivial) not_false,
        fun old hold => ?_, hcurrent.1, hcurrent.2⟩
      rw [show (_ : World κ α).reloadGeneration.toNat = _ from toNat_add_one hlt]
      exact hbelow old hold

omit [DecidableEq κ] in
theorem Valid.right {w : World κ α} (h : Valid w) : Right w where
  increasing := h.increasing
  kept := h.kept
  current hidle settings hlast := by
    obtain ⟨t, hsole, hgood⟩ := h.busy
    have hnone : ∀ c, ¬ (w.stage c).Busy := by
      intro c
      rw [hidle c]
      exact not_false
    obtain rfl := hsole.of_none hnone
    have hle := hgood.1 _ hgood.2.published
    exact ⟨UInt64.le_iff_toNat_le.mpr hle, hgood.2.settings settings hlast⟩

/-- **Reloads that keep to `InTurn` take effect one after the other**, in every state of the run,
with any number of connections, and with failing loads among them at any time. -/
theorem reloads_in_turn (reloadGeneration : UInt64) (settings : α) {as : List (Action κ α)}
    (hturn : StepMachine.Along step InTurn (start reloadGeneration settings) as) :
    ∀ before w, before <+: as →
      StepMachine.run step (start reloadGeneration settings) before = some w → Right w := by
  have halong := StepMachine.invariant_along
    (fun w a w' hw ha hstep => valid_step hw ha hstep) (valid_start reloadGeneration settings) hturn
  exact fun before w hbefore hrun => (halong before w hbefore hrun).right

/-- One request publishes while the load of another fails, and then the other connection reloads. -/
def sequential : List (Action Bool ℕ) :=
  [.loadFails false, .load true 7, .stamp true, .count false, .append true, .store true,
    .publish true, .count true, .load false 8, .stamp false, .append false, .store false,
    .publish false, .count false]

theorem reloads_in_turn_sequential :
    ∃ w, StepMachine.run step (start 0 5) sequential = some w ∧
      w.published = [⟨5, 0⟩, ⟨7, 1⟩, ⟨8, 3⟩] ∧ Right w := by
  have hturn : StepMachine.Along step InTurn (start 0 5) sequential := by decide
  exact ⟨_, rfl, rfl, reloads_in_turn 0 5 hturn _ _ (List.prefix_refl _) rfl⟩

/-- Two requests that overlap: the second one loads later and publishes first. -/
def overlapping : List (Action Bool ℕ) :=
  [.load true 7, .load false 8, .stamp true, .stamp false, .append true, .append false,
    .store true, .store false, .publish false, .publish true, .count true, .count false]

/-- Two snapshots of one generation, and the settings that were loaded first are active. -/
theorem not_right_overlapping_reloads :
    ∃ w, StepMachine.run step (start 0 5) overlapping = some w ∧
      w.published = [⟨5, 0⟩, ⟨8, 1⟩, ⟨7, 1⟩] ∧ (∀ c, w.stage c = .idle) ∧
      w.lastLoaded = some 8 ∧ w.activeSnapshot.settings = 7 ∧ ¬ Right w := by
  refine ⟨_, rfl, rfl, fun c => by cases c <;> rfl, rfl, rfl, fun hright => ?_⟩
  exact absurd hright.increasing (by decide)

end Reload
end Gateway
end TigerClaw
