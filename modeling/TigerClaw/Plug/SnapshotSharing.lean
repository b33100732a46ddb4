import TigerClaw.Library.StepMachine
import TigerClaw.Library.Threads
import Mathlib.Data.Fintype.Option

/-!
# Sharing snapshots between a writer and its readers

`swap`, `acquire` and `release` of `src/registry.zig`, one atomic operation at a time.  Snapshots
are numbered as they are built.  A thread is between two operations of one call: `acquire` loads
the pointer and then increments the count of what it found; `release` decrements and, if it took
the last reference, loads the pointer and frees what is not current.  `swap` exchanges the pointer
and then releases what it displaced, so from there on the writer is a holder like the others.

* `step`: one atomic operation, with a count of the operations on freed snapshots.
* `Safe`: what is promised of every state.
* `Guarded`: what the comment in `acquire` takes for granted, that the count it increments is
  positive.
* `Sound`: every reference is accounted for, and a count of zero has one thread about to free.
* `safe_of_guarded`: a run whose increments are guarded is safe in every state.
* `not_safe_overtaken`: a reader that is overtaken between its two operations is not.
-/

namespace TigerClaw
namespace Plug
namespace SnapshotSharing

/-- Snapshots in the order in which they were built. -/
abbrev SnapId : Type := ℕ

/-- Where a thread is. -/
inductive Phase where
  | idle
  /-- `acquire` has loaded the pointer. -/
  | loaded (snap : SnapId)
  /-- One reference is held. -/
  | holding (snap : SnapId)
  /-- `release` has taken the last reference. -/
  | dropped (snap : SnapId)
  /-- `release` has seen that the snapshot is not current. -/
  | orphaned (snap : SnapId)
  deriving DecidableEq

/-- The writer, or one of the readers. -/
abbrev Thread (readers : ℕ) : Type := Option (Fin readers)

structure State (readers : ℕ) where
  current : SnapId
  refcount : SnapId → ℕ
  /-- How often each snapshot has been freed. -/
  freed : SnapId → ℕ
  /-- How many snapshots have been built. -/
  built : ℕ
  phase : Thread readers → Phase
  /-- How many operations were on a snapshot that had been freed. -/
  misuses : ℕ := 0

/-- One atomic operation of one thread. -/
inductive Action (readers : ℕ) where
  | swap
  | load (reader : Fin readers)
  | fetchAdd (reader : Fin readers)
  | read (reader : Fin readers)
  | fetchSub (thread : Thread readers)
  | loadCurrent (thread : Thread readers)
  | free (thread : Thread readers)

variable {readers : ℕ}

namespace State

/-- The registry after `init`: an empty snapshot, with the reference of its installer. -/
def start (readers : ℕ) : State readers where
  current := 0
  refcount := fun snap => if snap = 0 then 1 else 0
  freed := fun _ => 0
  built := 1
  phase := fun _ => .idle

def goto (s : State readers) (t : Thread readers) (phase : Phase) : State readers :=
  { s with phase := Function.update s.phase t phase }

/-- An operation on the memory of a snapshot. -/
def touch (s : State readers) (snap : SnapId) : State readers :=
  if s.freed snap = 0 then s else { s with misuses := s.misuses + 1 }

def setRefcount (s : State readers) (snap : SnapId) (n : ℕ) : State readers :=
  { s with refcount := Function.update s.refcount snap n }

/-- `freeSnapshot`. -/
def freeSnapshot (s : State readers) (snap : SnapId) : State readers :=
  { s with freed := Function.update s.freed snap (s.freed snap + 1) }

end State

open State

/-- Take one operation, where the thread has come to it. -/
def step (s : State readers) : Action readers → Option (State readers)
  | .swap =>
    if s.phase none = .idle then
      some ({ s with
        current := s.built
        refcount := Function.update s.refcount s.built 1
        built := s.built + 1 }.goto none (.holding s.current))
    else none
  | .load r =>
    if s.phase (some r) = .idle then some (s.goto (some r) (.loaded s.current)) else none
  | .fetchAdd r =>
    match s.phase (some r) with
    | .loaded snap =>
      some (((s.touch snap).setRefcount snap (s.refcount snap + 1)).goto (some r) (.holding snap))
    | _ => none
  | .read r =>
    match s.phase (some r) with
    | .holding snap => some (s.touch snap)
    | _ => none
  | .fetchSub t =>
    match s.phase t with
    | .holding snap =>
      some (((s.touch snap).setRefcount snap (s.refcount snap - 1)).goto t
        (if s.refcount snap = 1 then .dropped snap else .idle))
    | _ => none
  | .loadCurrent t =>
    match s.phase t with
    | .dropped snap =>
      some ((s.touch snap).goto t (if s.current = snap then .idle else .orphaned snap))
    | _ => none
  | .free t =>
    match s.phase t with
    | .orphaned snap => some (((s.touch snap).freeSnapshot snap).goto t .idle)
    | _ => none

/-! ## The promise -/

/-- The thread holds a reference. -/
def Phase.Holds (snap : SnapId) (phase : Phase) : Prop := phase = .holding snap

/-- The thread is in the part of `release` that ends in freeing the snapshot. -/
def Phase.Frees (snap : SnapId) (phase : Phase) : Prop :=
  phase = .dropped snap ∨ phase = .orphaned snap

instance (snap : SnapId) : DecidablePred (Phase.Holds snap) := fun _ =>
  inferInstanceAs (Decidable (_ = _))

instance (snap : SnapId) : DecidablePred (Phase.Frees snap) := fun _ =>
  inferInstanceAs (Decidable (_ ∨ _))

/-- **What is promised of a state**: no operation was on a freed snapshot, none was freed twice,
and what is not current and has no holder, nor anyone about to free it, has been freed. -/
structure Safe (s : State readers) : Prop where
  unmisused : s.misuses = 0
  freedOnce : ∀ snap, s.freed snap ≤ 1
  collected : ∀ snap < s.built, snap ≠ s.current →
    (∀ t, ¬ (s.phase t).Holds snap ∧ ¬ (s.phase t).Frees snap) → s.freed snap = 1

/-- What `acquire` takes for granted: the count that it increments is positive. -/
def Guarded (s : State readers) : Action readers → Prop
  | .fetchAdd r => ∀ snap, s.phase (some r) = .loaded snap → 0 < s.refcount snap
  | _ => True

/-! ## Accounting for references -/

/-- The number of references held by threads. -/
def State.holders (s : State readers) (snap : SnapId) : ℕ :=
  Threads.population (Phase.Holds snap) s.phase

/-- The number of threads that are about to free the snapshot. -/
def State.freers (s : State readers) (snap : SnapId) : ℕ :=
  Threads.population (Phase.Frees snap) s.phase

/-- **Every reference is accounted for.**  The pointer and the holders have one reference each,
and a snapshot without references has been freed or is about to be, once. -/
structure Sound (s : State readers) : Prop where
  unmisused : s.misuses = 0
  references : ∀ snap, s.refcount snap = (if s.current = snap then 1 else 0) + s.holders snap
  freedOnce : ∀ snap < s.built,
    s.freed snap + s.freers snap = if s.refcount snap = 0 then 1 else 0
  current_lt : s.current < s.built
  unbuilt : ∀ snap, s.built ≤ snap → s.refcount snap = 0 ∧ s.freed snap = 0
  phase_lt : ∀ t snap, s.phase t = .loaded snap ∨ (s.phase t).Frees snap → snap < s.built

/-- How the counts of references and of freers change when a thread moves. -/
theorem holders_goto (s : State readers) (t : Thread readers) (phase : Phase) (snap : SnapId) :
    (s.goto t phase).holders snap + (if (s.phase t).Holds snap then 1 else 0)
      = s.holders snap + if phase.Holds snap then 1 else 0 :=
  Threads.population_update (Phase.Holds snap) s.phase t phase

theorem freers_goto (s : State readers) (t : Thread readers) (phase : Phase) (snap : SnapId) :
    (s.goto t phase).freers snap + (if (s.phase t).Frees snap then 1 else 0)
      = s.freers snap + if phase.Frees snap then 1 else 0 :=
  Threads.population_update (Phase.Frees snap) s.phase t phase

theorem sound_start (readers : ℕ) : Sound (State.start readers) where
  unmisused := rfl
  references := fun snap => by
    have hnone : (State.start readers).holders snap = 0 :=
      Threads.population_eq_zero _ fun t => by simp [State.start, Phase.Holds]
    rw [hnone]
    simp [State.start, eq_comm]
  freedOnce := fun snap hsnap => by
    have hnone : (State.start readers).freers snap = 0 :=
      Threads.population_eq_zero _ fun t => by simp [State.start, Phase.Frees]
    have hzero : snap = 0 := Nat.lt_one_iff.mp hsnap
    rw [hnone]
    simp [State.start, hzero]
  current_lt := Nat.one_pos
  unbuilt := fun snap hsnap => by
    have hne : snap ≠ 0 := Nat.one_le_iff_ne_zero.mp hsnap
    simp [State.start, hne]
  phase_lt := fun t snap h => by simp [State.start, Phase.Frees] at h

namespace Sound

variable {s : State readers}

/-- A holder has a live snapshot. -/
theorem of_holding (h : Sound s) {t : Thread readers} {snap : SnapId}
    (ht : s.phase t = .holding snap) :
    0 < s.refcount snap ∧ snap < s.built ∧ s.freed snap = 0 ∧ s.freers snap = 0 := by
  have hpos : 0 < s.holders snap := Threads.population_pos (Phase.Holds snap) (t := t) ht
  have href := h.references snap
  have hcount : 0 < s.refcount snap := by omega
  have hbuilt : snap < s.built := by
    by_contra hge
    exact hcount.ne' (h.unbuilt snap (Nat.le_of_not_lt hge)).1
  have hfreed := h.freedOnce snap hbuilt
  rw [if_neg hcount.ne'] at hfreed
  exact ⟨hcount, hbuilt, by omega, by omega⟩

/-- Whoever is about to free a snapshot has a dead one, alone. -/
theorem of_frees (h : Sound s) {t : Thread readers} {snap : SnapId}
    (ht : (s.phase t).Frees snap) :
    s.refcount snap = 0 ∧ snap < s.built ∧ s.freed snap = 0 ∧ s.current ≠ snap := by
  have hpos : 0 < s.freers snap := Threads.population_pos (Phase.Frees snap) ht
  have hbuilt := h.phase_lt t snap (.inr ht)
  have hfreed := h.freedOnce snap hbuilt
  have href := h.references snap
  by_cases hzero : s.refcount snap = 0
  · rw [if_pos hzero] at hfreed
    refine ⟨hzero, hbuilt, by omega, fun hcur => ?_⟩
    rw [if_pos hcur] at href
    omega
  · rw [if_neg hzero] at hfreed
    omega

/-- **What is accounted for is safe.** -/
theorem safe (h : Sound s) : Safe s where
  unmisused := h.unmisused
  freedOnce := fun snap => by
    by_cases hsnap : snap < s.built
    · have := h.freedOnce snap hsnap
      split at this <;> omega
    · rw [(h.unbuilt snap (Nat.le_of_not_lt hsnap)).2]
      exact Nat.zero_le 1
  collected := fun snap hsnap hcur hnone => by
    have hholders : s.holders snap = 0 := Threads.population_eq_zero _ fun t => (hnone t).1
    have hfreers : s.freers snap = 0 := Threads.population_eq_zero _ fun t => (hnone t).2
    have href := h.references snap
    have hfreed := h.freedOnce snap hsnap
    rw [if_neg (Ne.symm hcur), hholders] at href
    rw [if_pos href, hfreers] at hfreed
    exact hfreed

theorem touch_eq {snap : SnapId} (hfreed : s.freed snap = 0) : s.touch snap = s := if_pos hfreed

/-- The writer displaces the current snapshot and holds its reference from then on. -/
theorem swap (h : Sound s) (hidle : s.phase none = .idle) :
    Sound ({ s with
      current := s.built
      refcount := Function.update s.refcount s.built 1
      built := s.built + 1 }.goto none (.holding s.current)) := by
  have hcurrent := h.current_lt
  have hrefs := h.references s.built
  rw [if_neg hcurrent.ne, (h.unbuilt s.built le_rfl).1] at hrefs
  have hfreers : s.freers s.built = 0 := Threads.population_eq_zero _ fun t ht =>
    lt_irrefl _ (h.phase_lt t s.built (.inr ht))
  have hholders (snap : SnapId) := holders_goto s none (.holding s.current) snap
  have hfree (snap : SnapId) := freers_goto s none (.holding s.current) snap
  simp only [hidle, Phase.Holds, Phase.Frees, reduceCtorEq, or_self, if_false, add_zero,
    Phase.holding.injEq] at hholders hfree
  refine ⟨h.unmisused, fun snap => ?_, fun snap hsnap => ?_, Nat.lt_succ_self _,
    fun snap hsnap => ?_, fun t snap ht => ?_⟩
  · change Function.update s.refcount s.built 1 snap
      = (if s.built = snap then 1 else 0) + (s.goto none (.holding s.current)).holders snap
    rw [hholders]
    by_cases hnew : snap = s.built
    · subst hnew
      rw [Function.update_self, if_pos rfl, if_neg hcurrent.ne]
      omega
    · rw [Function.update_of_ne hnew, if_neg (Ne.symm hnew), h.references snap]
      omega
  · change s.freed snap + (s.goto none (.holding s.current)).freers snap
      = if Function.update s.refcount s.built 1 snap = 0 then 1 else 0
    rw [hfree]
    by_cases hnew : snap = s.built
    · subst hnew
      rw [Function.update_self, (h.unbuilt s.built le_rfl).2, hfreers]
      rfl
    · rw [Function.update_of_ne hnew]
      exact h.freedOnce snap (Nat.lt_of_le_of_ne (Nat.le_of_lt_succ hsnap) hnew)
  · have hge : s.built + 1 ≤ snap := hsnap
    have hne : snap ≠ s.built := by omega
    change Function.update s.refcount s.built 1 snap = 0 ∧ s.freed snap = 0
    rw [Function.update_of_ne hne]
    exact h.unbuilt snap (by omega)
  · refine Nat.lt_succ_of_lt (?_ : snap < s.built)
    change Function.update s.phase none (.holding s.current) t = .loaded snap ∨
      (Function.update s.phase none (.holding s.current) t).Frees snap at ht
    by_cases htn : t = none
    · subst htn
      simp [Phase.Frees] at ht
    · rw [Function.update_of_ne htn] at ht
      exact h.phase_lt t snap ht

/-- **Every other operation** moves one thread with respect to one snapshot, whose count becomes
`n` and which has then been freed `f` times. -/
theorem moved (h : Sound s) {s' : State readers} {t : Thread readers} {snap : SnapId} {n f : ℕ}
    {phase : Phase} (hcurrent : s'.current = s.current) (hbuilt : s'.built = s.built)
    (hmisuses : s'.misuses = s.misuses)
    (hrefcount : s'.refcount = Function.update s.refcount snap n)
    (hfreed : s'.freed = Function.update s.freed snap f)
    (hphase : s'.phase = Function.update s.phase t phase) (hsnap : snap < s.built)
    (hother : ∀ other, other ≠ snap → ¬ (s.phase t).Holds other ∧ ¬ (s.phase t).Frees other ∧
      ¬ phase.Holds other ∧ ¬ phase.Frees other ∧ phase ≠ .loaded other)
    (hn : n + (if (s.phase t).Holds snap then 1 else 0)
      = s.refcount snap + if phase.Holds snap then 1 else 0)
    (hf : ∀ k, k + (if (s.phase t).Frees snap then 1 else 0)
      = s.freers snap + (if phase.Frees snap then 1 else 0) → f + k = if n = 0 then 1 else 0) :
    Sound s' := by
  have hholders (other : SnapId) : s'.holders other + (if (s.phase t).Holds other then 1 else 0)
      = s.holders other + if phase.Holds other then 1 else 0 := by
    rw [State.holders, hphase]
    exact Threads.population_update (Phase.Holds other) s.phase t phase
  have hfreers (other : SnapId) : s'.freers other + (if (s.phase t).Frees other then 1 else 0)
      = s.freers other + if phase.Frees other then 1 else 0 := by
    rw [State.freers, hphase]
    exact Threads.population_update (Phase.Frees other) s.phase t phase
  refine ⟨hmisuses.trans h.unmisused, fun other => ?_, fun other hlt => ?_, ?_,
    fun other hge => ?_, fun u other hu => ?_⟩
  · have hcount := hholders other
    have href := h.references other
    rw [hrefcount, hcurrent]
    by_cases heq : other = snap
    · subst heq
      rw [Function.update_self]
      omega
    · obtain ⟨h₁, -, h₂, -, -⟩ := hother other heq
      rw [if_neg h₁, if_neg h₂] at hcount
      rw [Function.update_of_ne heq]
      omega
  · rw [hrefcount, hfreed]
    by_cases heq : other = snap
    · subst heq
      rw [Function.update_self, Function.update_self]
      exact hf _ (hfreers other)
    · obtain ⟨-, h₁, -, h₂, -⟩ := hother other heq
      have hcount := hfreers other
      rw [if_neg h₁, if_neg h₂] at hcount
      rw [Function.update_of_ne heq, Function.update_of_ne heq]
      have := h.freedOnce other (hbuilt ▸ hlt)
      omega
  · rw [hcurrent, hbuilt]
    exact h.current_lt
  · rw [hbuilt] at hge
    have hne : other ≠ snap := (hsnap.trans_le hge).ne'
    rw [hrefcount, hfreed, Function.update_of_ne hne, Function.update_of_ne hne]
    exact h.unbuilt other hge
  · rw [hbuilt]
    rw [hphase] at hu
    by_cases hut : u = t
    · subst hut
      rw [Function.update_self] at hu
      by_contra hge
      have hne : other ≠ snap := (hsnap.trans_le (Nat.le_of_not_lt hge)).ne'
      obtain ⟨-, -, -, h₁, h₂⟩ := hother other hne
      exact hu.elim h₂ h₁
    · rw [Function.update_of_ne hut] at hu
      exact h.phase_lt u other hu

theorem eq_update_self (f : SnapId → ℕ) (snap : SnapId) : f = Function.update f snap (f snap) :=
  (Function.update_eq_self snap f).symm

/-- A reader loads the pointer, and holds nothing yet. -/
theorem load (h : Sound s) {r : Fin readers} (hidle : s.phase (some r) = .idle) :
    Sound (s.goto (some r) (.loaded s.current)) := by
  have hfreed := h.freedOnce s.current h.current_lt
  refine h.moved rfl rfl rfl (eq_update_self s.refcount s.current)
    (eq_update_self s.freed s.current) rfl h.current_lt (fun other hne => ?_) ?_ fun k hk => ?_
  · simp [hidle, Phase.Holds, Phase.Frees, Ne.symm hne]
  · simp [hidle, Phase.Holds]
  · simp only [hidle, Phase.Frees, reduceCtorEq, or_self, if_false, Nat.add_zero] at hk
    rw [hk, hfreed]

/-- An increment of a positive count is of a snapshot that has not been freed. -/
theorem fetchAdd (h : Sound s) {r : Fin readers} {snap : SnapId}
    (hloaded : s.phase (some r) = .loaded snap) (hpos : 0 < s.refcount snap) :
    Sound (((s.touch snap).setRefcount snap (s.refcount snap + 1)).goto (some r)
      (.holding snap)) := by
  have hsnap := h.phase_lt (some r) snap (.inl hloaded)
  have hfreed := h.freedOnce snap hsnap
  rw [if_neg hpos.ne'] at hfreed
  rw [touch_eq (by omega)]
  refine h.moved rfl rfl rfl rfl (eq_update_self s.freed snap) rfl hsnap (fun other hne => ?_) ?_
    fun k hk => ?_
  · simp [hloaded, Phase.Holds, Phase.Frees, Ne.symm hne]
  · simp [hloaded, Phase.Holds]
  · simp only [hloaded, Phase.Frees, reduceCtorEq, or_self, if_false, Nat.add_zero] at hk
    rw [hk, hfreed, if_neg (Nat.succ_ne_zero _)]

/-- Whoever takes the last reference is the one to free the snapshot. -/
theorem fetchSub (h : Sound s) {t : Thread readers} {snap : SnapId}
    (hholding : s.phase t = .holding snap) :
    Sound (((s.touch snap).setRefcount snap (s.refcount snap - 1)).goto t
      (if s.refcount snap = 1 then .dropped snap else .idle)) := by
  obtain ⟨hpos, hsnap, hfreed, hfreers⟩ := h.of_holding hholding
  rw [touch_eq hfreed]
  by_cases hlast : s.refcount snap = 1
  · rw [if_pos hlast]
    refine h.moved rfl rfl rfl rfl (eq_update_self s.freed snap) rfl hsnap (fun other hne => ?_) ?_
      fun k hk => ?_
    · simp [hholding, Phase.Holds, Phase.Frees, Ne.symm hne]
    · simp [hholding, Phase.Holds, hlast]
    · simp [hholding, Phase.Frees, hfreers] at hk
      simp [hlast, hfreed, hk]
  · rw [if_neg hlast]
    refine h.moved rfl rfl rfl rfl (eq_update_self s.freed snap) rfl hsnap (fun other hne => ?_) ?_
      fun k hk => ?_
    · simp [hholding, Phase.Holds, Phase.Frees, Ne.symm hne]
    · simp [hholding, Phase.Holds]
      omega
    · simp [hholding, Phase.Frees, hfreers] at hk
      rw [hfreed, hk, if_neg (by omega)]

/-- What has no references is not current, so it is freed. -/
theorem loadCurrent (h : Sound s) {t : Thread readers} {snap : SnapId}
    (hdropped : s.phase t = .dropped snap) :
    Sound ((s.touch snap).goto t (if s.current = snap then .idle else .orphaned snap)) := by
  have hfrees : (s.phase t).Frees snap := .inl hdropped
  obtain ⟨-, hsnap, hfreed, hcurrent⟩ := h.of_frees hfrees
  have honce := h.freedOnce snap hsnap
  rw [touch_eq hfreed, if_neg hcurrent]
  refine h.moved rfl rfl rfl (eq_update_self s.refcount snap) (eq_update_self s.freed snap) rfl
    hsnap (fun other hne => ?_) ?_ fun k hk => ?_
  · simp [hdropped, Phase.Holds, Phase.Frees, Ne.symm hne]
  · simp [hdropped, Phase.Holds]
  · simp [hdropped, Phase.Frees] at hk
    rw [hk, honce]

/-- A dead snapshot is freed by the thread that has it. -/
theorem free (h : Sound s) {t : Thread readers} {snap : SnapId}
    (horphaned : s.phase t = .orphaned snap) :
    Sound (((s.touch snap).freeSnapshot snap).goto t .idle) := by
  have hfrees : (s.phase t).Frees snap := .inr horphaned
  obtain ⟨hzero, hsnap, hfreed, -⟩ := h.of_frees hfrees
  have honce := h.freedOnce snap hsnap
  rw [touch_eq hfreed]
  refine h.moved rfl rfl rfl (eq_update_self s.refcount snap) rfl rfl hsnap (fun other hne => ?_) ?_
    fun k hk => ?_
  · simp [horphaned, Phase.Holds, Phase.Frees, Ne.symm hne]
  · simp [horphaned, Phase.Holds]
  · simp [horphaned, Phase.Frees] at hk
    rw [if_pos hzero] at honce ⊢
    omega

end Sound

/-- **Every guarded operation keeps the references accounted for.** -/
theorem Sound.step {s s' : State readers} {a : Action readers} (h : Sound s) (hguard : Guarded s a)
    (hstep : step s a = some s') : Sound s' := by
  cases a with
  | swap =>
    rw [SnapshotSharing.step] at hstep
    split at hstep
    · rename_i hidle
      exact Option.some.inj hstep ▸ h.swap hidle
    · cases hstep
  | load r =>
    rw [SnapshotSharing.step] at hstep
    split at hstep
    · rename_i hidle
      exact Option.some.inj hstep ▸ h.load hidle
    · cases hstep
  | fetchAdd r =>
    rw [SnapshotSharing.step] at hstep
    split at hstep
    · rename_i snap hloaded
      exact Option.some.inj hstep ▸ h.fetchAdd hloaded (hguard snap hloaded)
    · cases hstep
  | read r =>
    rw [SnapshotSharing.step] at hstep
    split at hstep
    · rename_i snap hholding
      obtain rfl := Option.some.inj hstep
      rw [touch_eq (h.of_holding hholding).2.2.1]
      exact h
    · cases hstep
  | fetchSub t =>
    rw [SnapshotSharing.step] at hstep
    split at hstep
    · rename_i snap hholding
      exact Option.some.inj hstep ▸ h.fetchSub hholding
    · cases hstep
  | loadCurrent t =>
    rw [SnapshotSharing.step] at hstep
    split at hstep
    · rename_i snap hdropped
      exact Option.some.inj hstep ▸ h.loadCurrent hdropped
    · cases hstep
  | free t =>
    rw [SnapshotSharing.step] at hstep
    split at hstep
    · rename_i snap horphaned
      exact Option.some.inj hstep ▸ h.free horphaned
    · cases hstep

/-- **Sharing is safe as long as no reader is overtaken.**  In every run in which each increment
finds a positive count, every state is safe. -/
theorem safe_of_guarded {actions : List (Action readers)}
    (halong : StepMachine.Along step Guarded (State.start readers) actions)
    {before : List (Action readers)} {s : State readers} (hbefore : before <+: actions)
    (hrun : StepMachine.run step (State.start readers) before = some s) : Safe s :=
  (StepMachine.invariant_along (fun _ _ _ h hguard hstep => Sound.step h hguard hstep)
    (sound_start readers) halong before s hbefore hrun).safe

/-- A reader holds a snapshot across a swap, and is the one who frees it. -/
def lastReader : List (Action 1) :=
  [.load 0, .fetchAdd 0, .swap, .fetchSub none, .read 0, .fetchSub (some 0),
    .loadCurrent (some 0), .free (some 0)]

theorem safe_lastReader :
    ∃ s, StepMachine.run step (State.start 1) lastReader = some s ∧ s.freed 0 = 1 ∧ Safe s := by
  obtain ⟨s, hrun, hfreed⟩ :
      ∃ s, StepMachine.run step (State.start 1) lastReader = some s ∧ s.freed 0 = 1 :=
    ⟨_, rfl, rfl⟩
  refine ⟨s, hrun, hfreed, safe_of_guarded ?_ (List.prefix_refl _) hrun⟩
  refine (StepMachine.along_cons rfl).mpr ⟨trivial, (StepMachine.along_cons rfl).mpr ⟨?_, ?_⟩⟩
  · rintro snap ⟨⟩
    exact Nat.one_pos
  · exact ⟨trivial, fun _ _ => ⟨trivial, fun _ _ => ⟨trivial, fun _ _ => ⟨trivial, fun _ _ =>
      ⟨trivial, fun _ _ => ⟨trivial, fun _ _ => trivial⟩⟩⟩⟩⟩⟩

/-- **A reader that is overtaken.**  It has loaded the pointer; the writer swaps, takes the last
reference and frees; the reader increments the count of a freed snapshot. -/
theorem not_safe_overtaken :
    ¬ ∀ (readers : ℕ) (actions : List (Action readers)) (s : State readers),
      StepMachine.run step (State.start readers) actions = some s → Safe s := by
  intro hall
  have hsafe := hall 1 [.load 0, .swap, .fetchSub none, .loadCurrent none, .free none, .fetchAdd 0]
    _ rfl
  have hmisused := hsafe.unmisused
  cases hmisused

end SnapshotSharing
end Plug
end TigerClaw
