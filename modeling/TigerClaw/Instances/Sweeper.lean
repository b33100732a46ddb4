import TigerClaw.Instances.Repo
import TigerClaw.Library.StepMachine

/-!
# The sweeper and punctual instances

`src/instances/sweeper.zig`.  A pass reads the clock once and makes two calls, one that evicts and
one that purges; heartbeats of any instance may come before, between and after them.  An instance
declares the interval of its heartbeats when it registers.  The sweeper looks at the interval only
to see whether it is zero, and gives every instance the same grace.

* `Punctual`: the clock does not go back, and never reads later than one declared interval after
  the last heartbeat.
* `Watched`: what holds of the instance as long as it is left alone.
* `spared_iff`: a punctual instance is left alone in every run exactly if its interval is at most
  the grace.
-/

namespace TigerClaw
namespace Instances
namespace Sweeper

def nsPerMs : ℤ := 1000000
def nsPerS : ℤ := 1000 * nsPerMs
def nsPerMin : ℤ := 60 * nsPerS

structure Options where
  graceNs : ℤ := 30 * nsPerS
  purgeAfterNs : ℤ := 5 * nsPerMin

/-- One pass on its own. -/
def sweepOnce (opts : Options) (table : Table) (nowNs : ℤ) : Table :=
  (table.evictExpired nowNs opts.graceNs).purgeEvicted nowNs opts.purgeAfterNs

/-- The table, and the latest reading of the clock. -/
structure World where
  table : Table
  clockNs : ℤ

/-- A call on the table, with the reading of the clock that it uses. -/
inductive Event where
  | insert (rec : Record)
  | setTokenHash (id tokenHash : Bytes)
  | heartbeat (id : Bytes) (nowNs : ℤ)
  | delete (id : Bytes)
  | evictExpired (nowNs : ℤ)
  | purgeEvicted (nowNs : ℤ)

def Event.nowNs : Event → Option ℤ
  | .heartbeat _ nowNs | .evictExpired nowNs | .purgeEvicted nowNs => some nowNs
  | .insert rec => some rec.connectedAtNs
  | .setTokenHash .. | .delete _ => none

/-- The call is one of a sweep. -/
def Event.isSweep : Event → Bool
  | .evictExpired _ | .purgeEvicted _ => true
  | _ => false

/-- What a call does to the table; one that fails does nothing. -/
def apply (opts : Options) (table : Table) : Event → Table
  | .insert rec => (table.insert rec).toOption.getD table
  | .setTokenHash id tokenHash =>
    ((table.setTokenHash id tokenHash).toOption.map Prod.snd).getD table
  | .heartbeat id nowNs => (table.heartbeat id nowNs).2
  | .delete id => table.delete id
  | .evictExpired nowNs => table.evictExpired nowNs opts.graceNs
  | .purgeEvicted nowNs => table.purgeEvicted nowNs opts.purgeAfterNs

def step (opts : Options) (w : World) (e : Event) : Option World :=
  some { table := apply opts w.table e, clockNs := e.nowNs.getD w.clockNs }

/-- A pass with nothing in between is its two calls. -/
theorem run_sweepOnce (opts : Options) (w : World) (nowNs : ℤ) :
    StepMachine.run (step opts) w [.evictExpired nowNs, .purgeEvicted nowNs]
      = some ⟨sweepOnce opts w.table nowNs, nowNs⟩ := rfl

/-! ## Punctual instances -/

/-- The clock does not go back, and reads at most one declared interval after the last heartbeat
of the instance.  (An id that is registered anew stands for another instance.) -/
def Punctual (id : Bytes) (w : World) (e : Event) : Prop :=
  (∀ nowNs, e.nowNs = some nowNs → w.clockNs ≤ nowNs ∧ ∀ r ∈ w.table, r.id = id →
      nowNs ≤ r.lastHeartbeatAtNs + r.heartbeatIntervalMs.toNat * nsPerMs) ∧
    ∀ rec, e = .insert rec → rec.id ≠ id

/-- The rows of an instance. -/
def rowsOf (id : Bytes) (table : Table) : Table := table.filter fun r => r.id == id

/-- **No call of a sweep touches the instance** in a run: none sets its `evicted_at_ns` and none
deletes its row. -/
def Spared (id : Bytes) (w : World) (events : List Event) : Prop :=
  ∀ before e w₁ w₂, before ++ [e] <+: events → e.isSweep = true →
    StepMachine.run (step {}) w before = some w₁ → step {} w₁ e = some w₂ →
    rowsOf id w₂.table = rowsOf id w₁.table

/-- A registered instance: its row is new, with the interval it declared. -/
structure Registered (rec : Record) (w : World) : Prop where
  inserted : ∃ table, Table.insert table rec = .ok w.table
  beat : rec.lastHeartbeatAtNs = rec.connectedAtNs
  live : rec.evictedAtNs = 0
  clock : w.clockNs = rec.connectedAtNs

/-- What holds of the instance as long as it is left alone. -/
def Watched (id : Bytes) (h : UInt32) (w : World) : Prop :=
  ∀ r ∈ w.table, r.id = id → r.evictedAtNs = 0 ∧ r.heartbeatIntervalMs = h

theorem watched_registered {rec : Record} {w : World} (h : Registered rec w) :
    Watched rec.id rec.heartbeatIntervalMs w := by
  obtain ⟨table, hinsert⟩ := h.inserted
  obtain ⟨hnew, htable⟩ := Table.insert_eq_ok.mp hinsert
  intro r hr hid
  rw [htable, List.mem_append, List.mem_singleton] at hr
  rcases hr with hr | rfl
  · exact absurd hid (hnew r hr)
  · exact ⟨h.live, rfl⟩

section
variable {id : Bytes} {h : UInt32} {w : World}

/-- Within the grace a punctual instance is not expired. -/
theorem not_expired (hw : Watched id h w) (hh : h.toNat ≤ 30000) {nowNs : ℤ}
    (hp : Punctual id w (.evictExpired nowNs)) {r : Row} (hr : r ∈ w.table) (hid : r.id = id) :
    ¬ Table.Expired nowNs (Options.graceNs {}) r := by
  rintro ⟨-, -, hlate⟩
  have hbeat := (hp.1 nowNs rfl).2 r hr hid
  rw [(hw r hr hid).2] at hbeat
  simp only [nsPerS, nsPerMs] at hlate hbeat
  omega

/-- A call of a sweep leaves a punctual instance alone. -/
theorem rowsOf_sweep (hw : Watched id h w) (hh : h.toNat ≤ 30000) {e : Event}
    (hp : Punctual id w e) (he : e.isSweep = true) :
    rowsOf id (apply {} w.table e) = rowsOf id w.table := by
  cases e with
  | evictExpired nowNs =>
    rw [apply, Table.evictExpired, rowsOf, List.filter_map]
    have hkeep : ((fun r : Row => r.id == id) ∘ fun r =>
        if Table.Expired nowNs (Options.graceNs {}) r then { r with evictedAtNs := nowNs } else r)
          = fun r : Row => r.id == id := by
      funext r
      simp only [Function.comp]
      split <;> rfl
    rw [hkeep]
    refine (List.map_congr_left fun r hr => ?_).trans (List.map_id _)
    obtain ⟨hr, hid⟩ := List.mem_filter.mp hr
    exact if_neg (not_expired hw hh hp hr (beq_iff_eq.mp hid))
  | purgeEvicted nowNs =>
    rw [apply, Table.purgeEvicted, rowsOf, List.filter_filter]
    refine List.filter_congr fun r hr => ?_
    by_cases hid : r.id = id
    · simp [hid, (hw r hr hid).1]
    · simp [hid]
  | insert rec => cases he
  | setTokenHash i tokenHash => cases he
  | heartbeat i nowNs => cases he
  | delete i => cases he

/-- **Every call leaves a punctual instance watched.** -/
theorem Watched.step (hw : Watched id h w) (hh : h.toNat ≤ 30000) {e : Event}
    (hp : Punctual id w e) {w' : World} (hstep : step {} w e = some w') : Watched id h w' := by
  obtain rfl := Option.some.inj hstep
  intro r hr hid
  change r ∈ apply {} w.table e at hr
  cases e with
  | insert rec =>
    rw [apply] at hr
    cases hinsert : w.table.insert rec with
    | error err =>
      rw [hinsert] at hr
      exact hw r hr hid
    | ok table =>
      obtain ⟨-, rfl⟩ := Table.insert_eq_ok.mp hinsert
      rw [hinsert] at hr
      rcases List.mem_append.mp hr with hr | hr
      · exact hw r hr hid
      · obtain rfl := List.mem_singleton.mp hr
        exact absurd hid (hp.2 rec rfl)
  | setTokenHash i tokenHash =>
    rw [apply, Table.setTokenHash] at hr
    split at hr
    · exact hw r hr hid
    · obtain ⟨r₀, hr₀, rfl⟩ := Table.mem_updateWhere.mp hr
      split at hid <;> split <;> exact hw r₀ hr₀ hid
  | heartbeat i nowNs =>
    obtain ⟨r₀, hr₀, rfl⟩ := Table.mem_updateWhere.mp hr
    split at hid
    · rename_i hi
      rw [if_pos hi]
      exact ⟨rfl, (hw r₀ hr₀ hid).2⟩
    · rename_i hi
      rw [if_neg hi]
      exact hw r₀ hr₀ hid
  | delete i => exact hw r (List.mem_filter.mp hr).1 hid
  | evictExpired nowNs =>
    have hmem : r ∈ rowsOf id (apply {} w.table (.evictExpired nowNs)) :=
      List.mem_filter.mpr ⟨hr, beq_iff_eq.mpr hid⟩
    rw [rowsOf_sweep hw hh hp rfl] at hmem
    exact hw r (List.mem_filter.mp hmem).1 hid
  | purgeEvicted nowNs => exact hw r (List.mem_filter.mp hr).1 hid

end

/-- An instance that declares an interval, registered at time zero. -/
def registeredAtZero (h : UInt32) : Record where
  id := ascii "tui-00000000"
  kind := .tui
  heartbeatIntervalMs := h
  connectedAtNs := 0
  lastHeartbeatAtNs := 0

theorem registered_atZero (h : UInt32) :
    Registered (registeredAtZero h) ⟨[{ toRecord := registeredAtZero h }], 0⟩ where
  inserted := ⟨[], rfl⟩
  beat := rfl
  live := rfl
  clock := rfl

/-- A pass one interval after the registration is punctual. -/
theorem punctual_atZero (h : UInt32) :
    StepMachine.Along (step {}) (Punctual (registeredAtZero h).id)
      ⟨[{ toRecord := registeredAtZero h }], 0⟩ [.evictExpired (h.toNat * nsPerMs)] := by
  refine ⟨⟨fun nowNs hnow => ?_, fun rec hrec => by cases hrec⟩, fun _ _ => trivial⟩
  obtain rfl := Option.some.inj hnow
  refine ⟨?_, fun r hr _ => ?_⟩
  · change (0 : ℤ) ≤ h.toNat * nsPerMs
    rw [nsPerMs]
    omega
  · obtain rfl := List.mem_singleton.mp hr
    change (h.toNat : ℤ) * nsPerMs ≤ 0 + h.toNat * nsPerMs
    omega

/-- Beyond the grace that pass evicts it. -/
theorem not_spared_atZero {h : UInt32} (hh : 30000 < h.toNat) :
    ¬ Spared (registeredAtZero h).id ⟨[{ toRecord := registeredAtZero h }], 0⟩
      [.evictExpired (h.toNat * nsPerMs)] := by
  intro hspared
  have hrows := hspared [] (.evictExpired (h.toNat * nsPerMs)) _ _ (List.prefix_refl _) rfl rfl rfl
  have hexpired : Table.Expired (h.toNat * nsPerMs) (Options.graceNs {})
      { toRecord := registeredAtZero h } := by
    refine ⟨rfl, Nat.zero_lt_of_lt hh, ?_⟩
    change 0 + 30 * nsPerS < (h.toNat : ℤ) * nsPerMs
    simp only [nsPerS, nsPerMs]
    omega
  have hevicted : apply {} [{ toRecord := registeredAtZero h }] (.evictExpired (h.toNat * nsPerMs))
      = [{ toRecord := { registeredAtZero h with evictedAtNs := h.toNat * nsPerMs } }] := by
    rw [apply, Table.evictExpired, List.map_singleton, if_pos hexpired]
  dsimp only at hrows
  rw [hevicted] at hrows
  simp [rowsOf, registeredAtZero, nsPerMs] at hrows
  omega

/-- **A punctual instance is spared in every run exactly if its interval is at most the grace of
30 seconds.** -/
theorem spared_iff (h : UInt32) :
    (∀ (rec : Record) (w : World) (events : List Event), rec.heartbeatIntervalMs = h →
      Registered rec w → StepMachine.Along (step {}) (Punctual rec.id) w events →
      Spared rec.id w events) ↔ h.toNat ≤ 30000 := by
  constructor
  · intro hall
    by_contra hlong
    exact not_spared_atZero (Nat.lt_of_not_le hlong)
      (hall _ _ _ rfl (registered_atZero h) (punctual_atZero h))
  · rintro hh rec w events rfl hreg halong before e w₁ w₂ hbefore he hrun hstep
    have hpunctual := StepMachine.along_at halong hbefore hrun
    have hwatched := StepMachine.invariant_along
      (fun _ _ _ hw hp hstep => Watched.step hw hh hp hstep) (watched_registered hreg) halong
      before w₁ ((List.prefix_append before [e]).trans hbefore) hrun
    obtain rfl := Option.some.inj hstep
    exact rowsOf_sweep hwatched hh hpunctual he

/-- One heartbeat a minute, in time, is not enough. -/
theorem not_spared_everyMinute :
    ¬ ∀ (rec : Record) (w : World) (events : List Event), 0 < rec.heartbeatIntervalMs.toNat →
      Registered rec w → StepMachine.Along (step {}) (Punctual rec.id) w events →
      Spared rec.id w events := by
  intro hall
  exact not_spared_atZero (h := 60000) (by decide)
    (hall _ _ _ (by decide) (registered_atZero 60000) (punctual_atZero 60000))

end Sweeper
end Instances
end TigerClaw
