import TigerClaw.Library.Episodes
import TigerClaw.Library.StepMachine
import TigerClaw.Plug.DepGraph

/-!
# Starting, draining and stopping plugs

`src/lifecycle.zig`.  The hooks of a plug are optional, and what they return is not the
lifecycle's to decide: every call takes the results of its hooks as an argument.  Each function
appends to a log what it calls and how it returns.

`started_count` never exceeds the length of `order`; `Lifecycle` carries that as a field, so that
`order[i]` is always in bounds.

* `Event.kind`: the log as episodes of starting and stopping.  A plug without an `onStart` hook is
  started when its turn comes.
* `Settled`: what holds between two calls.  The plugs that are started are the first
  `started_count` of the order.
* `lifecycle_balanced`: every run is balanced.
-/

namespace TigerClaw
namespace Plug

/-- Which hooks a plug has. -/
structure VTable where
  onStart : Bool := false
  onDrain : Bool := false
  onStop : Bool := false

/-- A lifecycle-aware plug bundle. -/
structure PlugHandle where
  manifest : Manifest
  vtable : VTable

inductive Phase where
  | idle
  | registered
  | started
  | draining
  | stopped
  deriving DecidableEq

/-- The position of a plug. -/
abbrev PlugIndex (plugs : List PlugHandle) : Type := Index (plugs.map PlugHandle.manifest)

/-- `self.plugs[i]`. -/
def handle {plugs : List PlugHandle} (i : PlugIndex plugs) : PlugHandle :=
  plugs.get (i.cast (List.length_map PlugHandle.manifest))

/-- The topological order of the plugs, and how far it has been started. -/
structure Lifecycle (plugs : List PlugHandle) where
  order : List (PlugIndex plugs)
  phase : Phase := .idle
  startedCount : ℕ := 0
  started_le : startedCount ≤ order.length

/-- What the lifecycle does to the outside, call by call. -/
inductive Event (plugs : List PlugHandle) where
  | startCalled
  | onStart (i : PlugIndex plugs) (result : Except PlugError Unit)
  /-- The turn of a plug without an `onStart` hook. -/
  | passed (i : PlugIndex plugs)
  | startFailed (e : PlugError)
  | startReturned
  | onDrain (i : PlugIndex plugs) (deadlineMs : Int64) (result : Except PlugError Unit)
  | drainReturned (result : Except PlugError Unit)
  | onStop (i : PlugIndex plugs)
  | stopReturned

/-- The results of one hook, plug by plug. -/
abbrev Results (plugs : List PlugHandle) : Type := PlugIndex plugs → Except PlugError Unit

namespace Lifecycle

variable {plugs : List PlugHandle}

def init (plugs : List PlugHandle) : Except SortError (Lifecycle plugs) := do
  let order ← topoSort (plugs.map PlugHandle.manifest)
  pure { order := order, phase := .registered, started_le := Nat.zero_le _ }

/-- The end of the loop of `start`. -/
structure StartRun (plugs : List PlugHandle) where
  log : List (Event plugs)
  startedCount : ℕ
  result : Except PlugError Unit

/-- The loop of `start`, over what is left of the order. -/
def startLoop (results : Results plugs) :
    List (PlugIndex plugs) → List (Event plugs) → ℕ → StartRun plugs
  | [], log, startedCount => ⟨log, startedCount, .ok ()⟩
  | i :: todo, log, startedCount =>
    if (handle i).vtable.onStart then
      match results i with
      | .error e => ⟨log ++ [.onStart i (.error e)], startedCount, .error e⟩
      | .ok () => startLoop results todo (log ++ [.onStart i (.ok ())]) (startedCount + 1)
    else startLoop results todo (log ++ [.passed i]) (startedCount + 1)

theorem startLoop_le (results : Results plugs) (todo : List (PlugIndex plugs))
    (log : List (Event plugs)) (startedCount : ℕ) :
    (startLoop results todo log startedCount).startedCount ≤ startedCount + todo.length := by
  induction todo generalizing log startedCount with
  | nil => exact le_rfl
  | cons i todo ih =>
    have hrest (log : List (Event plugs)) :
        (startLoop results todo log (startedCount + 1)).startedCount ≤
          startedCount + (i :: todo).length := by
      have := ih log (startedCount + 1)
      rw [List.length_cons]
      omega
    rw [startLoop]
    split
    · split
      · exact Nat.le_add_right _ _
      · exact hrest _
    · exact hrest _

/-- The loop of `rollbackStart` and of `stop`: `i` counts down. -/
def stopLoop (lc : Lifecycle plugs) : (i : ℕ) → i ≤ lc.order.length → List (Event plugs) →
    List (Event plugs)
  | 0, _, log => log
  | i + 1, h, log =>
    let p := lc.order.get ⟨i, h⟩
    lc.stopLoop i (Nat.le_of_succ_le h)
      (if (handle p).vtable.onStop then log ++ [.onStop p] else log)

/-- `rollbackStart`. -/
def rollbackStart (lc : Lifecycle plugs) (log : List (Event plugs)) :
    Lifecycle plugs × List (Event plugs) :=
  ({ lc with startedCount := 0, phase := .registered, started_le := Nat.zero_le _ },
    lc.stopLoop lc.startedCount lc.started_le log)

def start (lc : Lifecycle plugs) (results : Results plugs) (log : List (Event plugs)) :
    Lifecycle plugs × List (Event plugs) :=
  let run := startLoop results lc.order (log ++ [.startCalled]) 0
  have hle : run.startedCount ≤ lc.order.length := by
    simpa using startLoop_le results lc.order (log ++ [.startCalled]) 0
  let lc := { lc with startedCount := run.startedCount, started_le := hle }
  match run.result with
  | .ok () => ({ lc with phase := .started }, run.log ++ [.startReturned])
  | .error e =>
    let (lc, log) := lc.rollbackStart run.log
    (lc, log ++ [.startFailed e])

/-- The loop of `drain`: a timeout is remembered, any other error ends it. -/
def drainLoop (lc : Lifecycle plugs) (deadlineMs : Int64) (results : Results plugs) :
    (i : ℕ) → i ≤ lc.order.length → Bool → List (Event plugs) →
      List (Event plugs) × Except PlugError Unit
  | 0, _, anyTimeout, log => (log, if anyTimeout then .error .timeout else .ok ())
  | i + 1, h, anyTimeout, log =>
    let p := lc.order.get ⟨i, h⟩
    let rest := lc.drainLoop deadlineMs results i (Nat.le_of_succ_le h)
    if (handle p).vtable.onDrain then
      match results p with
      | .ok () => rest anyTimeout (log ++ [.onDrain p deadlineMs (.ok ())])
      | .error .timeout => rest true (log ++ [.onDrain p deadlineMs (.error .timeout)])
      | .error e => (log ++ [.onDrain p deadlineMs (.error e)], .error e)
    else rest anyTimeout log

def drain (lc : Lifecycle plugs) (deadlineMs : Int64) (results : Results plugs)
    (log : List (Event plugs)) : Lifecycle plugs × List (Event plugs) :=
  let (log, result) :=
    lc.drainLoop deadlineMs results lc.startedCount lc.started_le false log
  ({ lc with phase := .draining }, log ++ [.drainReturned result])

def stop (lc : Lifecycle plugs) (log : List (Event plugs)) :
    Lifecycle plugs × List (Event plugs) :=
  ({ lc with startedCount := 0, phase := .stopped, started_le := Nat.zero_le _ },
    lc.stopLoop lc.startedCount lc.started_le log ++ [.stopReturned])

end Lifecycle

/-! ## Runs -/

/-- A call, with the results of the hooks it may make use of. -/
inductive Call (plugs : List PlugHandle) where
  | start (results : Results plugs)
  | drain (deadlineMs : Int64) (results : Results plugs)
  | stop

/-- A lifecycle and everything it has done. -/
structure Session (plugs : List PlugHandle) where
  lc : Lifecycle plugs
  log : List (Event plugs)

/-- Take a call that the phase assertions permit. -/
def Session.step {plugs : List PlugHandle} (s : Session plugs) :
    Call plugs → Option (Session plugs)
  | .start results =>
    if s.lc.phase = .registered then
      let (lc, log) := s.lc.start results s.log
      some ⟨lc, log⟩
    else none
  | .drain deadlineMs results =>
    if s.lc.phase = .started then
      let (lc, log) := s.lc.drain deadlineMs results s.log
      some ⟨lc, log⟩
    else none
  | .stop =>
    if s.lc.phase = .draining ∨ s.lc.phase = .started then
      let (lc, log) := s.lc.stop s.log
      some ⟨lc, log⟩
    else none

/-! ## The log as episodes -/

/-- What an event means for starting and stopping.  An episode closes where `start` has failed and
where `stop` has returned. -/
def Event.kind {plugs : List PlugHandle} :
    Event plugs → Episodes.Event (PlugIndex plugs) (Event plugs)
  | .startCalled => .opened
  | .onStart i (.ok ()) => .started i
  | .onStart i (.error _) => .failed i
  | .passed i => .started i
  | .startFailed _ => .closed
  | .onStop i => .stopped i
  | .stopReturned => .closed
  | e => .other e

/-- There is something to stop about the plug. -/
def Held {plugs : List PlugHandle} (i : PlugIndex plugs) : Prop :=
  (handle i).vtable.onStop = true

/-- The log leaves the plugs of `live` started. -/
def Leaves {plugs : List PlugHandle} (log : List (Event plugs)) (live : List (PlugIndex plugs)) :
    Prop :=
  ∃ tried, Episodes.Lawful Held (log.map Event.kind) live tried

variable {plugs : List PlugHandle}

theorem Leaves.other {log : List (Event plugs)} {live : List (PlugIndex plugs)}
    (h : Leaves log live) {e : Event plugs} (he : e.kind = .other e) :
    Leaves (log ++ [e]) live := by
  obtain ⟨tried, hl⟩ := h
  refine ⟨tried, ?_⟩
  rw [List.map_append, List.map_singleton, he]
  exact hl.other

/-- An episode closes when nothing that is left has to be stopped. -/
theorem Leaves.closed {log : List (Event plugs)} {live : List (PlugIndex plugs)}
    (h : Leaves log live) (hfree : ∀ i ∈ live, ¬ Held i) {e : Event plugs}
    (he : e.kind = .closed) : Leaves (log ++ [e]) [] := by
  obtain ⟨tried, hl⟩ := h
  refine ⟨tried, ?_⟩
  rw [List.map_append, List.map_singleton, he]
  exact hl.closed hfree

namespace Lifecycle

/-- The loop of `start`, behind the plugs `done`. -/
theorem leaves_startLoop_append (results : Results plugs) (done : List (PlugIndex plugs))
    {todo : List (PlugIndex plugs)} {log : List (Event plugs)} (hnodup : (done ++ todo).Nodup)
    (h : Episodes.Lawful Held (log.map Event.kind) done.reverse done.reverse) :
    ∃ more rest, todo = more ++ rest ∧
      (startLoop results todo log done.length).startedCount = (done ++ more).length ∧
      Leaves (startLoop results todo log done.length).log (done ++ more).reverse := by
  induction todo generalizing done log with
  | nil => exact ⟨[], [], rfl, by simp [startLoop], ⟨_, by simpa [startLoop] using h⟩⟩
  | cons i todo ih =>
    have hi : i ∉ done.reverse := by
      rw [List.mem_reverse]
      exact fun hmem => (List.nodup_append.mp hnodup).2.2 i hmem i List.mem_cons_self rfl
    -- the two ways to go on with `i` started
    have hnext {e : Event plugs} (he : e.kind = .started i) :
        ∃ more rest, i :: todo = more ++ rest ∧
          (startLoop results todo (log ++ [e]) (done.length + 1)).startedCount =
            (done ++ more).length ∧
          Leaves (startLoop results todo (log ++ [e]) (done.length + 1)).log
            (done ++ more).reverse := by
      have hl : Episodes.Lawful Held ((log ++ [e]).map Event.kind) (done ++ [i]).reverse
          (done ++ [i]).reverse := by
        rw [List.map_append, List.map_singleton, he, List.reverse_append, List.reverse_singleton]
        exact h.started hi
      obtain ⟨more, rest, rfl, hcount, hleaves⟩ :=
        ih (done ++ [i]) (by simpa using hnodup) hl
      rw [List.length_append, List.length_singleton] at hcount hleaves
      exact ⟨i :: more, rest, rfl, by simpa using hcount, by simpa using hleaves⟩
    rw [startLoop]
    split
    · split
      · rename_i e hres
        refine ⟨[], i :: todo, rfl, by simp, ⟨i :: done.reverse, ?_⟩⟩
        rw [List.map_append, List.map_singleton, List.append_nil]
        exact h.failed hi
      · exact hnext rfl
    · exact hnext rfl

/-- **The loop of `start`** leaves as many plugs started as it has counted. -/
theorem leaves_startLoop (results : Results plugs) {order : List (PlugIndex plugs)}
    {log : List (Event plugs)} (hnodup : order.Nodup)
    (h : Episodes.Lawful Held (log.map Event.kind) [] []) :
    Leaves (startLoop results order log 0).log
      (order.take (startLoop results order log 0).startedCount).reverse := by
  obtain ⟨more, rest, rfl, hcount, hleaves⟩ :=
    leaves_startLoop_append results [] hnodup h
  rw [List.length_nil, List.nil_append] at hcount hleaves
  rw [hcount, List.take_left]
  exact hleaves

/-- **The loop of `rollbackStart` and `stop`.**  What it passes over has nothing to stop. -/
theorem leaves_stopLoop (lc : Lifecycle plugs) {k : ℕ} (hk : k ≤ lc.order.length)
    {log : List (Event plugs)} (above : List (PlugIndex plugs)) (habove : ∀ i ∈ above, ¬ Held i)
    (h : Leaves log (above ++ (lc.order.take k).reverse)) :
    ∃ live, Leaves (lc.stopLoop k hk log) live ∧ ∀ i ∈ live, ¬ Held i := by
  induction k generalizing log above with
  | zero => exact ⟨above, by simpa [stopLoop] using h, habove⟩
  | succ k ih =>
    have htake : (lc.order.take (k + 1)).reverse =
        lc.order.get ⟨k, hk⟩ :: (lc.order.take k).reverse := by
      rw [List.take_succ_eq_append_getElem hk, List.reverse_append, List.reverse_singleton]
      rfl
    rw [htake] at h
    rw [stopLoop]
    split
    · obtain ⟨tried, hl⟩ := h
      refine ih (Nat.le_of_succ_le hk) [] (by simp) ⟨tried, ?_⟩
      rw [List.map_append, List.map_singleton, List.nil_append]
      exact hl.stopped habove
    · rename_i hnone
      refine ih (Nat.le_of_succ_le hk) (above ++ [lc.order.get ⟨k, hk⟩]) ?_
        (by simpa using h)
      intro i hi
      rcases List.mem_append.mp hi with hi | hi
      · exact habove i hi
      · rw [List.mem_singleton.mp hi]
        exact hnone

theorem leaves_drainLoop (lc : Lifecycle plugs) (deadlineMs : Int64) (results : Results plugs)
    {live : List (PlugIndex plugs)} {k : ℕ} (hk : k ≤ lc.order.length) {anyTimeout : Bool}
    {log : List (Event plugs)} (h : Leaves log live) :
    Leaves (lc.drainLoop deadlineMs results k hk anyTimeout log).1 live := by
  induction k generalizing anyTimeout log with
  | zero => exact h
  | succ k ih =>
    rw [drainLoop]
    split
    · split
      · exact ih _ (h.other rfl)
      · exact ih _ (h.other rfl)
      · exact h.other rfl
    · exact ih _ h

end Lifecycle

/-! ## What holds between two calls -/

/-- Before a `start` that succeeds and after `stop`. -/
def Phase.resting : Phase → Prop
  | .registered | .stopped => True
  | _ => False

/-- The plugs that are started are the first `startedCount` of the order, and at rest there are
none. -/
structure Settled (s : Session plugs) : Prop where
  nodup : s.lc.order.Nodup
  leaves : Leaves s.log (s.lc.order.take s.lc.startedCount).reverse
  resting : s.lc.phase.resting → s.lc.startedCount = 0

theorem settled_init {lc : Lifecycle plugs} (h : Lifecycle.init plugs = .ok lc) :
    Settled ⟨lc, []⟩ := by
  obtain ⟨order, hsort, hlc⟩ : ∃ order, topoSort (plugs.map PlugHandle.manifest) = .ok order ∧
      lc = { order := order, phase := .registered, started_le := Nat.zero_le _ } := by
    rw [Lifecycle.init] at h
    cases hsort : topoSort (plugs.map PlugHandle.manifest) with
    | error e => rw [hsort] at h; cases h
    | ok order => rw [hsort] at h; exact ⟨order, rfl, (Except.ok.inj h).symm⟩
  subst hlc
  refine ⟨?_, ⟨[], Episodes.Lawful.nil⟩, fun _ => rfl⟩
  exact (perm_of_topoSort hsort).nodup_iff.mpr (List.nodup_finRange _)

theorem Settled.start {s : Session plugs} (hs : Settled s) (hphase : s.lc.phase = .registered)
    (results : Results plugs) :
    Settled ⟨(s.lc.start results s.log).1, (s.lc.start results s.log).2⟩ := by
  obtain ⟨tried, hl⟩ := hs.leaves
  rw [hs.resting (by rw [hphase]; trivial), List.take_zero, List.reverse_nil] at hl
  have hopen : Episodes.Lawful Held ((s.log ++ [Event.startCalled]).map Event.kind) [] [] := by
    rw [List.map_append, List.map_singleton]
    exact hl.opened
  have hleaves := Lifecycle.leaves_startLoop results hs.nodup hopen
  have hle : (Lifecycle.startLoop results s.lc.order (s.log ++ [.startCalled]) 0).startedCount ≤
      s.lc.order.length := by
    simpa using Lifecycle.startLoop_le results s.lc.order (s.log ++ [.startCalled]) 0
  unfold Lifecycle.start
  simp only
  split
  · exact ⟨hs.nodup, hleaves.other rfl, fun h => by cases h⟩
  · obtain ⟨live, hlive, hfree⟩ := Lifecycle.leaves_stopLoop
      { s.lc with startedCount := _, started_le := hle } hle [] (by simp) hleaves
    exact ⟨hs.nodup, hlive.closed hfree rfl, fun _ => rfl⟩

theorem Settled.drain {s : Session plugs} (hs : Settled s) (deadlineMs : Int64)
    (results : Results plugs) :
    Settled ⟨(s.lc.drain deadlineMs results s.log).1, (s.lc.drain deadlineMs results s.log).2⟩ :=
  ⟨hs.nodup, (s.lc.leaves_drainLoop deadlineMs results _ hs.leaves).other rfl, fun h => by cases h⟩

theorem Settled.stop {s : Session plugs} (hs : Settled s) :
    Settled ⟨(s.lc.stop s.log).1, (s.lc.stop s.log).2⟩ := by
  obtain ⟨live, hlive, hfree⟩ :=
    s.lc.leaves_stopLoop s.lc.started_le [] (by simp) (by simpa using hs.leaves)
  exact ⟨hs.nodup, hlive.closed hfree rfl, fun _ => rfl⟩

/-- **Every call that is permitted keeps the session settled.** -/
theorem Settled.step {s s' : Session plugs} {c : Call plugs} (hs : Settled s)
    (h : s.step c = some s') : Settled s' := by
  cases c with
  | start results =>
    rw [Session.step] at h
    split at h
    · rename_i hphase
      obtain rfl := Option.some.inj h
      exact hs.start hphase results
    · cases h
  | drain deadlineMs results =>
    rw [Session.step] at h
    split at h
    · obtain rfl := Option.some.inj h
      exact hs.drain deadlineMs results
    · cases h
  | stop =>
    rw [Session.step] at h
    split at h
    · obtain rfl := Option.some.inj h
      exact hs.stop
    · cases h

/-! ## Only hooks that exist are called -/

/-- The plug has the hook that is called, or lacks the one that is passed over. -/
def Event.Possible : Event plugs → Prop
  | .onStart i _ => (handle i).vtable.onStart = true
  | .passed i => (handle i).vtable.onStart = false
  | .onDrain i _ _ => (handle i).vtable.onDrain = true
  | .onStop i => (handle i).vtable.onStop = true
  | _ => True

/-- Every event of the log is possible. -/
def AllPossible (log : List (Event plugs)) : Prop := ∀ e ∈ log, e.Possible

theorem AllPossible.concat {log : List (Event plugs)} (h : AllPossible log) {e : Event plugs}
    (he : e.Possible) : AllPossible (log ++ [e]) := by
  intro e' he'
  rcases List.mem_append.mp he' with he' | he'
  · exact h e' he'
  · rw [List.mem_singleton.mp he']
    exact he

namespace Lifecycle

theorem possible_startLoop (results : Results plugs) (todo : List (PlugIndex plugs))
    {log : List (Event plugs)} (startedCount : ℕ) (h : AllPossible log) :
    AllPossible (startLoop results todo log startedCount).log := by
  induction todo generalizing log startedCount with
  | nil => exact h
  | cons i todo ih =>
    rw [startLoop]
    split
    · rename_i hhook
      split
      · exact h.concat hhook
      · exact ih _ (h.concat hhook)
    · rename_i hhook
      exact ih _ (h.concat (by simpa [Event.Possible] using hhook))

theorem possible_stopLoop (lc : Lifecycle plugs) {k : ℕ} (hk : k ≤ lc.order.length)
    {log : List (Event plugs)} (h : AllPossible log) : AllPossible (lc.stopLoop k hk log) := by
  induction k generalizing log with
  | zero => exact h
  | succ k ih =>
    rw [stopLoop]
    split
    · rename_i hhook
      exact ih _ (h.concat hhook)
    · exact ih _ h

theorem possible_drainLoop (lc : Lifecycle plugs) (deadlineMs : Int64) (results : Results plugs)
    {k : ℕ} (hk : k ≤ lc.order.length) {anyTimeout : Bool} {log : List (Event plugs)}
    (h : AllPossible log) :
    AllPossible (lc.drainLoop deadlineMs results k hk anyTimeout log).1 := by
  induction k generalizing anyTimeout log with
  | zero => exact h
  | succ k ih =>
    rw [drainLoop]
    split
    · rename_i hhook
      split
      · exact ih _ (h.concat hhook)
      · exact ih _ (h.concat hhook)
      · exact h.concat hhook
    · exact ih _ h

end Lifecycle

theorem possible_step {s s' : Session plugs} {c : Call plugs} (hs : AllPossible s.log)
    (h : s.step c = some s') : AllPossible s'.log := by
  cases c with
  | start results =>
    rw [Session.step] at h
    split at h
    · obtain rfl := Option.some.inj h
      have hrun := Lifecycle.possible_startLoop results s.lc.order 0
        (hs.concat (e := .startCalled) trivial)
      simp only
      split
      · exact hrun.concat trivial
      · exact (Lifecycle.possible_stopLoop _ _ hrun).concat trivial
    · cases h
  | drain deadlineMs results =>
    rw [Session.step] at h
    split at h
    · obtain rfl := Option.some.inj h
      exact (s.lc.possible_drainLoop deadlineMs results _ hs).concat trivial
    · cases h
  | stop =>
    rw [Session.step] at h
    split at h
    · obtain rfl := Option.some.inj h
      exact (s.lc.possible_stopLoop _ hs).concat trivial
    · cases h

/-! ## Balance -/

/-- **Every run is balanced**, and calls only hooks that exist.  Every `onStop` belongs to one
start of that plug in the same episode, comes when everything started later has been stopped, and
is not for a plug whose `onStart` failed; where `start` has failed and where `stop` has returned,
no plug with something to stop is left started, and no plug at all is counted as started. -/
theorem lifecycle_balanced {lc : Lifecycle plugs} (hinit : Lifecycle.init plugs = .ok lc)
    {calls : List (Call plugs)} {s : Session plugs}
    (hrun : StepMachine.run Session.step ⟨lc, []⟩ calls = some s) :
    Episodes.Balanced Held (s.log.map Event.kind) ∧ AllPossible s.log ∧
      (s.lc.phase.resting → s.lc.startedCount = 0) := by
  have hs : Settled s := StepMachine.invariant_run (I := Settled)
    (fun s c s' hs h => hs.step h) (settled_init hinit) hrun
  have hp : AllPossible s.log := StepMachine.invariant_run
    (I := fun s : Session plugs => AllPossible s.log) (fun s c s' hs h => possible_step hs h)
    (fun e he => absurd he List.not_mem_nil) hrun
  obtain ⟨tried, hl⟩ := hs.leaves
  exact ⟨hl.balanced, hp, hs.resting⟩

/-- A clock, and a meter that needs it and has nothing to stop. -/
def clockAndMeter : List PlugHandle :=
  [{ manifest := { id := ascii "meter", provides := [.meter], deps := [⟨.clock, .requires⟩] },
     vtable := { onStart := true, onDrain := true } },
   { manifest := { id := ascii "clock", provides := [.clock], deps := [] },
     vtable := { onStart := true, onStop := true } }]

/-- A start in which the meter fails, a start that succeeds, a drain that is cut short, a stop. -/
theorem lifecycle_balanced_clockAndMeter :
    ∃ lc s, Lifecycle.init clockAndMeter = .ok lc ∧
      StepMachine.run Session.step ⟨lc, []⟩
        [.start fun i => if i.val = 0 then .error .internal else .ok (), .start fun _ => .ok (),
          .drain 1000 fun _ => .error .refused, .stop] = some s ∧ s.log.length = 13 ∧
      Episodes.Balanced Held (s.log.map Event.kind) ∧ AllPossible s.log ∧
      (s.lc.phase.resting → s.lc.startedCount = 0) := by
  obtain ⟨lc, s, hinit, hrun, hlen⟩ : ∃ lc s, Lifecycle.init clockAndMeter = .ok lc ∧
      StepMachine.run Session.step ⟨lc, []⟩
        [.start fun i => if i.val = 0 then .error .internal else .ok (), .start fun _ => .ok (),
          .drain 1000 fun _ => .error .refused, .stop] = some s ∧ s.log.length = 13 :=
    ⟨_, _, rfl, rfl, rfl⟩
  exact ⟨lc, s, hinit, hrun, hlen, lifecycle_balanced hinit hrun⟩

/-- A plug with something to stop and nothing to start. -/
def stopOnly : List PlugHandle :=
  [{ manifest := { id := ascii "telemetry", provides := [.telemetry], deps := [] },
     vtable := { onStop := true } }]

/-- Its `onStop` is called although no `onStart` ran. -/
theorem lifecycle_stops_without_onStart :
    ¬ ∀ (plugs : List PlugHandle) (lc : Lifecycle plugs) (calls : List (Call plugs))
      (s : Session plugs), Lifecycle.init plugs = .ok lc →
      StepMachine.run Session.step ⟨lc, []⟩ calls = some s →
      ∀ before (i : PlugIndex plugs) after, s.log = before ++ Event.onStop i :: after →
        Event.onStart i (.ok ()) ∈ before := by
  intro hall
  have hran := hall stopOnly _ [.start fun _ => .ok (), .stop] _ rfl rfl
    [.startCalled, .passed (0 : Fin 1), .startReturned] (0 : Fin 1) [.stopReturned] rfl
  simp at hran

end Plug
end TigerClaw
