import TigerClaw.Cli.FileTools

/-!
# Switching the sandbox of all agents

`registrySetSandbox` of `src/cli/commands/agent_registry.zig` goes over the loaded agents and stops
where one fails.  `setSandboxMode` of `src/cli/commands/live_runner.zig` stores the mode, takes the
lock of the path, frees the old path and copies the new one.  A tool that is dispatched meanwhile
reads the mode at any time, and the path while the lock is free.

* `setSandboxMode`, `registrySetSandbox`: the code, with the states that are passed through.
* `AllOrNothing`: what a call is to do.
* `allOrNothing_of_ne`, `not_allOrNothing_of_locked`: a call on agents that are not locked.
* `run_allOrNothing_iff`: the calls of a run do it exactly if there are no agents, or none of the
  calls locks them.
* `run_settles_iff`: what is left behind the calls of a run is right exactly if every one that locks
  has a path, and no allocation fails.
-/

namespace TigerClaw
namespace Cli
namespace SandboxSwitch

open FileTools (SandboxMode)

/-- The slice `lock_path`. -/
inductive LockPath where
  | empty
  | live (path : Bytes)
  /-- What it points to has been freed. -/
  | freed
  deriving DecidableEq

/-- What `LiveAgentRunner` keeps of the sandbox. -/
structure Agent where
  sandboxMode : SandboxMode := .unlocked
  lockPath : LockPath := .empty
  lockPathBusy : Bool := false
  deriving DecidableEq

/-- The states that a call passes through, the one that it leaves, and whether it succeeds. -/
structure Passed (α : Type) where
  states : List α
  last : α
  ok : Bool

/-- `setSandboxMode`; `allocFails` says what becomes of the copy. -/
def Agent.setSandboxMode (self : Agent) (mode : SandboxMode) (path : Bytes) (allocFails : Bool) :
    Passed Agent :=
  let stored := { self with sandboxMode := mode }
  let begun := { stored with lockPathBusy := true }
  let released := if begun.lockPath = .empty then begun else { begun with lockPath := .freed }
  if mode = .locked ∧ path ≠ [] then
    if allocFails then
      { states := [stored, begun, released], last := { released with lockPathBusy := false }
        ok := false }
    else
      let copied := { released with lockPath := .live path }
      { states := [stored, begun, released, copied]
        last := { copied with lockPathBusy := false }, ok := true }
  else
    let cleared := { released with lockPath := .empty }
    { states := [stored, begun, released, cleared]
      last := { cleared with lockPathBusy := false }, ok := true }

/-- `registrySetSandbox`, with what becomes of the copies, agent by agent. -/
def registrySetSandbox (mode : SandboxMode) (path : Bytes) :
    List Agent → List Bool → Passed (List Agent)
  | [], _ => { states := [], last := [], ok := true }
  | e :: entries, allocFails =>
    let switched := e.setSandboxMode mode path (allocFails.headD false)
    let here := switched.states.map (· :: entries)
    if switched.ok then
      let rest := registrySetSandbox mode path entries allocFails.tail
      { states := here ++ (switched.last :: entries) :: rest.states.map (switched.last :: ·)
        last := switched.last :: rest.last, ok := rest.ok }
    else { states := here, last := switched.last :: entries, ok := false }

/-- A call, with the pattern of its failures. -/
structure Call where
  mode : SandboxMode
  path : Bytes
  allocFails : List Bool := []

def Call.apply (self : Call) (agents : List Agent) : Passed (List Agent) :=
  registrySetSandbox self.mode self.path agents self.allocFails

/-! ## What a call is to do -/

/-- The mode and the path. -/
def Agent.pair (self : Agent) : SandboxMode × LockPath := (self.sandboxMode, self.lockPath)

/-- The pair that a call sets; the path counts in locked mode only. -/
def Call.pair (self : Call) : SandboxMode × LockPath :=
  (self.mode, if self.mode = .locked ∧ self.path ≠ [] then .live self.path else .empty)

/-- What `snapshotLockPath` copies, when the lock is free. -/
def Agent.snapshotLockPath (self : Agent) : Option LockPath :=
  if self.lockPathBusy then none else some self.lockPath

/-- A dispatch that finds the agent locked reads a path. -/
def Agent.Guarded (self : Agent) : Prop :=
  self.sandboxMode = .locked → ∀ read ∈ self.snapshotLockPath, ∃ path, path ≠ [] ∧ read = .live path

/-- A call leaves the new pair everywhere, or the old ones. -/
structure Settled (call : Call) (agents : List Agent) : Prop where
  success : (call.apply agents).ok = true → ∀ e ∈ (call.apply agents).last, e.pair = call.pair
  failure : (call.apply agents).ok = false →
    (call.apply agents).last.map Agent.pair = agents.map Agent.pair
  same : ∀ e ∈ (call.apply agents).last, ∀ e' ∈ (call.apply agents).last, e.pair = e'.pair
  guarded : ∀ e ∈ (call.apply agents).last, e.Guarded

/-- And no dispatch comes to a wrong path on the way. -/
structure AllOrNothing (call : Call) (agents : List Agent) : Prop extends Settled call agents where
  between : ∀ state ∈ (call.apply agents).states, ∀ e ∈ state, e.Guarded

/-- Every call of a run does what `P` asks for. -/
def Throughout (P : Call → List Agent → Prop) : List Call → List Agent → Prop
  | [], _ => True
  | call :: calls, agents => P call agents ∧ Throughout P calls (call.apply agents).last

/-- The agents of a registry that has just been loaded. -/
def loaded (n : ℕ) : List Agent := List.replicate n {}

/-- An agent with a pair, and its lock free. -/
def resting (pair : SandboxMode × LockPath) : Agent where
  sandboxMode := pair.1
  lockPath := pair.2

/-! ## A switch -/

theorem guarded_of_ne {e : Agent} (h : e.sandboxMode ≠ .locked) : e.Guarded :=
  fun hlocked => absurd hlocked h

/-- A dispatch can read the path of an agent whose lock is free. -/
theorem guarded_resting_iff (pair : SandboxMode × LockPath) :
    (resting pair).Guarded ↔ (pair.1 = .locked → ∃ path, path ≠ [] ∧ pair.2 = .live path) := by
  refine imp_congr_right fun _ => ?_
  have hread : (resting pair).snapshotLockPath = some pair.2 := rfl
  simp [hread]

variable {mode : SandboxMode} {path : Bytes}

/-- A switch that has nothing to copy, or can copy it, leaves the new pair. -/
theorem setSandboxMode_of_ok {fails : Bool} (e : Agent)
    (h : mode = .locked ∧ path ≠ [] → fails = false) :
    (e.setSandboxMode mode path fails).ok = true ∧
      (e.setSandboxMode mode path fails).last = resting (Call.pair { mode, path }) := by
  unfold Agent.setSandboxMode Call.pair
  by_cases hcopy : mode = .locked ∧ path ≠ []
  · rw [if_pos hcopy, if_pos hcopy, h hcopy, if_neg Bool.false_ne_true]
    refine ⟨rfl, ?_⟩
    dsimp only
    split <;> rfl
  · rw [if_neg hcopy, if_neg hcopy]
    refine ⟨rfl, ?_⟩
    dsimp only
    split <;> rfl

/-- A switch whose copy fails leaves the new mode without a path. -/
theorem setSandboxMode_of_fails (e : Agent) (hcopy : mode = .locked ∧ path ≠ []) :
    (e.setSandboxMode mode path true).ok = false ∧
      ¬ (e.setSandboxMode mode path true).last.Guarded := by
  obtain ⟨rfl, hpath⟩ := hcopy
  unfold Agent.setSandboxMode
  rw [if_pos ⟨rfl, hpath⟩, if_pos rfl]
  refine ⟨rfl, fun hguarded => ?_⟩
  dsimp only at hguarded
  split at hguarded
  · rename_i hempty
    obtain ⟨p, _, hp⟩ := hguarded rfl _ rfl
    exact absurd (hempty.symm.trans hp) (by rintro ⟨⟩)
  · obtain ⟨p, _, hp⟩ := hguarded rfl _ rfl
    cases hp

/-- While an agent is switched to another mode it is not locked. -/
theorem sandboxMode_of_mem_states {e s : Agent} {fails : Bool}
    (h : s ∈ (e.setSandboxMode mode path fails).states) : s.sandboxMode = mode := by
  unfold Agent.setSandboxMode at h
  dsimp only at h
  split_ifs at h <;> simp only [List.mem_cons, List.not_mem_nil, or_false] at h
  all_goals rcases h with rfl | rfl | rfl | rfl <;> rfl

/-! ## The fan-out -/

theorem registrySetSandbox_cons_of_ok {e : Agent} {agents : List Agent} {fails : List Bool}
    (h : (e.setSandboxMode mode path (fails.headD false)).ok = true) :
    registrySetSandbox mode path (e :: agents) fails =
      { states := (e.setSandboxMode mode path (fails.headD false)).states.map (· :: agents) ++
          ((e.setSandboxMode mode path (fails.headD false)).last :: agents) ::
            (registrySetSandbox mode path agents fails.tail).states.map
              ((e.setSandboxMode mode path (fails.headD false)).last :: ·)
        last := (e.setSandboxMode mode path (fails.headD false)).last ::
          (registrySetSandbox mode path agents fails.tail).last
        ok := (registrySetSandbox mode path agents fails.tail).ok } := if_pos h

theorem registrySetSandbox_cons_of_fails {e : Agent} {agents : List Agent} {fails : List Bool}
    (h : (e.setSandboxMode mode path (fails.headD false)).ok = false) :
    registrySetSandbox mode path (e :: agents) fails =
      { states := (e.setSandboxMode mode path (fails.headD false)).states.map (· :: agents)
        last := (e.setSandboxMode mode path (fails.headD false)).last :: agents
        ok := false } := if_neg (Bool.eq_false_iff.mp h)

/-- Where every copy that is needed can be made, all agents get the new pair. -/
theorem registrySetSandbox_of_ok (agents : List Agent) (fails : List Bool)
    (h : mode = .locked ∧ path ≠ [] → ∀ b ∈ fails.take agents.length, b = false) :
    (registrySetSandbox mode path agents fails).ok = true ∧
      (registrySetSandbox mode path agents fails).last =
        agents.map fun _ => resting (Call.pair { mode, path }) := by
  induction agents generalizing fails with
  | nil => exact ⟨rfl, rfl⟩
  | cons e agents ih =>
    have hhere : mode = .locked ∧ path ≠ [] → fails.headD false = false := by
      intro hcopy
      cases fails with
      | nil => rfl
      | cons b fails => exact h hcopy b List.mem_cons_self
    have hrest : mode = .locked ∧ path ≠ [] → ∀ b ∈ fails.tail.take agents.length, b = false := by
      intro hcopy b hb
      cases fails with
      | nil => simp at hb
      | cons c fails => exact h hcopy b (List.mem_cons_of_mem c hb)
    obtain ⟨hok, hlast⟩ := setSandboxMode_of_ok e hhere
    obtain ⟨hmore, hagents⟩ := ih fails.tail hrest
    rw [registrySetSandbox_cons_of_ok hok]
    exact ⟨hmore, by rw [hlast, hagents, List.map_cons]⟩

/-- Where a copy fails, the call fails, and an agent is left locked without a path. -/
theorem registrySetSandbox_of_fails (hcopy : mode = .locked ∧ path ≠ []) (agents : List Agent)
    (fails : List Bool) (h : true ∈ fails.take agents.length) :
    (registrySetSandbox mode path agents fails).ok = false ∧
      ∃ e ∈ (registrySetSandbox mode path agents fails).last, ¬ e.Guarded := by
  induction agents generalizing fails with
  | nil => simp at h
  | cons e agents ih =>
    cases fails with
    | nil => simp at h
    | cons b fails =>
      cases b with
      | true =>
        obtain ⟨hok, hguarded⟩ := setSandboxMode_of_fails e hcopy
        have hhere : (e.setSandboxMode mode path ((true :: fails).headD false)).ok = false := hok
        rw [registrySetSandbox_cons_of_fails hhere]
        exact ⟨rfl, _, List.mem_cons_self, hguarded⟩
      | false =>
        obtain ⟨hok, -⟩ := setSandboxMode_of_ok e fun _ : mode = .locked ∧ path ≠ [] => rfl
        have hmore : true ∈ fails.take agents.length := by simpa using h
        obtain ⟨hfails, e', he', hguarded⟩ := ih fails hmore
        have hhere : (e.setSandboxMode mode path ((false :: fails).headD false)).ok = true := hok
        rw [registrySetSandbox_cons_of_ok hhere]
        exact ⟨hfails, e', List.mem_cons_of_mem _ he', hguarded⟩

/-- While agents that are not locked are switched to another mode, none is locked. -/
theorem sandboxMode_of_mem_registry (hmode : mode ≠ .locked) (agents : List Agent)
    (hagents : ∀ e ∈ agents, e.sandboxMode ≠ .locked) (fails : List Bool) :
    ∀ state ∈ (registrySetSandbox mode path agents fails).states,
      ∀ e ∈ state, e.sandboxMode ≠ .locked := by
  induction agents generalizing fails with
  | nil => exact fun state hstate => absurd hstate List.not_mem_nil
  | cons e agents ih =>
    obtain ⟨he, hagents⟩ := List.forall_mem_cons.mp hagents
    have hhere : mode = .locked ∧ path ≠ [] → fails.headD false = false := fun hcopy =>
      absurd hcopy.1 hmode
    obtain ⟨hok, hlast⟩ := setSandboxMode_of_ok e hhere
    have hswitched : (resting (Call.pair { mode, path })).sandboxMode ≠ .locked := hmode
    rw [registrySetSandbox_cons_of_ok hok, hlast]
    intro state hstate
    rcases List.mem_append.mp hstate with hhere | hlater
    · obtain ⟨s, hs, rfl⟩ := List.mem_map.mp hhere
      refine List.forall_mem_cons.mpr ⟨?_, hagents⟩
      rw [sandboxMode_of_mem_states hs]
      exact hmode
    · rcases List.mem_cons.mp hlater with rfl | hlater
      · exact List.forall_mem_cons.mpr ⟨hswitched, hagents⟩
      · obtain ⟨s, hs, rfl⟩ := List.mem_map.mp hlater
        exact List.forall_mem_cons.mpr ⟨hswitched, ih hagents _ s hs⟩

/-! ## A call on agents that rest -/

theorem pair_of_mem_map {agents : List Agent} {pair : SandboxMode × LockPath} {e : Agent}
    (h : e ∈ agents.map fun _ => resting pair) : e = resting pair := by
  obtain ⟨_, _, rfl⟩ := List.mem_map.mp h
  rfl

/-- What a call does that needs no copy that fails. -/
theorem apply_of_ok {call : Call} {agents : List Agent}
    (h : call.mode = .locked ∧ call.path ≠ [] →
      ∀ b ∈ call.allocFails.take agents.length, b = false) :
    (call.apply agents).ok = true ∧
      (call.apply agents).last = agents.map fun _ => resting call.pair :=
  registrySetSandbox_of_ok agents call.allocFails h

theorem settled_of_ok {call : Call} {agents : List Agent}
    (h : call.mode = .locked ∧ call.path ≠ [] →
      ∀ b ∈ call.allocFails.take agents.length, b = false)
    (hguarded : agents ≠ [] → (resting call.pair).Guarded) : Settled call agents := by
  obtain ⟨hok, hlast⟩ := apply_of_ok h
  have hpair : ∀ e ∈ (call.apply agents).last, e = resting call.pair := fun e he =>
    pair_of_mem_map (hlast ▸ he)
  refine ⟨fun _ e he => ?_, fun hfails => ?_, fun e he e' he' => ?_, fun e he => ?_⟩
  · rw [hpair e he]
    rfl
  · rw [hok] at hfails
    cases hfails
  · rw [hpair e he, hpair e' he']
  · rw [hpair e he]
    refine hguarded ?_
    rintro rfl
    rw [hlast] at he
    cases he

/-- **Agents that are not locked are switched to another mode** as they are to be. -/
theorem allOrNothing_of_ne {call : Call} (hmode : call.mode ≠ .locked) {agents : List Agent}
    (hagents : ∀ e ∈ agents, e.sandboxMode ≠ .locked) : AllOrNothing call agents where
  toSettled := settled_of_ok (fun hcopy => absurd hcopy.1 hmode) fun _ => guarded_of_ne hmode
  between := fun state hstate e he =>
    guarded_of_ne (sandboxMode_of_mem_registry hmode agents hagents _ state hstate e he)

/-- **An agent without a path is locked before it has one.** -/
theorem not_allOrNothing_of_locked {call : Call} (hmode : call.mode = .locked) {m : SandboxMode}
    (agents : List Agent) : ¬ AllOrNothing call (resting (m, .empty) :: agents) := by
  intro h
  have hstored : ({ sandboxMode := .locked } : Agent) :: agents ∈
      (call.apply (resting (m, .empty) :: agents)).states := by
    have hfirst : ({ sandboxMode := .locked } : Agent) ∈
        ((resting (m, .empty)).setSandboxMode call.mode call.path
          (call.allocFails.headD false)).states := by
      rw [hmode]
      unfold Agent.setSandboxMode
      dsimp only
      split_ifs <;> exact List.mem_cons_self
    have hmap : ({ sandboxMode := .locked } : Agent) :: agents ∈
        ((resting (m, .empty)).setSandboxMode call.mode call.path
          (call.allocFails.headD false)).states.map (· :: agents) := List.mem_map_of_mem hfirst
    rw [Call.apply]
    cases hok : ((resting (m, .empty)).setSandboxMode call.mode call.path
        (call.allocFails.headD false)).ok with
    | true =>
      rw [registrySetSandbox_cons_of_ok hok]
      exact List.mem_append_left _ hmap
    | false =>
      rw [registrySetSandbox_cons_of_fails hok]
      exact hmap
  obtain ⟨p, -, hp⟩ := h.between _ hstored _ List.mem_cons_self rfl _ rfl
  cases hp

/-! ## The calls of a run -/

theorem throughout_nil {P : Call → List Agent → Prop} (hP : ∀ call, P call []) (calls : List Call) :
    Throughout P calls [] := by
  induction calls with
  | nil => trivial
  | cons call calls ih => exact ⟨hP call, ih⟩

theorem allOrNothing_nil (call : Call) : AllOrNothing call [] where
  toSettled := settled_of_ok (fun _ b hb => by simp at hb) fun h => absurd rfl h
  between := fun _ hstate => absurd hstate List.not_mem_nil

/-- The agents behind a call, where all of them were in one pair. -/
theorem map_resting (n : ℕ) (pair pair' : SandboxMode × LockPath) :
    ((List.replicate n (resting pair)).map fun _ => resting pair') =
      List.replicate n (resting pair') := List.map_replicate

/-- **The calls of a run are all-or-nothing** exactly if there are no agents, or none of the calls
locks them. -/
theorem run_allOrNothing_iff (n : ℕ) (calls : List Call) :
    Throughout AllOrNothing calls (loaded n) ↔ n = 0 ∨ ∀ call ∈ calls, call.mode ≠ .locked := by
  cases n with
  | zero => exact iff_of_true (throughout_nil allOrNothing_nil calls) (Or.inl rfl)
  | succ n =>
    rw [or_iff_right (Nat.succ_ne_zero n)]
    have hall : ∀ (calls : List Call) (m : SandboxMode), m ≠ .locked →
        (Throughout AllOrNothing calls (List.replicate (n + 1) (resting (m, .empty))) ↔
          ∀ call ∈ calls, call.mode ≠ .locked) := by
      intro calls
      induction calls with
      | nil => exact fun _ _ => iff_of_true trivial fun _ h => absurd h List.not_mem_nil
      | cons call calls ih =>
        intro m hm
        rw [List.forall_mem_cons]
        by_cases hmode : call.mode = .locked
        · refine iff_of_false (fun h => ?_) fun h => h.1 hmode
          exact not_allOrNothing_of_locked hmode _ h.1
        · have hagents : ∀ e ∈ List.replicate (n + 1) (resting (m, .empty)),
              e.sandboxMode ≠ .locked := by
            intro e he
            rw [List.eq_of_mem_replicate he]
            exact hm
          have hpair : call.pair = (call.mode, .empty) := by
            rw [Call.pair, if_neg fun hcopy => hmode hcopy.1]
          have hlast : (call.apply (List.replicate (n + 1) (resting (m, .empty)))).last =
              List.replicate (n + 1) (resting (call.mode, .empty)) := by
            rw [(apply_of_ok fun hcopy => absurd hcopy.1 hmode).2, map_resting, hpair]
          rw [Throughout, hlast, ih call.mode hmode, and_iff_right hmode]
          exact and_iff_right (allOrNothing_of_ne hmode hagents)
    exact hall calls .unlocked (by decide)

/-- Two agents that are locked at `/a` are to be locked at `/b`, and the second copy fails: the
first has the new path, and that of the second is freed. -/
theorem lock_fails_halfway : ¬ Throughout AllOrNothing
    [{ mode := .locked, path := ascii "/a" },
      { mode := .locked, path := ascii "/b", allocFails := [false, true] }] (loaded 2) := by
  rintro ⟨-, h, -⟩
  have hfreed : ({ sandboxMode := .locked, lockPath := .freed } : Agent) ∈
      (Call.apply { mode := .locked, path := ascii "/b", allocFails := [false, true] }
        (Call.apply { mode := .locked, path := ascii "/a" } (loaded 2)).last).last := by
    decide
  obtain ⟨p, -, hp⟩ := h.guarded _ hfreed rfl _ rfl
  cases hp

/-- What a call needs that leaves all agents as it should. -/
def Supplied (n : ℕ) (call : Call) : Prop :=
  call.mode = .locked → call.path ≠ [] ∧ ∀ b ∈ call.allocFails.take n, b = false

theorem settled_iff {n : ℕ} (call : Call) (pair : SandboxMode × LockPath) :
    Settled call (List.replicate (n + 1) (resting pair)) ↔ Supplied (n + 1) call := by
  constructor
  · intro h hmode
    by_cases hpath : call.path = []
    · -- The agents are left locked with an empty path.
      obtain ⟨-, hlast⟩ := @apply_of_ok call (List.replicate (n + 1) (resting pair))
        fun hcopy => absurd hpath hcopy.2
      have hmem : resting call.pair ∈
          (call.apply (List.replicate (n + 1) (resting pair))).last := by
        rw [hlast]
        exact List.mem_cons_self
      obtain ⟨p, -, hp⟩ := (guarded_resting_iff call.pair).mp (h.guarded _ hmem) hmode
      rw [Call.pair, if_neg fun hcopy => hcopy.2 hpath] at hp
      cases hp
    · refine ⟨hpath, ?_⟩
      by_contra hfails
      have htrue : true ∈ call.allocFails.take (List.replicate (n + 1) (resting pair)).length := by
        push Not at hfails
        obtain ⟨b, hb, hne⟩ := hfails
        rw [List.length_replicate, ← Bool.ne_false_iff.mp hne]
        exact hb
      obtain ⟨-, e, he, hguarded⟩ := registrySetSandbox_of_fails ⟨hmode, hpath⟩ _ _ htrue
      exact hguarded (h.guarded e he)
  · intro h
    refine settled_of_ok (fun hcopy => ?_) fun _ => ?_
    · rw [List.length_replicate]
      exact (h hcopy.1).2
    · rw [guarded_resting_iff]
      intro hmode
      exact ⟨call.path, (h hmode).1, if_pos ⟨hmode, (h hmode).1⟩⟩

/-- **What is left behind the calls of a run** is right exactly if there are no agents, or every
call that locks them has a path and can copy it. -/
theorem run_settles_iff (n : ℕ) (calls : List Call) :
    Throughout Settled calls (loaded n) ↔ n = 0 ∨ ∀ call ∈ calls, Supplied n call := by
  cases n with
  | zero =>
    exact iff_of_true (throughout_nil (fun call => (allOrNothing_nil call).toSettled) calls)
      (Or.inl rfl)
  | succ n =>
    rw [or_iff_right (Nat.succ_ne_zero n)]
    have hall : ∀ (calls : List Call) (pair : SandboxMode × LockPath),
        (Throughout Settled calls (List.replicate (n + 1) (resting pair)) ↔
          ∀ call ∈ calls, Supplied (n + 1) call) := by
      intro calls
      induction calls with
      | nil => exact fun _ => iff_of_true trivial fun _ h => absurd h List.not_mem_nil
      | cons call calls ih =>
        intro pair
        rw [List.forall_mem_cons, Throughout, settled_iff]
        refine and_congr_right fun hsupplied => ?_
        have hlast : (call.apply (List.replicate (n + 1) (resting pair))).last =
            List.replicate (n + 1) (resting call.pair) := by
          have hcopies : call.mode = .locked ∧ call.path ≠ [] →
              ∀ b ∈ call.allocFails.take (List.replicate (n + 1) (resting pair)).length,
                b = false := by
            rw [List.length_replicate]
            exact fun hcopy => (hsupplied hcopy.1).2
          rw [(apply_of_ok hcopies).2, map_resting]
        rw [hlast]
        exact ih call.pair
    exact hall calls (.unlocked, .empty)

end SandboxSwitch
end Cli
end TigerClaw
