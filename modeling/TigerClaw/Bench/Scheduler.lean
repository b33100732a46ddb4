import TigerClaw.Basic
import TigerClaw.Library.Threads

/-!
# The benchmark scheduler

`runner.runCase` runs one case, and `scheduler.schedule` runs all of them, one after the other or on
a pool of threads that share a counter.  Scores are `f64` in the code.

* `runCase`: the metric of a case, from the answer of the executor.
* `schedule`: all cases in order, on one thread.
* `workers`, `step`, `output`: the pool, one action of a thread, and the slots.
* `schedule_pool`: whatever the interleaving, every case is run once, and when the threads have
  returned the slots hold the metrics in the order of the cases.
-/

namespace TigerClaw
namespace Bench

open WorkerPool (Pool Action)

/-- `scenario.Case`. -/
structure Case (F : Type) where
  id : Bytes
  prompt : Bytes
  assertionId : Bytes
  threshold : F
  maxTurns : UInt32
  timeBudgetMs : UInt32
  costBudgetMicros : UInt64

/-- `runner.Outcome`. -/
structure Outcome (F : Type) where
  score : F
  turns : UInt32
  costMicros : UInt64
  outcomeTag : Bytes := ascii "ok"

structure CaseMetric (F : Type) where
  id : Bytes
  passed : Bool
  score : Option F := none
  /-- An `i128`. -/
  durationNs : ℤ := 0
  turns : UInt32 := 0
  costMicros : UInt64 := 0
  outcome : Bytes := ascii "ok"

/-- What an executor answers: an outcome, or the name of an error. -/
abbrev Answer (F : Type) : Type := Except Bytes (Outcome F)

section

variable {F : Type} [LE F] [DecidableLE F]

def runCase (answer : Answer F) (case : Case F) : CaseMetric F :=
  match answer with
  | .error err => { id := case.id, passed := false, outcome := err }
  | .ok out =>
    { id := case.id, passed := decide (case.threshold ≤ out.score), score := some out.score
      turns := out.turns, costMicros := out.costMicros, outcome := out.outcomeTag }

/-- `schedule` without concurrency. -/
def schedule (executor : Case F → Answer F) (cases : List (Case F)) : List (CaseMetric F) :=
  cases.map fun case => runCase (executor case) case

variable (cases : List (Case F))

/-- The threads that are spawned. -/
def workers (maxConcurrency : ℕ) : ℕ := min maxConcurrency cases.length

/-- `s.out[idx] = runCase(.., s.cases[idx])`; the index is one of the cases. -/
def metric (i : ℕ) (answer : Answer F) : Option (CaseMetric F) := cases[i]?.map (runCase answer)

/-- One action of a thread: `fetchAdd`, or the store behind a call of the executor. -/
def step {n : ℕ} : Pool (Fin n) (Answer F) (Option (CaseMetric F)) → Action (Fin n) (Answer F) →
    Option (Pool (Fin n) (Answer F) (Option (CaseMetric F))) :=
  WorkerPool.step (metric cases) cases.length

/-- The slice that is returned. -/
def output {n : ℕ} (s : Pool (Fin n) (Answer F) (Option (CaseMetric F))) :
    List (Option (CaseMetric F)) := (List.range cases.length).map fun i => (s.out i).join

variable {cases}

/-- **The pool does what one thread does.**  In every interleaving of the threads a step is left
until all of them have returned, which they have after two steps for each case and one for each
thread.  Then every case has been run once, and if each answer was that of the executor for its
case, the slots hold the metrics in the order of the cases. -/
theorem schedule_pool {maxConcurrency : ℕ} (hconcurrency : 1 < maxConcurrency)
    (hcases : 1 < cases.length)
    {actions : List (Action (Fin (workers cases maxConcurrency)) (Answer F))}
    {s : Pool (Fin (workers cases maxConcurrency)) (Answer F) (Option (CaseMetric F))}
    (h : StepMachine.run (step cases) WorkerPool.start actions = some s) :
    (actions.length = 2 * cases.length + workers cases maxConcurrency ↔
      ∀ t, s.place t = .returned) ∧
    ((∃ t, s.place t ≠ .returned) → ∃ action s', step cases s action = some s') ∧
    ((∀ t, s.place t = .returned) →
      (s.answers.map Prod.fst).Perm (List.range cases.length) ∧
      ∀ executor : Case F → Answer F,
        (∀ p ∈ s.answers, ∀ case, cases[p.1]? = some case → p.2 = executor case) →
          output cases s = (schedule executor cases).map some) := by
  have hworkers : 0 < workers cases maxConcurrency := by
    rw [workers]
    omega
  have : Nonempty (Fin (workers cases maxConcurrency)) := ⟨⟨0, hworkers⟩⟩
  have : Nonempty (Answer F) := ⟨.error []⟩
  have hsound := WorkerPool.Sound.of_run h
  refine ⟨?_, fun ⟨t, ht⟩ => WorkerPool.exists_step ht, fun hreturned => ?_⟩
  · have hlength := WorkerPool.length_add_work h
    rw [WorkerPool.work_start, Fintype.card_fin] at hlength
    rw [← hsound.work_eq_zero_iff]
    omega
  · refine ⟨hsound.perm_of_returned hreturned, fun executor hexecutor => ?_⟩
    rw [output, schedule, List.map_map]
    refine List.ext_getElem (by simp) fun i hi hi' => ?_
    rw [List.length_map, List.length_range] at hi
    obtain ⟨answer, hanswer, hout⟩ := hsound.out_of_returned hreturned hi
    have hcase : cases[i]? = some cases[i] := List.getElem?_eq_getElem hi
    obtain rfl := hexecutor _ hanswer _ hcase
    simp [hout, metric, hcase]

end

def twoCases : List (Case ℕ) :=
  [⟨ascii "a", ascii "hi", ascii "eq", 1, 0, 0, 0⟩, ⟨ascii "b", ascii "hi", ascii "eq", 1, 0, 0, 0⟩]

theorem schedule_pool_two :
    let t : Fin (workers twoCases 2) := ⟨0, by decide⟩
    let t' : Fin (workers twoCases 2) := ⟨1, by decide⟩
    let answer : Answer ℕ := .ok { score := 1, turns := 1, costMicros := 10 }
    ∃ s, StepMachine.run (step twoCases) WorkerPool.start
      [.claim t, .claim t', .store t' answer, .store t answer, .claim t, .claim t'] = some s ∧
        output twoCases s = (schedule (fun _ => answer) twoCases).map some := by
  intro t t' answer
  refine ⟨_, rfl, ?_⟩
  have hpool := @schedule_pool ℕ _ _ twoCases 2 (by decide) (by decide)
    [.claim t, .claim t', .store t' answer, .store t answer, .claim t, .claim t'] _ rfl
  exact (hpool.2.2 (hpool.1.mp rfl)).2 (fun _ => answer) (by
    intro p hp case _
    simp [WorkerPool.start] at hp
    rcases hp with rfl | rfl <;> rfl)

end Bench
end TigerClaw
