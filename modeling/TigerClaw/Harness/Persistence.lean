import TigerClaw.Harness.RealRunner

/-!
# What is left of a turn on disk

After a turn the runner saves the session, so that a crash does not lose what the user has just
seen.  But it never commits the turn to the session, so that the document on disk stays as it was.

* `completedPairs`: what the user said and saw in the completed turns of a session.
* `Persisted`: the document of the session has these turns.
* `persisted_iff`: it has them if it had them before the run, and not otherwise.
-/

namespace TigerClaw
namespace Harness
namespace RealRunner

/-- The input and the output of a call, if it is a completed turn of the session. -/
def completedPair (sessionId : Bytes) (call : Call) (served : Served) : List (Bytes × Bytes) :=
  match served.result with
  | .ok res =>
    if res.completed = true ∧ call.req.sessionId = sessionId then [(call.req.input, res.output)]
    else []
  | .error _ => []

/-- The completed turns of a session, in order. -/
def completedPairs (r : RealRunner) (sessionId : Bytes) : List Call → List (Bytes × Bytes)
  | [] => []
  | call :: calls =>
    completedPair sessionId call (r.run call).1 ++
      completedPairs (r.run call).2 sessionId calls

/-- The document of the session has these turns, in this order. -/
def Persisted (dir : StateDir) (sessionId : Bytes) (pairs : List (Bytes × Bytes)) : Prop :=
  ∃ state, dir.file (sessionFileName sessionId) = some (.document state) ∧
    pairs.Sublist state.pairs

theorem completedPairs_concat (r : RealRunner) (sessionId : Bytes) (calls : List Call)
    (call : Call) :
    completedPairs r sessionId (calls ++ [call]) = completedPairs r sessionId calls ++
      completedPair sessionId call ((r.after calls).run call).1 := by
  induction calls generalizing r with
  | nil => exact List.append_nil _
  | cons c calls ih =>
    rw [List.cons_append, completedPairs, ih, completedPairs, List.append_assoc]
    rfl

variable {dir : StateDir} {r : RealRunner}

/-- After a turn that returns, the document of its session has the turns that it had before the
run. -/
theorem Sound.document_run (h : Sound dir r) {call : Call} {res : TurnResult}
    (hres : (r.run call).1.result = .ok res) (hsaves : call.saves = true) :
    ∃ state, (r.run call).2.dir.file (sessionFileName call.req.sessionId) =
      some (.document state) ∧ state.pairs = dir.pairs call.req.sessionId := by
  obtain ⟨r', hsound, -, -, ⟨-, e, hrun⟩ | ⟨-, hid, hrun⟩⟩ := h.run_cases call
  · rw [hrun] at hres
    cases hres
  rw [hrun] at hres ⊢
  rcases (serve_cases r' call).2 with ⟨⟨e, he⟩, -⟩ | ⟨-, hserve⟩
  · cases he.symm.trans hres
  obtain ⟨-, s, hs, hname, hpairs⟩ := hsound.current _ hid
  refine ⟨s.snapshot, ?_, hpairs⟩
  have hsession : (r'.withTurn call).currentSession = some s := hs
  rw [hserve, RealRunner.persist, hsession]
  dsimp only
  rw [if_pos hsaves, ← hname]
  exact StateDir.file_saveSession_self _ s

/-- **No turn of a run ever gets to the disk.**  The documents keep the turns that they had before
the run; so after a completed turn the document of its session has the completed turns of the run
exactly if it had them before, and never if it had none. -/
theorem persisted_iff (agent : Agent) (memoryManager : Manager) (dir : StateDir)
    (calls : List Call) (call : Call) {res : TurnResult}
    (hres : (((init agent memoryManager dir).after calls).run call).1.result = .ok res)
    (hcompleted : res.completed = true) (hsaves : call.saves = true) :
    (∀ id, ((init agent memoryManager dir).after (calls ++ [call])).dir.pairs id = dir.pairs id) ∧
      (Persisted ((init agent memoryManager dir).after (calls ++ [call])).dir call.req.sessionId
          (completedPairs (init agent memoryManager dir) call.req.sessionId (calls ++ [call])) ↔
        (completedPairs (init agent memoryManager dir) call.req.sessionId
          (calls ++ [call])).Sublist (dir.pairs call.req.sessionId)) ∧
      (dir.pairs call.req.sessionId = [] →
        ¬ Persisted ((init agent memoryManager dir).after (calls ++ [call])).dir call.req.sessionId
          (completedPairs (init agent memoryManager dir) call.req.sessionId
            (calls ++ [call]))) := by
  have hinit := Sound.init agent memoryManager dir
  obtain ⟨state, hfile, hpairs⟩ := (hinit.after calls).document_run hres hsaves
  rw [← after_concat] at hfile
  have hiff : Persisted ((init agent memoryManager dir).after (calls ++ [call])).dir
      call.req.sessionId
      (completedPairs (init agent memoryManager dir) call.req.sessionId (calls ++ [call])) ↔
      (completedPairs (init agent memoryManager dir) call.req.sessionId
        (calls ++ [call])).Sublist (dir.pairs call.req.sessionId) := by
    constructor
    · rintro ⟨state', hfile', hsub⟩
      obtain rfl := File.document.inj (Option.some.inj (hfile.symm.trans hfile'))
      rwa [hpairs] at hsub
    · intro hsub
      exact ⟨state, hfile, hpairs ▸ hsub⟩
  refine ⟨fun id => (hinit.after _).agree.pairs id, hiff, fun hnone => ?_⟩
  -- the turn that has just been completed is missing, to say the least
  rw [hiff, hnone, List.sublist_nil, completedPairs_concat, completedPair, hres]
  simp [hcompleted]

/-! ## A turn that is lost -/

/-- An agent with no tools on an empty directory, before its first turn. -/
def firstRunner : RealRunner :=
  init { executor := Agent.denyExecutor } { builtin := fun _ => some [] } StateDir.empty

def firstCall : Call :=
  { req := { sessionId := ascii "sess-1", input := ascii "hi" }
    replies := [{ text := some (ascii "hello back") }] }

def firstResult : TurnResult :=
  { output := ascii "hello back", completed := true, targetAgent := ascii "sess-1" }

theorem persisted_first :
    (∀ id, (firstRunner.after [firstCall]).dir.pairs id = []) ∧
      ¬ Persisted (firstRunner.after [firstCall]).dir (ascii "sess-1")
        (completedPairs firstRunner (ascii "sess-1") [firstCall]) := by
  have hres : ((firstRunner.after []).run firstCall).1.result = .ok firstResult := by decide
  obtain ⟨hpairs, -, hnever⟩ := persisted_iff { executor := Agent.denyExecutor }
    { builtin := fun _ => some [] } StateDir.empty [] firstCall hres rfl rfl
  exact ⟨hpairs, hnever rfl⟩

/-- **The turn that the user has just seen is not in the document that is saved after it.** -/
theorem not_persisted :
    (firstRunner.run firstCall).1.result = .ok firstResult ∧
      completedPairs firstRunner (ascii "sess-1") [firstCall] =
        [(ascii "hi", ascii "hello back")] ∧
      (firstRunner.after [firstCall]).dir.file (sessionFileName (ascii "sess-1")) =
        some (.document { id := ascii "sess-1", createdAtNs := 0, updatedAtNs := 0 }) ∧
      ¬ Persisted (firstRunner.after [firstCall]).dir (ascii "sess-1")
        (completedPairs firstRunner (ascii "sess-1") [firstCall]) := by
  have hpairs : completedPairs firstRunner (ascii "sess-1") [firstCall] =
      [(ascii "hi", ascii "hello back")] := by decide
  have hfile : (firstRunner.after [firstCall]).dir.file (sessionFileName (ascii "sess-1")) =
      some (.document { id := ascii "sess-1", createdAtNs := 0, updatedAtNs := 0 }) := by decide
  refine ⟨by decide, hpairs, hfile, ?_⟩
  rintro ⟨state, hstate, hsub⟩
  obtain rfl := File.document.inj (Option.some.inj (hfile.symm.trans hstate))
  rw [hpairs] at hsub
  exact absurd hsub (by decide)

end RealRunner
end Harness
end TigerClaw
