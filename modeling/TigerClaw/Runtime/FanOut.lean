import Mathlib.Data.Fintype.Basic
import TigerClaw.Basic
import TigerClaw.Library.Heap
import TigerClaw.Library.StepMachine

/-!
# Runs of one gateway runner

The turn worker of the TUI and the workers of the sub-turns share one `GatewayRunner`, with one
slot for the session that Esc cancels and one for the last output.  A run registers its session,
collects the fragments of its stream, frees the output of the run before, stores and returns its
own, and clears the slot of the session.  Its caller copies the output afterwards.

* `step`: the callers and the cancels, cut at the accesses to the fields of the runner.
* `Right`: every caller has copied the fragments of its own stream, and every cancel went for the
  session of a run in flight.
* `right_of_orderly`: so it is in every run that keeps to `Orderly`.
-/

namespace TigerClaw
namespace Runtime
namespace FanOut

open Heap (Slice)

/-- The fields that the runs share.  `cancelJob` is the session of the DELETE under way;
`cancel_in_flight` says whether there is one. -/
structure GatewayRunner where
  currentSession : Option Bytes := none
  lastOutput : Slice := none
  cancelJob : Option Bytes := none
  heap : Heap UInt8 := []

/-- Where a caller stands.  `stream` is what its stream has brought, for statements only. -/
inductive Stage where
  | idle
  /-- The session is registered. -/
  | receiving (session output stream : Bytes)
  /-- The request has failed. -/
  | failed (session : Bytes)
  /-- The previous output is freed. -/
  | freed (session output stream : Bytes)
  | stored (session stream : Bytes)
  /-- The result is made of `last_output`. -/
  | answered (session : Bytes) (output : Slice) (stream : Bytes)
  /-- The run has returned. -/
  | returned (output : Slice) (stream : Bytes)

/-- The session of a run in flight. -/
def Stage.session? : Stage → Option Bytes
  | .idle | .returned .. => none
  | .receiving session .. | .failed session | .freed session .. | .stored session _
  | .answered session .. => some session

/-- The slice that is still to be copied, if `last_output` is the given one. -/
def Stage.slice (lastOutput : Slice) : Stage → Slice
  | .stored .. => lastOutput
  | .answered _ output _ | .returned output _ => output
  | _ => none

def Stage.isStored : Stage → Bool
  | .stored .. => true
  | _ => false

/-- What a caller has copied, and what its stream had brought. -/
structure Copied where
  stream : Bytes
  got : Option Bytes

/-- A cancel, with the sessions of the runs in flight, and the one that the DELETE under way is
for. -/
structure Cancelled (κ : Type) where
  running : κ → Option Bytes
  target : Option Bytes

/-- `copies`, `cancels` and `freedTwice` are for statements only. -/
structure World (κ : Type) where
  runner : GatewayRunner := {}
  stage : κ → Stage := fun _ => .idle
  copies : List Copied := []
  cancels : List (Cancelled κ) := []
  freedTwice : Bool := false

inductive Action (κ : Type) where
  /-- The run registers its session. -/
  | start (c : κ) (sessionId : Bytes)
  /-- A fragment comes in; it is dropped if the output cannot grow. -/
  | receive (c : κ) (text : Bytes) (dropped : Bool)
  /-- The request fails. -/
  | fail (c : κ)
  | freeOld (c : κ)
  /-- `toOwnedSlice`, which may fail. -/
  | store (c : κ) (failed : Bool)
  | answer (c : κ)
  /-- The slot of the session is cleared, and the run returns. -/
  | clear (c : κ)
  | copy (c : κ)
  /-- The caller cannot make its copy. -/
  | giveUp (c : κ)
  /-- `cancelCurrent`, on the thread of the UI; `failed` if it cannot make a request. -/
  | cancel (failed : Bool)
  /-- The DELETE is over. -/
  | cancelDone

variable {κ : Type}

/-- The sessions of the runs in flight. -/
def World.running (w : World κ) (c : κ) : Option Bytes := (w.stage c).session?

/-- `cancelCurrent`. -/
def GatewayRunner.cancelCurrent (self : GatewayRunner) (failed : Bool) : GatewayRunner :=
  match self.cancelJob with
  | some _ => self
  | none => if failed then self else { self with cancelJob := self.currentSession }

variable [DecidableEq κ]

/-- The caller goes on to another stage. -/
def World.goto (w : World κ) (c : κ) (stage : Stage) (runner : GatewayRunner) : World κ :=
  { w with stage := Function.update w.stage c stage, runner }

def step (w : World κ) : Action κ → Option (World κ)
  | .start c sessionId =>
    match w.stage c with
    | .idle =>
      -- `SessionMissing`
      if sessionId = [] then none
      else some (w.goto c (.receiving sessionId [] [])
        { w.runner with currentSession := some sessionId })
    | _ => none
  | .receive c text dropped =>
    match w.stage c with
    | .receiving session output stream => some (w.goto c
        (.receiving session (if dropped then output else output ++ text) (stream ++ text))
        w.runner)
    | _ => none
  | .fail c =>
    match w.stage c with
    | .receiving session _ _ => some (w.goto c (.failed session) w.runner)
    | _ => none
  | .freeOld c =>
    match w.stage c with
    | .receiving session output stream =>
      some { w.goto c (.freed session output stream)
          { w.runner with heap := w.runner.heap.free w.runner.lastOutput } with
        freedTwice := w.freedTwice || (w.runner.heap.read w.runner.lastOutput).isNone }
    | _ => none
  | .store c failed =>
    match w.stage c with
    | .freed session output stream =>
      let (heap, lastOutput) := w.runner.heap.alloc (if failed then [] else output)
      some (w.goto c (.stored session stream) { w.runner with heap, lastOutput })
    | _ => none
  | .answer c =>
    match w.stage c with
    | .stored session stream =>
      some (w.goto c (.answered session w.runner.lastOutput stream) w.runner)
    | _ => none
  | .clear c =>
    match w.stage c with
    | .answered _ output stream =>
      some (w.goto c (.returned output stream) { w.runner with currentSession := none })
    | .failed _ => some (w.goto c .idle { w.runner with currentSession := none })
    | _ => none
  | .copy c =>
    match w.stage c with
    | .returned output stream => some { w.goto c .idle w.runner with
        copies := w.copies ++ [⟨stream, w.runner.heap.read output⟩] }
    | _ => none
  | .giveUp c =>
    match w.stage c with
    | .returned _ _ => some (w.goto c .idle w.runner)
    | _ => none
  | .cancel failed =>
    let runner := w.runner.cancelCurrent failed
    some { w with runner, cancels := w.cancels ++ [⟨w.running, runner.cancelJob⟩] }
  | .cancelDone =>
    match w.runner.cancelJob with
    | some _ => some { w with runner := { w.runner with cancelJob := none } }
    | none => none

/-- **The runs do not get into each other's way.** -/
structure Right (w : World κ) : Prop where
  copies : ∀ r ∈ w.copies, r.got = some r.stream
  cancels : ∀ k ∈ w.cancels, (∃ c, (k.running c).isSome) →
    ∃ c s, k.running c = some s ∧ k.target = some s
  freedOnce : w.freedTwice = false

/-- Nobody has yet to copy what is freed, nor has it been freed; no other run is about to return
`last_output` when it changes; memory does not run out.  And when a cancel is requested while runs
are in flight, the session slot has not been cleared, or a DELETE for one of them is under way. -/
def Orderly (w : World κ) : Action κ → Prop
  | .receive _ _ dropped => dropped = false
  | .freeOld _ => ∀ i ∈ w.runner.lastOutput,
      (w.runner.heap.read (some i)).isSome ∧ ∀ d, (w.stage d).slice w.runner.lastOutput ≠ some i
  | .store _ failed => failed = false ∧ ∀ d, (w.stage d).isStored = false
  | .cancel failed => (∃ d, (w.running d).isSome) →
      if w.runner.cancelJob.isSome then ∃ d, w.running d = w.runner.cancelJob
      else failed = false ∧ w.runner.currentSession.isSome
  | _ => True

instance [Fintype κ] (w : World κ) : ∀ a, Decidable (Orderly w a)
  | .receive _ _ dropped => inferInstanceAs (Decidable (dropped = false))
  | .freeOld _ => inferInstanceAs (Decidable (∀ i ∈ w.runner.lastOutput,
      (w.runner.heap.read (some i)).isSome ∧ ∀ d, (w.stage d).slice w.runner.lastOutput ≠ some i))
  | .store _ failed =>
    inferInstanceAs (Decidable (failed = false ∧ ∀ d, (w.stage d).isStored = false))
  | .cancel failed => inferInstanceAs (Decidable ((∃ d, (w.running d).isSome) →
      if w.runner.cancelJob.isSome then ∃ d, w.running d = w.runner.cancelJob
      else failed = false ∧ w.runner.currentSession.isSome))
  | .start .. | .fail _ | .answer _ | .clear _ | .copy _ | .giveUp _ | .cancelDone => isTrue trivial

/-! ## What a caller relies on -/

/-- What a caller collects is what its stream has brought, and what it is going to copy reads as
that. -/
def Stage.Good (runner : GatewayRunner) : Stage → Prop
  | .idle | .failed _ => True
  | .receiving _ output stream | .freed _ output stream => output = stream
  | .stored _ stream => runner.heap.read runner.lastOutput = some stream
  | .answered _ output stream | .returned output stream => runner.heap.read output = some stream

/-- What every state of a run that keeps to `Orderly` satisfies. -/
structure Valid (w : World κ) : Prop where
  good : ∀ c, (w.stage c).Good w.runner
  slot : ∀ s ∈ w.runner.currentSession, ∃ c, w.running c = some s

/-- A caller goes on.  `w'` may differ in what is for statements only. -/
theorem Valid.goto {w w' : World κ} {c : κ} {stage : Stage} {runner : GatewayRunner}
    (hs : Valid w) (hstage : w'.stage = Function.update w.stage c stage)
    (hrunner : w'.runner = runner) (hgood : stage.Good runner)
    (hothers : ∀ d, d ≠ c → (w.stage d).Good runner)
    (hslot : ∀ s ∈ runner.currentSession, stage.session? = some s ∨
      s ∈ w.runner.currentSession ∧ stage.session? = (w.stage c).session?) : Valid w' := by
  refine ⟨fun d => ?_, fun s hcurrent => ?_⟩
  · rw [hstage, hrunner]
    by_cases hd : d = c
    · rw [hd, Function.update_self]
      exact hgood
    · rw [Function.update_of_ne hd]
      exact hothers d hd
  · rw [hrunner] at hcurrent
    rcases hslot s hcurrent with hsession | ⟨hold, hsession⟩
    · refine ⟨c, ?_⟩
      rw [World.running, hstage, Function.update_self]
      exact hsession
    · obtain ⟨d, hd⟩ := hs.slot s hold
      refine ⟨d, ?_⟩
      rw [World.running, hstage]
      by_cases hdc : d = c
      · rw [hdc, Function.update_self, hsession, ← hdc]
        exact hd
      · rw [Function.update_of_ne hdc]
        exact hd

/-- What is freed is not what another caller has yet to copy. -/
theorem Stage.Good.free {runner : GatewayRunner} {stage : Stage} (h : stage.Good runner)
    (hslice : ∀ i ∈ runner.lastOutput, stage.slice runner.lastOutput ≠ some i) :
    stage.Good { runner with heap := runner.heap.free runner.lastOutput } := by
  cases stage with
  | idle => trivial
  | failed session => trivial
  | receiving session output stream => exact h
  | freed session output stream => exact h
  | stored session stream => exact (Heap.read_free_of_ne _ hslice).trans h
  | answered session output stream => exact (Heap.read_free_of_ne _ hslice).trans h
  | returned output stream => exact (Heap.read_free_of_ne _ hslice).trans h

/-- Unless a caller is about to return `last_output`, it does not mind another one. -/
theorem Stage.Good.alloc {runner : GatewayRunner} {stage : Stage} (h : stage.Good runner)
    (hstored : stage.isStored = false) (text : Bytes) :
    stage.Good { runner with
      heap := (runner.heap.alloc text).1
      lastOutput := (runner.heap.alloc text).2 } := by
  cases stage with
  | idle => trivial
  | failed session => trivial
  | receiving session output stream => exact h
  | freed session output stream => exact h
  | stored session stream => exact nomatch hstored
  | answered session output stream => exact Heap.read_alloc_of_read h text
  | returned output stream => exact Heap.read_alloc_of_read h text

/-- A DELETE, or none, changes nothing for the callers. -/
theorem Stage.Good.job {runner : GatewayRunner} {stage : Stage} (h : stage.Good runner)
    (job : Option Bytes) : stage.Good { runner with cancelJob := job } := by
  cases stage <;> exact h

theorem cancelCurrent_eq (self : GatewayRunner) (failed : Bool) :
    ∃ job, self.cancelCurrent failed = { self with cancelJob := job } := by
  rw [GatewayRunner.cancelCurrent]
  split
  · exact ⟨self.cancelJob, rfl⟩
  · split
    · exact ⟨self.cancelJob, rfl⟩
    · exact ⟨self.currentSession, rfl⟩

/-- **A step of an orderly run.** -/
theorem valid_step {w w' : World κ} {a : Action κ} (hs : Valid w) (ha : Orderly w a)
    (h : step w a = some w') : Valid w' := by
  cases a with
  | start c sessionId =>
    rw [step] at h
    split at h
    · split at h
      · cases h
      · obtain rfl := Option.some.inj h
        refine hs.goto rfl rfl rfl (fun d _ => hs.good d) fun s hcurrent => .inl ?_
        exact hcurrent
    · cases h
  | receive c text dropped =>
    rw [step] at h
    split at h
    · rename_i session output stream hstage
      obtain rfl := Option.some.inj h
      have hgood := hs.good c
      rw [hstage] at hgood
      refine hs.goto rfl rfl ?_ (fun d _ => hs.good d) fun s hcurrent => .inr ⟨hcurrent, ?_⟩
      · obtain rfl : dropped = false := ha
        obtain rfl : output = stream := hgood
        rfl
      · rw [hstage]
        rfl
    · cases h
  | fail c =>
    rw [step] at h
    split at h
    · rename_i session output stream hstage
      obtain rfl := Option.some.inj h
      refine hs.goto rfl rfl trivial (fun d _ => hs.good d) fun s hcurrent => .inr ⟨hcurrent, ?_⟩
      rw [hstage]
      rfl
    · cases h
  | freeOld c =>
    rw [step] at h
    split at h
    · rename_i session output stream hstage
      obtain rfl := Option.some.inj h
      have hgood := hs.good c
      rw [hstage] at hgood
      refine hs.goto rfl rfl hgood (fun d _ => ?_) fun s hcurrent => .inr ⟨hcurrent, ?_⟩
      · exact Stage.Good.free (hs.good d) fun i hi => (ha i hi).2 d
      · rw [hstage]
        rfl
    · cases h
  | store c failed =>
    rw [step] at h
    split at h
    · rename_i session output stream hstage
      obtain rfl := Option.some.inj h
      obtain ⟨rfl, hstored⟩ := ha
      have hgood := hs.good c
      rw [hstage] at hgood
      obtain rfl : output = stream := hgood
      refine hs.goto rfl rfl ?_ (fun d _ => ?_) fun s hcurrent => .inr ⟨hcurrent, ?_⟩
      · exact Heap.read_alloc w.runner.heap output
      · exact Stage.Good.alloc (hs.good d) (hstored d) output
      · rw [hstage]
        rfl
    · cases h
  | answer c =>
    rw [step] at h
    split at h
    · rename_i session stream hstage
      obtain rfl := Option.some.inj h
      have hgood := hs.good c
      rw [hstage] at hgood
      refine hs.goto rfl rfl hgood (fun d _ => hs.good d) fun s hcurrent => .inr ⟨hcurrent, ?_⟩
      rw [hstage]
      rfl
    · cases h
  | clear c =>
    rw [step] at h
    split at h
    · rename_i session output stream hstage
      obtain rfl := Option.some.inj h
      have hgood := hs.good c
      rw [hstage] at hgood
      exact hs.goto rfl rfl hgood (fun d _ => hs.good d) fun s hcurrent => nomatch hcurrent
    · obtain rfl := Option.some.inj h
      exact hs.goto rfl rfl trivial (fun d _ => hs.good d) fun s hcurrent => nomatch hcurrent
    · cases h
  | copy c =>
    rw [step] at h
    split at h
    · rename_i output stream hstage
      obtain rfl := Option.some.inj h
      refine hs.goto rfl rfl trivial (fun d _ => hs.good d) fun s hcurrent => .inr ⟨hcurrent, ?_⟩
      rw [hstage]
      rfl
    · cases h
  | giveUp c =>
    rw [step] at h
    split at h
    · rename_i output stream hstage
      obtain rfl := Option.some.inj h
      refine hs.goto rfl rfl trivial (fun d _ => hs.good d) fun s hcurrent => .inr ⟨hcurrent, ?_⟩
      rw [hstage]
      rfl
    · cases h
  | cancel failed =>
    obtain rfl := Option.some.inj h
    obtain ⟨job, hjob⟩ := cancelCurrent_eq w.runner failed
    refine ⟨fun c => ?_, fun s hcurrent => hs.slot s ?_⟩
    · show (w.stage c).Good (w.runner.cancelCurrent failed)
      rw [hjob]
      exact Stage.Good.job (hs.good c) job
    · have hcurrent : s ∈ (w.runner.cancelCurrent failed).currentSession := hcurrent
      rw [hjob] at hcurrent
      exact hcurrent
  | cancelDone =>
    rw [step] at h
    split at h
    · obtain rfl := Option.some.inj h
      exact ⟨fun c => Stage.Good.job (hs.good c) none, hs.slot⟩
    · cases h

/-! ## What is copied and cancelled -/

omit [DecidableEq κ] in
/-- **A cancel goes for a run in flight**, if there is one. -/
theorem Valid.cancelled {w : World κ} (hs : Valid w) {failed : Bool}
    (ha : Orderly w (.cancel failed)) (hrunning : ∃ c, (w.running c).isSome) :
    ∃ c s, w.running c = some s ∧ (w.runner.cancelCurrent failed).cancelJob = some s := by
  have ha := ha hrunning
  rw [GatewayRunner.cancelCurrent]
  cases hjob : w.runner.cancelJob with
  | some s =>
    rw [hjob, if_pos Option.isSome_some] at ha
    obtain ⟨d, hd⟩ := ha
    exact ⟨d, s, hd, hjob⟩
  | none =>
    rw [hjob, if_neg (fun hsome => nomatch hsome)] at ha
    obtain ⟨rfl, hcurrent⟩ := ha
    obtain ⟨s, hcurrent⟩ := Option.isSome_iff_exists.mp hcurrent
    obtain ⟨d, hd⟩ := hs.slot s hcurrent
    exact ⟨d, s, hd, hcurrent⟩

theorem right_step {w w' : World κ} {a : Action κ} (hs : Valid w) (hright : Right w)
    (ha : Orderly w a) (h : step w a = some w') : Right w' := by
  cases a with
  | freeOld c =>
    rw [step] at h
    split at h
    · obtain rfl := Option.some.inj h
      refine ⟨hright.copies, hright.cancels, Bool.or_eq_false_iff.mpr ⟨hright.freedOnce, ?_⟩⟩
      cases hlast : w.runner.lastOutput with
      | none => rfl
      | some i =>
        rw [Option.isNone_eq_false_iff]
        exact (ha i hlast).1
    · cases h
  | copy c =>
    rw [step] at h
    split at h
    · rename_i output stream hstage
      obtain rfl := Option.some.inj h
      have hgood := hs.good c
      rw [hstage] at hgood
      refine ⟨fun r hr => ?_, hright.cancels, hright.freedOnce⟩
      rcases List.mem_append.mp hr with hr | hr
      · exact hright.copies r hr
      · obtain rfl := List.mem_singleton.mp hr
        exact hgood
    · cases h
  | cancel failed =>
    obtain rfl := Option.some.inj h
    refine ⟨hright.copies, fun k hk hrunning => ?_, hright.freedOnce⟩
    rcases List.mem_append.mp hk with hk | hk
    · exact hright.cancels k hk hrunning
    · obtain rfl := List.mem_singleton.mp hk
      exact hs.cancelled ha hrunning
  | start c sessionId =>
    rw [step] at h
    split at h
    · split at h
      · cases h
      · obtain rfl := Option.some.inj h
        exact ⟨hright.copies, hright.cancels, hright.freedOnce⟩
    · cases h
  | store c failed =>
    rw [step] at h
    split at h
    · obtain rfl := Option.some.inj h
      exact ⟨hright.copies, hright.cancels, hright.freedOnce⟩
    · cases h
  | receive _ _ _ | fail _ | answer _ | giveUp _ | cancelDone =>
    rw [step] at h
    split at h
    · obtain rfl := Option.some.inj h
      exact ⟨hright.copies, hright.cancels, hright.freedOnce⟩
    · cases h
  | clear c =>
    rw [step] at h
    split at h
    · obtain rfl := Option.some.inj h
      exact ⟨hright.copies, hright.cancels, hright.freedOnce⟩
    · obtain rfl := Option.some.inj h
      exact ⟨hright.copies, hright.cancels, hright.freedOnce⟩
    · cases h

/-- **In an orderly run every caller copies its own output, and every cancel goes for a run in
flight.** -/
theorem right_of_orderly {as : List (Action κ)}
    (horderly : StepMachine.Along step Orderly ({} : World κ) as) :
    ∀ before w, before <+: as → StepMachine.run step ({} : World κ) before = some w → Right w := by
  have hvalid : Valid ({} : World κ) := ⟨fun _ => trivial, fun _ h => nomatch h⟩
  have hright : Right ({} : World κ) := ⟨fun _ h => (nomatch h), fun _ h => (nomatch h), rfl⟩
  have halong := StepMachine.invariant_along (I := fun w : World κ => Valid w ∧ Right w)
    (fun w a w' hw ha hstep => ⟨valid_step hw.1 ha hstep, right_step hw.1 hw.2 ha hstep⟩)
    ⟨hvalid, hright⟩ horderly
  exact fun before w hbefore hrun => (halong before w hbefore hrun).2

/-- A sub-turn runs to its end while the stream of the main turn goes on, which then is cancelled
once another sub-turn has begun. -/
def nested : List (Action (Fin 3)) :=
  [.start 0 (ascii "tiger"), .receive 0 (ascii "a") false, .start 1 (ascii "bolt"),
    .receive 1 (ascii "b") false, .receive 0 (ascii "c") false, .freeOld 1, .store 1 false,
    .answer 1, .clear 1, .copy 1, .start 2 (ascii "sage"), .cancel false, .fail 2, .cancel false,
    .clear 2, .cancelDone, .freeOld 0, .store 0 false, .answer 0, .clear 0, .copy 0]

theorem right_nested : ∃ w, StepMachine.run step {} nested = some w ∧
    w.copies = [⟨ascii "b", some (ascii "b")⟩, ⟨ascii "ac", some (ascii "ac")⟩] ∧ Right w := by
  have horderly : StepMachine.Along step Orderly {} nested := by decide
  exact ⟨_, rfl, rfl, right_of_orderly horderly _ _ (List.prefix_refl _) rfl⟩

/-- Two runs end together: the second frees what the first has returned, before it is copied.  And a
cancel finds the slot cleared while the other run is still in flight. -/
def overlapping : List (Action Bool) :=
  [.start true (ascii "tiger"), .start false (ascii "bolt"), .receive true (ascii "a") false,
    .receive false (ascii "b") false, .freeOld true, .store true false, .answer true, .clear true,
    .cancel false, .freeOld false, .copy true]

theorem not_right_overlapping_runs : ∃ w, StepMachine.run step {} overlapping = some w ∧
    w.copies = [⟨ascii "a", none⟩] ∧ w.cancels.map (·.target) = [none] ∧
    w.running false = some (ascii "bolt") ∧ ¬ Right w := by
  refine ⟨_, rfl, rfl, rfl, rfl, fun hright => ?_⟩
  exact absurd (hright.copies _ (List.mem_singleton_self _)) (by decide)

end FanOut
end Runtime
end TigerClaw
