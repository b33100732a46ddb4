import Mathlib.Logic.Function.Basic
import TigerClaw.Basic
import TigerClaw.Library.StepMachine

/-!
# Turns on one runner

A `LiveAgentRunner` keeps the output of its last turn in `last_output`, lends it to the caller, and
frees it when the next turn starts; it has one cancel flag.  Every connection of the TCP server has
a thread of its own, and the dispatch worker is one more, so that any number of callers may run
turns on one runner.

* `step`: the callers, each of which runs a turn and reads its output, and the cancel requests,
  cut at the accesses to the fields of the runner.
* `Right`: every caller has read what its own turn computed, and no start of another turn has
  cleared a cancel request that a running turn had not seen.
* `right_of_exclusive`: so it is in every run in which no turn starts before the caller of every
  other turn has read its output.
-/

namespace TigerClaw
namespace Cli
namespace Sharing

/-- A slice of the allocator's memory; none is the empty one. -/
abbrev Slice := Option ℕ

/-- The fields that the turns of a `LiveAgentRunner` share, and the buffers that have been
allocated, in order, each until it is freed. -/
structure Runner where
  cancelFlag : Bool := false
  lastOutput : Slice := none
  buffers : List (Option Bytes) := []

namespace Runner

/-- What is read through a slice; none if its buffer has been freed. -/
def contents (self : Runner) : Slice → Option Bytes
  | none => some []
  | some i => self.buffers[i]?.join

/-- A text of the allocator's; the empty one needs no buffer. -/
def alloc (self : Runner) (text : Bytes) : Runner × Slice :=
  if text = [] then (self, none)
  else ({ self with buffers := self.buffers ++ [some text] }, some self.buffers.length)

/-- `if (self.last_output.len > 0)`: free it and clear the field. -/
def rotate (self : Runner) : Runner :=
  match self.lastOutput with
  | none => self
  | some i => { self with lastOutput := none, buffers := self.buffers.set i none }

end Runner

/-- Where a caller stands.  `text` is what its turn has computed, for statements only. -/
inductive Stage where
  | idle
  /-- The cancel flag is reset. -/
  | started
  /-- The previous output is freed.  `toolCancelled` is `any_tool_cancelled`. -/
  | computing (toolCancelled : Bool)
  /-- `final_text` is there. -/
  | computed (finalText : Slice) (text : Bytes)
  | stored (text : Bytes)
  /-- The turn has returned. -/
  | returned (output : Slice) (text : Bytes)
  deriving DecidableEq

/-- The turn has begun and has not returned. -/
def Stage.isRunning : Stage → Bool
  | .idle | .returned .. => false
  | _ => true

/-- What a caller has read, and what its turn had computed. -/
structure Read where
  text : Bytes
  got : Option Bytes

/-- `unseen` says of which running turns a cancel was requested that they have not seen yet,
`cleared` of which turns such a request was cleared by the start of another one.  Both are for
statements only, as `reads` is. -/
structure World (κ : Type) where
  runner : Runner := {}
  stage : κ → Stage := fun _ => .idle
  unseen : κ → Bool := fun _ => false
  cleared : κ → Bool := fun _ => false
  reads : List Read := []

inductive Action (κ : Type) where
  /-- A caller runs a turn: the cancel flag is reset. -/
  | start (c : κ)
  | rotate (c : κ)
  /-- The cancel flag is read, by the stream reader, or before, in or after a tool. -/
  | poll (c : κ) (inTool : Bool)
  /-- The tools of a round have run. -/
  | toolsDone (c : κ)
  | compute (c : κ) (text : Bytes)
  /-- The turn returns an error. -/
  | fail (c : κ)
  | store (c : κ)
  /-- The turn returns a result. -/
  | answer (c : κ)
  /-- The caller reads the output. -/
  | read (c : κ)
  | cancel

variable {κ : Type} [DecidableEq κ]

/-- The caller goes on to another stage. -/
def World.goto (w : World κ) (c : κ) (stage : Stage) : World κ :=
  { w with stage := Function.update w.stage c stage }

def step (w : World κ) : Action κ → Option (World κ)
  | .start c =>
    match w.stage c with
    | .idle => some { w.goto c .started with
        runner := { w.runner with cancelFlag := false }
        cleared := fun d => w.cleared d || (w.runner.cancelFlag && w.unseen d) }
    | _ => none
  | .rotate c =>
    match w.stage c with
    | .started => some { w.goto c (.computing false) with runner := w.runner.rotate }
    | _ => none
  | .poll c inTool =>
    match w.stage c with
    | .computing toolCancelled =>
      let flag := w.runner.cancelFlag
      some { w.goto c (.computing (toolCancelled || (inTool && flag))) with
        unseen := Function.update w.unseen c (w.unseen c && !flag) }
    | _ => none
  | .toolsDone c =>
    match w.stage c with
    | .computing toolCancelled => some { w.goto c (.computing false) with
        runner := { w.runner with cancelFlag := w.runner.cancelFlag && !toolCancelled } }
    | _ => none
  | .compute c text =>
    match w.stage c with
    | .computing _ =>
      let (runner, finalText) := w.runner.alloc text
      some { w.goto c (.computed finalText text) with runner }
    | _ => none
  | .fail c =>
    match w.stage c with
    | .started | .computing _ => some { w.goto c .idle with
        unseen := Function.update w.unseen c false }
    | _ => none
  | .store c =>
    match w.stage c with
    | .computed finalText text => some { w.goto c (.stored text) with
        runner := { w.runner with lastOutput := finalText } }
    | _ => none
  | .answer c =>
    match w.stage c with
    | .stored text => some { w.goto c (.returned w.runner.lastOutput text) with
        unseen := Function.update w.unseen c false }
    | _ => none
  | .read c =>
    match w.stage c with
    | .returned output text => some { w.goto c .idle with
        reads := w.reads ++ [⟨text, w.runner.contents output⟩] }
    | _ => none
  | .cancel => some { w with
      runner := { w.runner with cancelFlag := true }
      unseen := fun d => w.unseen d || (w.stage d).isRunning }

/-- **Turns do not mix.** -/
structure Right (w : World κ) : Prop where
  reads : ∀ r ∈ w.reads, r.got = some r.text
  cancels : ∀ c, w.cleared c = false

/-- No turn starts before every caller has read the output of the last one. -/
def Exclusive (w : World κ) : Action κ → Prop
  | .start _ => ∀ d, w.stage d = .idle
  | _ => True

/-! ## What a step can do -/

/-- What a caller holds can be read. -/
def Stage.Good (runner : Runner) : Stage → Prop
  | .idle | .started | .computing _ => True
  | .computed finalText text => runner.contents finalText = some text
  | .stored text => runner.contents runner.lastOutput = some text
  | .returned output text => runner.contents output = some text

theorem Runner.contents_alloc {self runner : Runner} {text : Bytes} {slice : Slice}
    (h : self.alloc text = (runner, slice)) : runner.contents slice = some text := by
  rw [alloc] at h
  split at h
  · rename_i hempty
    obtain ⟨rfl, rfl⟩ := Prod.mk.inj h
    rw [hempty]
    rfl
  · obtain ⟨rfl, rfl⟩ := Prod.mk.inj h
    show (self.buffers ++ [some text])[self.buffers.length]?.join = _
    rw [List.getElem?_concat_length]
    rfl

/-- What a step does: it moves one caller on, or requests a cancel. -/
inductive Moves (w : World κ) : Action κ → World κ → Prop
  | went (a : Action κ) (c : κ) (stage : Stage) (w' : World κ)
      (hidle : w.stage c = .idle → a = .start c)
      (hstage : w'.stage = Function.update w.stage c stage)
      (hgood : (w.stage c).Good w.runner → stage.Good w'.runner)
      (hunseen : ∀ d, w'.unseen d → w.unseen d ∧
        (d = c → (w.stage c).isRunning → stage.isRunning))
      (hcleared : ∀ d, w'.cleared d → w.cleared d ∨ a = .start c ∧ w.unseen d)
      (hreads : ∀ r ∈ w'.reads, r ∈ w.reads ∨
        ((w.stage c).Good w.runner → r.got = some r.text)) : Moves w a w'
  | cancelled : Moves w .cancel { w with
      runner := { w.runner with cancelFlag := true }
      unseen := fun d => w.unseen d || (w.stage d).isRunning }

/-- Only a caller's own entry changes. -/
theorem unseen_of_update {unseen : κ → Bool} {c d : κ} {b : Bool} (hb : b → unseen c)
    (h : Function.update unseen c b d) : unseen d ∧ (d = c → b) := by
  by_cases hd : d = c
  · rw [hd, Function.update_self] at h
    exact ⟨hd ▸ hb h, fun _ => h⟩
  · rw [Function.update_of_ne hd] at h
    exact ⟨h, fun hdc => absurd hdc hd⟩

theorem moves_of_step {w w' : World κ} {a : Action κ} (h : step w a = some w') : Moves w a w' := by
  cases a with
  | start c =>
    rw [step] at h
    split at h
    on_goal 2 => exact nomatch h
    rename_i hstage
    obtain rfl := Option.some.inj h
    refine .went _ c .started _ (fun _ => rfl) rfl (fun _ => trivial)
      (fun d hd => ⟨hd, fun _ _ => rfl⟩) (fun d hd => ?_) (fun r hr => .inl hr)
    rcases (Bool.or_eq_true _ _).mp hd with hd | hd
    · exact .inl hd
    · exact .inr ⟨rfl, ((Bool.and_eq_true _ _).mp hd).2⟩
  | rotate c =>
    rw [step] at h
    split at h
    on_goal 2 => exact nomatch h
    rename_i hstage
    obtain rfl := Option.some.inj h
    exact .went _ c (.computing false) _ (fun hidle => nomatch hstage.symm.trans hidle) rfl
      (fun _ => trivial) (fun d hd => ⟨hd, fun _ _ => rfl⟩) (fun d hd => .inl hd)
      (fun r hr => .inl hr)
  | poll c inTool =>
    rw [step] at h
    split at h
    on_goal 2 => exact nomatch h
    rename_i toolCancelled hstage
    obtain rfl := Option.some.inj h
    refine .went _ c (.computing _) _ (fun hidle => nomatch hstage.symm.trans hidle) rfl
      (fun _ => trivial) (fun d hd => ⟨?_, fun _ _ => rfl⟩) (fun d hd => .inl hd)
      (fun r hr => .inl hr)
    exact (unseen_of_update (fun hb => ((Bool.and_eq_true _ _).mp hb).1) hd).1
  | toolsDone c =>
    rw [step] at h
    split at h
    on_goal 2 => exact nomatch h
    rename_i toolCancelled hstage
    obtain rfl := Option.some.inj h
    exact .went _ c (.computing false) _ (fun hidle => nomatch hstage.symm.trans hidle) rfl
      (fun _ => trivial) (fun d hd => ⟨hd, fun _ _ => rfl⟩) (fun d hd => .inl hd)
      (fun r hr => .inl hr)
  | compute c text =>
    rw [step] at h
    split at h
    on_goal 2 => exact nomatch h
    rename_i toolCancelled hstage
    rcases halloc : w.runner.alloc text with ⟨runner, finalText⟩
    rw [halloc] at h
    obtain rfl := Option.some.inj h
    exact .went _ c (.computed finalText text) _ (fun hidle => nomatch hstage.symm.trans hidle) rfl
      (fun _ => Runner.contents_alloc halloc) (fun d hd => ⟨hd, fun _ _ => rfl⟩)
      (fun d hd => .inl hd) (fun r hr => .inl hr)
  | fail c =>
    rw [step] at h
    have hfailed : ∀ stage : Stage, w.stage c = stage → stage ≠ .idle →
        Moves w (.fail c)
          { w.goto c .idle with unseen := Function.update w.unseen c false } := by
      intro stage hstage hne
      refine .went _ c .idle _ (fun hidle => absurd (hstage.symm.trans hidle) hne) rfl
        (fun _ => trivial) (fun d hd => ?_) (fun d hd => .inl hd) (fun r hr => .inl hr)
      obtain ⟨hd, hnot⟩ := unseen_of_update (b := false) (fun hb => nomatch hb) hd
      exact ⟨hd, fun hdc => nomatch hnot hdc⟩
    split at h
    · rename_i hstage
      obtain rfl := Option.some.inj h
      exact hfailed .started hstage (fun hne => nomatch hne)
    · rename_i toolCancelled hstage
      obtain rfl := Option.some.inj h
      exact hfailed (.computing toolCancelled) hstage (fun hne => nomatch hne)
    · exact nomatch h
  | store c =>
    rw [step] at h
    split at h
    on_goal 2 => exact nomatch h
    rename_i finalText text hstage
    obtain rfl := Option.some.inj h
    exact .went _ c (.stored text) _ (fun hidle => nomatch hstage.symm.trans hidle) rfl
      (fun hgood => by rw [hstage] at hgood; exact hgood) (fun d hd => ⟨hd, fun _ _ => rfl⟩)
      (fun d hd => .inl hd) (fun r hr => .inl hr)
  | answer c =>
    rw [step] at h
    split at h
    on_goal 2 => exact nomatch h
    rename_i text hstage
    obtain rfl := Option.some.inj h
    refine .went _ c (.returned w.runner.lastOutput text) _
      (fun hidle => nomatch hstage.symm.trans hidle) rfl
      (fun hgood => by rw [hstage] at hgood; exact hgood) (fun d hd => ?_)
      (fun d hd => .inl hd) (fun r hr => .inl hr)
    obtain ⟨hd, hnot⟩ := unseen_of_update (b := false) (fun hb => nomatch hb) hd
    exact ⟨hd, fun hdc => nomatch hnot hdc⟩
  | read c =>
    rw [step] at h
    split at h
    on_goal 2 => exact nomatch h
    rename_i output text hstage
    obtain rfl := Option.some.inj h
    refine .went _ c .idle _ (fun hidle => nomatch hstage.symm.trans hidle) rfl
      (fun _ => trivial) (fun d hd => ⟨hd, fun _ hrunning => ?_⟩) (fun d hd => .inl hd)
      (fun r hr => ?_)
    · rw [hstage] at hrunning
      exact nomatch hrunning
    · rcases List.mem_append.mp hr with hr | hr
      · exact .inl hr
      · obtain rfl := List.mem_singleton.mp hr
        refine .inr fun hgood => ?_
        rw [hstage] at hgood
        exact hgood
  | cancel =>
    obtain rfl := Option.some.inj h
    exact .cancelled

/-! ## Turns one after the other -/

/-- What every state of a run that keeps to `Exclusive` satisfies. -/
structure Valid (w : World κ) : Prop where
  alone : ∀ c d, w.stage c ≠ .idle → w.stage d ≠ .idle → c = d
  good : ∀ c, (w.stage c).Good w.runner
  unseen : ∀ c, w.unseen c → (w.stage c).isRunning

theorem isRunning_ne_idle {stage : Stage} (h : stage.isRunning) : stage ≠ .idle := by
  rintro rfl
  exact nomatch h

/-- The request to cancel changes nothing that a caller holds. -/
theorem Stage.Good.cancel {runner : Runner} {stage : Stage} (h : stage.Good runner) :
    stage.Good { runner with cancelFlag := true } := by
  cases stage <;> exact h

/-- **A step of an exclusive run keeps the turns apart.** -/
theorem valid_step {w w' : World κ} {a : Action κ} (hs : Valid w) (hright : Right w)
    (ha : Exclusive w a) (h : step w a = some w') : Valid w' ∧ Right w' := by
  cases moves_of_step h with
  | went _ c stage _ hidle hstage hgood hunseen hcleared hreads =>
    have hothers : ∀ d, d ≠ c → w.stage d = .idle := by
      intro d hd
      by_cases hc : w.stage c = .idle
      · obtain rfl := hidle hc
        exact ha d
      · by_contra hne
        exact hd (hs.alone d c hne hc)
    have hstage' : ∀ d, d ≠ c → w'.stage d = .idle := by
      intro d hd
      rw [hstage, Function.update_of_ne hd, hothers d hd]
    refine ⟨⟨fun d e hd he => ?_, fun d => ?_, fun d hd => ?_⟩, fun r hr => ?_, fun d => ?_⟩
    · have hdc := not_imp_comm.mp (hstage' d) hd
      have hec := not_imp_comm.mp (hstage' e) he
      exact hdc.trans hec.symm
    · by_cases hd : d = c
      · rw [hd, hstage, Function.update_self]
        exact hgood (hs.good c)
      · rw [hstage' d hd]
        trivial
    · obtain ⟨hd', hrunning⟩ := hunseen d hd
      have hrun := hs.unseen d hd'
      have hdc : d = c := not_imp_comm.mp (hothers d) (isRunning_ne_idle hrun)
      rw [hdc, hstage, Function.update_self]
      exact hrunning hdc (hdc ▸ hrun)
    · rcases hreads r hr with hr | hr
      · exact hright.reads r hr
      · exact hr (hs.good c)
    · refine Bool.eq_false_iff.mpr fun hd => ?_
      rcases hcleared d hd with hd | ⟨rfl, hd⟩
      · exact absurd hd (Bool.eq_false_iff.mp (hright.cancels d))
      · exact isRunning_ne_idle (hs.unseen d hd) (ha d)
  | cancelled =>
    refine ⟨⟨hs.alone, fun c => (hs.good c).cancel, fun c hc => ?_⟩,
      hright.reads, hright.cancels⟩
    rcases (Bool.or_eq_true _ _).mp hc with hc | hc
    · exact hs.unseen c hc
    · exact hc

/-- **Turns that start only when every output has been read do not mix.** -/
theorem right_of_exclusive (runner : Runner) {as : List (Action κ)}
    (hexclusive : StepMachine.Along step Exclusive ({ runner } : World κ) as) :
    ∀ before w, before <+: as →
      StepMachine.run step ({ runner } : World κ) before = some w → Right w := by
  have hstart : Valid ({ runner } : World κ) :=
    ⟨fun _ _ h => absurd rfl h, fun _ => trivial, fun _ h => nomatch h⟩
  have hright : Right ({ runner } : World κ) := ⟨fun _ h => (nomatch h), fun _ => rfl⟩
  have halong := StepMachine.invariant_along (I := fun w : World κ => Valid w ∧ Right w)
    (fun w a w' hw ha hstep => valid_step hw.1 hw.2 ha hstep) ⟨hstart, hright⟩ hexclusive
  exact fun before w hbefore hrun => (halong before w hbefore hrun).2

/-- A turn of a caller from its start to the read. -/
def turn (c : κ) (text : Bytes) : List (Action κ) :=
  [.start c, .rotate c, .compute c text, .store c, .answer c, .read c]

/-- A turn, a cancel request after it, and the start of the next turn. -/
theorem right_oneTurn : ∃ w, StepMachine.run step ({} : World Bool)
      (turn true (ascii "one") ++ [.cancel, .start false]) = some w ∧
    w.reads = [⟨ascii "one", some (ascii "one")⟩] ∧ Right w := by
  have hexclusive : StepMachine.Along step Exclusive ({} : World Bool)
      (turn true (ascii "one") ++ [.cancel, .start false]) := by
    refine (StepMachine.along_cons rfl).mpr ⟨fun _ => rfl, ?_⟩
    refine (StepMachine.along_cons rfl).mpr ⟨trivial, (StepMachine.along_cons rfl).mpr ⟨trivial,
      (StepMachine.along_cons rfl).mpr ⟨trivial, (StepMachine.along_cons rfl).mpr ⟨trivial,
        (StepMachine.along_cons rfl).mpr ⟨trivial, (StepMachine.along_cons rfl).mpr ⟨trivial,
          ?_⟩⟩⟩⟩⟩⟩
    refine (StepMachine.along_cons rfl).mpr ⟨fun d => ?_, trivial⟩
    cases d with
    | false => rfl
    | true => rfl
  exact ⟨_, rfl, rfl, right_of_exclusive {} hexclusive _ _ (List.prefix_refl _) rfl⟩

/-- Turns that overlap do mix: the start of the second clears the cancel of the first, and
frees what the first has returned. -/
theorem not_right_overlapping : ∃ w, StepMachine.run step ({} : World Bool)
      [.start true, .rotate true, .cancel, .start false, .compute true (ascii "one"), .store true,
        .answer true, .rotate false, .read true] = some w ∧
    w.reads = [⟨ascii "one", none⟩] ∧ w.cleared true = true ∧ ¬ Right w := by
  refine ⟨_, rfl, rfl, rfl, fun hright => ?_⟩
  exact absurd (hright.cancels true) (by decide)

/-- The first caller reads what the turn of the second has computed. -/
example : (StepMachine.run step ({} : World Bool)
      [.start true, .rotate true, .start false, .rotate false, .compute true (ascii "one"),
        .compute false (ascii "two"), .store true, .store false, .answer true, .read true]).map
    World.reads = some [⟨ascii "one", some (ascii "two")⟩] := rfl

end Sharing
end Cli
end TigerClaw
