import Mathlib.Data.Fintype.Basic
import TigerClaw.Basic
import TigerClaw.Library.StepMachine

/-!
# Cancel requests of one gateway

The gateway runs the turns of all its sessions on one registry of agents: `registryRun` takes the
agent with the name of the session, or the first one loaded, or the mock.  A turn resets the cancel
flag of its agent when it starts, and reads the flag from time to time.
`DELETE /sessions/:id/turns/current` asks for the turn of a session to be cancelled.

* `step`: the turns and the requests, cut at the accesses to the flags.
* `Right`: what a turn sees on its flag is the requests for its own session, and all of them.
* `targeted_iff`: so it is exactly in the runs that keep to `Targeted`.
-/

namespace TigerClaw
namespace Cli
namespace Registry

/-- The agents that `loadAll` has found, and the one for the sessions of other names. -/
structure AgentRegistry where
  names : List Bytes
  defaultIndex : Option (Fin names.length) := none

/-- Where an agent stands in `entries`. -/
abbrev AgentRegistry.Index (self : AgentRegistry) : Type := Fin self.names.length

/-- The runner that `registryRun` chooses, none being `mock_fallback`. -/
def AgentRegistry.route (self : AgentRegistry) (sessionId : Bytes) : Option self.Index :=
  (self.names.findFinIdx? (· == sessionId)).or self.defaultIndex

/-- How far a turn is. -/
inductive Phase where
  /-- Its runner is chosen. -/
  | begun
  /-- The cancel flag is reset.  `toolCancelled` is `any_tool_cancelled`. -/
  | running (toolCancelled : Bool)
  deriving DecidableEq

/-- A turn under way.  `asked` says whether a cancel of its session was requested since the flag was
last cleared, and `unseen` whether one was requested that the turn has not seen; both are for
statements only. -/
structure Turn (ι : Type) where
  session : Bytes
  runner : Option ι
  phase : Phase := .begun
  asked : Bool := false
  unseen : Bool := false

structure World (κ ι : Type) where
  cancelFlag : ι → Bool := fun _ => false
  turn : κ → Option (Turn ι) := fun _ => none

inductive Action (κ : Type) where
  /-- `registryRun` looks the session up. -/
  | run (c : κ) (sessionId : Bytes)
  /-- `liveRun` resets the cancel flag. -/
  | reset (c : κ)
  /-- The flag is read, by the stream reader, or before, in or after a tool. -/
  | poll (c : κ) (inTool : Bool)
  /-- The tools of a round have run. -/
  | toolsDone (c : κ)
  /-- The turn returns a result or an error. -/
  | finish (c : κ)
  /-- `DELETE /sessions/:id/turns/current`. -/
  | cancel (id : Bytes)

variable {κ ι : Type}

/-- What the turn reads of its flag; the mock has none. -/
def World.flagOf (w : World κ ι) (t : Turn ι) : Bool :=
  match t.runner with
  | none => false
  | some i => w.cancelFlag i

/-- `registryCancel`: every loaded agent's flag is set. -/
def registryCancel (_cancelFlag : ι → Bool) : ι → Bool := fun _ => true

/-- `sessionsTurnCancelHandler`: the id is logged. -/
def sessionsTurnCancelHandler (_id : Bytes) (cancelFlag : ι → Bool) : ι → Bool :=
  registryCancel cancelFlag

/-- A cancel of a session is requested. -/
def Turn.request (self : Turn ι) (id : Bytes) : Turn ι :=
  if self.session = id then { self with asked := true, unseen := true } else self

/-- The flag of a runner is cleared. -/
def Turn.clear [DecidableEq ι] (self : Turn ι) (i : ι) : Turn ι :=
  if self.runner = some i then { self with asked := false } else self

variable [DecidableEq κ] [DecidableEq ι]

def World.goto (w : World κ ι) (c : κ) (t : Option (Turn ι)) : World κ ι :=
  { w with turn := Function.update w.turn c t }

/-- `cancel_flag.store(false)`. -/
def World.clear (w : World κ ι) (i : ι) : World κ ι where
  cancelFlag := Function.update w.cancelFlag i false
  turn := fun d => (w.turn d).map (·.clear i)

def step (registry : AgentRegistry) (w : World κ registry.Index) :
    Action κ → Option (World κ registry.Index)
  | .run c sessionId =>
    match w.turn c with
    | none => some (w.goto c (some { session := sessionId, runner := registry.route sessionId }))
    | some _ => none
  | .reset c =>
    match w.turn c with
    | some ⟨session, some i, .begun, asked, unseen⟩ =>
      -- `SessionMissing` comes first
      if session = [] then none
      else some ((w.goto c (some ⟨session, some i, .running false, asked, unseen⟩)).clear i)
    | _ => none
  | .poll c inTool =>
    match w.turn c with
    | some ⟨session, some i, .running toolCancelled, asked, unseen⟩ =>
      let flag := w.cancelFlag i
      some (w.goto c
        (some ⟨session, some i, .running (toolCancelled || (inTool && flag)), asked,
          unseen && !flag⟩))
    | _ => none
  | .toolsDone c =>
    match w.turn c with
    | some ⟨session, some i, .running toolCancelled, asked, unseen⟩ =>
      let w' := w.goto c (some ⟨session, some i, .running false, asked, unseen⟩)
      some (if toolCancelled then w'.clear i else w')
    | _ => none
  | .finish c =>
    match w.turn c with
    | some ⟨session, some _, .begun, _, _⟩ => if session = [] then some (w.goto c none) else none
    | some _ => some (w.goto c none)
    | none => none
  | .cancel id => some {
      cancelFlag := sessionsTurnCancelHandler id w.cancelFlag
      turn := fun d => (w.turn d).map (·.request id) }

/-- **Cancel requests reach the turns of their session, and no others.**  The cancel flag that a
turn reads is set while there is a request for it that it has not seen, and is set only if there was
a request for it. -/
structure Right (w : World κ ι) : Prop where
  reaches : ∀ c, ∀ t ∈ w.turn c, t.unseen → w.flagOf t
  targeted : ∀ c, ∀ t ∈ w.turn c, t.phase ≠ .begun → w.flagOf t → t.asked

/-- The turns on a runner have seen the requests for them. -/
def World.Heard (w : World κ ι) (runner : Option ι) : Prop :=
  ∀ d, ∀ t ∈ w.turn d, t.runner = runner → t.unseen = false

/-- A flag is cleared only when every request on it has been seen.  When a cancel of a session is
requested, its turns are on agents, and the flag of every other turn that has started is set
already. -/
def Targeted (w : World κ ι) : Action κ → Prop
  | .reset c => ∀ t ∈ w.turn c, w.Heard t.runner
  | .toolsDone c => ∀ t ∈ w.turn c, t.phase = .running true → w.Heard t.runner
  | .cancel id => ∀ d, ∀ t ∈ w.turn d,
      if t.session = id then t.runner ≠ none else t.phase ≠ .begun → w.flagOf t
  | _ => True

instance [Fintype κ] (w : World κ ι) (runner : Option ι) : Decidable (w.Heard runner) :=
  inferInstanceAs (Decidable (∀ d, ∀ t ∈ w.turn d, t.runner = runner → t.unseen = false))

instance [Fintype κ] (w : World κ ι) : ∀ a, Decidable (Targeted w a)
  | .reset c => inferInstanceAs (Decidable (∀ t ∈ w.turn c, w.Heard t.runner))
  | .toolsDone c =>
    inferInstanceAs (Decidable (∀ t ∈ w.turn c, t.phase = .running true → w.Heard t.runner))
  | .cancel id => inferInstanceAs (Decidable (∀ d, ∀ t ∈ w.turn d,
      if t.session = id then t.runner ≠ none else t.phase ≠ .begun → w.flagOf t))
  | .run .. | .poll .. | .finish _ => isTrue trivial

/-! ## What holds of every turn -/

/-- Every turn under way, with what it reads of its flag, satisfies `P`. -/
def World.All (w : World κ ι) (P : Turn ι → Bool → Prop) : Prop :=
  ∀ c, ∀ t ∈ w.turn c, P t (w.flagOf t)

/-- What `Right` says of one turn. -/
structure Served (t : Turn ι) (flag : Bool) : Prop where
  reaches : t.unseen → flag
  targeted : t.phase ≠ .begun → flag → t.asked

/-- Only agents run turns past their beginning, and the flag stays set until it is cleared. -/
structure Sound (t : Turn ι) (flag : Bool) : Prop where
  live : t.phase ≠ .begun → t.runner ≠ none
  asked : t.asked → t.runner ≠ none → flag

omit [DecidableEq κ] [DecidableEq ι] in
theorem right_iff {w : World κ ι} : Right w ↔ w.All Served := by
  constructor
  · exact fun h c t ht => ⟨h.reaches c t ht, h.targeted c t ht⟩
  · exact fun h => ⟨fun c t ht => (h c t ht).reaches, fun c t ht => (h c t ht).targeted⟩

variable {w : World κ ι} {P : Turn ι → Bool → Prop} {c : κ}

omit [DecidableEq ι] in
/-- A turn goes on, and the flags stay as they are. -/
theorem World.All.goto (h : w.All P) {t' : Option (Turn ι)}
    (ht' : ∀ t ∈ t', P t (w.flagOf t)) : (w.goto c t').All P := by
  intro d t ht
  have ht : t ∈ Function.update w.turn c t' d := ht
  by_cases hd : d = c
  · rw [hd, Function.update_self] at ht
    exact ht' t ht
  · rw [Function.update_of_ne hd] at ht
    exact h d t ht

omit [DecidableEq κ] in
/-- What a turn reads after a flag has been cleared. -/
theorem flagOf_clear (w : World κ ι) (i : ι) (t : Turn ι) :
    (w.clear i).flagOf t = if t.runner = some i then false else w.flagOf t := by
  rcases hrunner : t.runner with _ | j
  · simp only [World.flagOf, hrunner]
    rfl
  · simp only [World.flagOf, hrunner, World.clear, Option.some.injEq]
    by_cases hj : j = i
    · rw [if_pos hj, hj, Function.update_self]
    · rw [if_neg hj, Function.update_of_ne hj]

@[simp] theorem Turn.clear_runner (t : Turn ι) (i : ι) : (t.clear i).runner = t.runner := by
  rw [Turn.clear]
  split <;> rfl

@[simp] theorem Turn.clear_unseen (t : Turn ι) (i : ι) : (t.clear i).unseen = t.unseen := by
  rw [Turn.clear]
  split <;> rfl

omit [DecidableEq κ] in
theorem all_clear_iff {i : ι} : (w.clear i).All P ↔
    ∀ d, ∀ t ∈ w.turn d, P (t.clear i) (if t.runner = some i then false else w.flagOf t) := by
  have hflag : ∀ t : Turn ι, (w.clear i).flagOf (t.clear i) =
      if t.runner = some i then false else w.flagOf t := by
    intro t
    rw [flagOf_clear, Turn.clear_runner]
    simp only [World.flagOf, Turn.clear_runner]
  constructor
  · intro h d t ht
    rw [← hflag]
    exact h d _ (Option.mem_map_of_mem _ ht)
  · intro h d _ ht
    obtain ⟨t, hmem, rfl⟩ := Option.mem_map.mp ht
    rw [hflag]
    exact h d t hmem

omit [DecidableEq κ] [DecidableEq ι] in
/-- What an agent's flag is after a cancel request. -/
theorem flagOf_request (id : Bytes) (t : Turn ι) (turn : κ → Option (Turn ι)) :
    World.flagOf ⟨sessionsTurnCancelHandler id w.cancelFlag, turn⟩ (t.request id) =
      t.runner.isSome := by
  have hrunner : (t.request id).runner = t.runner := by
    rw [Turn.request]
    split <;> rfl
  rw [World.flagOf, hrunner]
  cases t.runner with
  | none => rfl
  | some i => rfl

omit [DecidableEq κ] [DecidableEq ι] in
theorem all_cancel_iff {id : Bytes} :
    (World.All ⟨sessionsTurnCancelHandler id w.cancelFlag,
      fun d => (w.turn d).map (·.request id)⟩ P) ↔
    ∀ d, ∀ t ∈ w.turn d, P (t.request id) t.runner.isSome := by
  constructor
  · intro h d t ht
    have hP := h d _ (Option.mem_map_of_mem (·.request id) ht)
    rwa [flagOf_request] at hP
  · intro h d _ ht
    obtain ⟨t, hmem, rfl⟩ := Option.mem_map.mp ht
    rw [flagOf_request]
    exact h d t hmem

/-! ## The steps -/

omit [DecidableEq κ] in
/-- **A flag that is cleared.**  What the turns of other runners read is as before, and those of
this one have nothing left to see. -/
theorem all_served_clear_iff {i : ι}
    (h : ∀ d, ∀ t ∈ w.turn d, t.runner ≠ some i → Served t (w.flagOf t)) :
    (w.clear i).All Served ↔ w.Heard (some i) := by
  rw [all_clear_iff]
  constructor
  · intro hserved d t ht hrunner
    have hreaches := (hserved d t ht).reaches
    rw [if_pos hrunner, Turn.clear_unseen] at hreaches
    exact Bool.eq_false_iff.mpr fun hunseen => nomatch hreaches hunseen
  · intro hheard d t ht
    by_cases hrunner : t.runner = some i
    · rw [if_pos hrunner]
      refine ⟨fun hunseen => ?_, fun _ hflag => nomatch hflag⟩
      rw [Turn.clear_unseen, hheard d t ht hrunner] at hunseen
      exact hunseen
    · rw [if_neg hrunner, Turn.clear, if_neg hrunner]
      exact h d t ht hrunner

omit [DecidableEq κ] in
theorem all_sound_clear {i : ι}
    (h : ∀ d, ∀ t ∈ w.turn d, t.runner ≠ some i → Sound t (w.flagOf t)) :
    (w.clear i).All Sound := by
  refine all_clear_iff.mpr fun d t ht => ?_
  by_cases hrunner : t.runner = some i
  · rw [Turn.clear, if_pos hrunner, if_pos hrunner]
    refine ⟨fun _ hnone => ?_, fun hasked => nomatch hasked⟩
    exact nomatch hrunner.symm.trans hnone
  · rw [Turn.clear, if_neg hrunner, if_neg hrunner]
    exact h d t ht hrunner

omit [DecidableEq ι] in
/-- The turns of other runners do not change when one goes on. -/
theorem goto_others {i : ι} {t' : Turn ι} (h : w.All P) (hrunner' : t'.runner = some i) :
    ∀ d, ∀ u ∈ (w.goto c (some t')).turn d, u.runner ≠ some i → P u (w.flagOf u) := by
  intro d u hu hne
  have hu : u ∈ Function.update w.turn c (some t') d := hu
  by_cases hd : d = c
  · rw [hd, Function.update_self] at hu
    obtain rfl := Option.some.inj hu
    exact absurd hrunner' hne
  · rw [Function.update_of_ne hd] at hu
    exact h d u hu

omit [DecidableEq ι] in
/-- A turn that goes on has seen no more and no less. -/
theorem heard_goto_iff {i : ι} {t t' : Turn ι} (ht : w.turn c = some t)
    (hrunner : t.runner = some i) (hrunner' : t'.runner = some i)
    (hunseen : t'.unseen = t.unseen) :
    (w.goto c (some t')).Heard (some i) ↔ w.Heard (some i) := by
  have hsame : ∀ d, (∀ u ∈ Function.update w.turn c (some t') d,
      u.runner = some i → u.unseen = false) ↔
      ∀ u ∈ w.turn d, u.runner = some i → u.unseen = false := by
    intro d
    by_cases hd : d = c
    · rw [hd, Function.update_self, ht]
      simp [hrunner, hrunner', hunseen]
    · rw [Function.update_of_ne hd]
  exact forall_congr' hsame

/-- **What a step does to the turns.** -/
inductive Moves (registry : AgentRegistry) (w : World κ registry.Index) :
    Action κ → World κ registry.Index → Prop
  | went (a : Action κ) (c : κ) (t' : Option (Turn registry.Index))
      (htargeted : Targeted w a)
      (hserved : w.All Served → ∀ t ∈ t', Served t (w.flagOf t))
      (hsound : w.All Sound → ∀ t ∈ t', Sound t (w.flagOf t)) : Moves registry w a (w.goto c t')
  | cleared (a : Action κ) (c : κ) (i : registry.Index) (t t' : Turn registry.Index)
      (ht : w.turn c = some t) (htargeted : Targeted w a ↔ w.Heard (some i))
      (hrunner : t.runner = some i) (hrunner' : t'.runner = some i)
      (hunseen : t'.unseen = t.unseen) : Moves registry w a ((w.goto c (some t')).clear i)
  | cancelled (id : Bytes) : Moves registry w (.cancel id) {
      cancelFlag := sessionsTurnCancelHandler id w.cancelFlag
      turn := fun d => (w.turn d).map (·.request id) }

theorem moves_of_step {registry : AgentRegistry} {w w' : World κ registry.Index} {a : Action κ}
    (h : step registry w a = some w') : Moves registry w a w' := by
  cases a with
  | run c sessionId =>
    rw [step] at h
    split at h
    · obtain rfl := Option.some.inj h
      refine .went _ c _ trivial (fun _ t ht => ?_) (fun _ t ht => ?_)
      · obtain rfl := Option.some.inj ht
        exact ⟨fun hunseen => (nomatch hunseen), fun hphase => absurd rfl hphase⟩
      · obtain rfl := Option.some.inj ht
        exact ⟨fun hphase => absurd rfl hphase, fun hasked => nomatch hasked⟩
    · cases h
  | reset c =>
    rw [step] at h
    split at h
    · rename_i session i asked unseen ht
      split at h
      · cases h
      · obtain rfl := Option.some.inj h
        refine .cleared _ c i _ _ ht ⟨fun hheard => hheard _ ht, ?_⟩ rfl rfl rfl
        intro hheard t ht'
        obtain rfl := Option.some.inj (ht.symm.trans ht')
        exact hheard
    · cases h
  | poll c inTool =>
    rw [step] at h
    split at h
    · rename_i session i toolCancelled asked unseen ht
      obtain rfl := Option.some.inj h
      refine .went _ c _ trivial (fun hall t ht' => ?_) (fun hall t ht' => ?_)
      · obtain rfl := Option.some.inj ht'
        obtain ⟨hreaches, htargeted⟩ := hall c _ ht
        refine ⟨fun hunseen => ?_, fun _ => htargeted (fun hphase => nomatch hphase)⟩
        exact hreaches ((Bool.and_eq_true _ _).mp hunseen).1
      · obtain rfl := Option.some.inj ht'
        exact ⟨fun _ hrunner => (nomatch hrunner), (hall c _ ht).asked⟩
    · cases h
  | toolsDone c =>
    rw [step] at h
    split at h
    · rename_i session i toolCancelled asked unseen ht
      obtain rfl := Option.some.inj h
      cases toolCancelled with
      | false =>
        refine .went _ c _ (fun t ht' hphase => ?_) (fun hall t ht' => ?_) (fun hall t ht' => ?_)
        · obtain rfl := Option.some.inj (ht.symm.trans ht')
          exact nomatch hphase
        · obtain rfl := Option.some.inj ht'
          obtain ⟨hreaches, htargeted⟩ := hall c _ ht
          exact ⟨hreaches, fun _ => htargeted (fun hphase => nomatch hphase)⟩
        · obtain rfl := Option.some.inj ht'
          exact ⟨fun _ hrunner => (nomatch hrunner), (hall c _ ht).asked⟩
      | true =>
        refine .cleared _ c i _ _ ht ⟨fun hheard => hheard _ ht rfl, ?_⟩ rfl rfl rfl
        intro hheard t ht' _
        obtain rfl := Option.some.inj (ht.symm.trans ht')
        exact hheard
    · cases h
  | finish c =>
    rw [step] at h
    have hended : Moves registry w (.finish c) (w.goto c none) :=
      .went _ c none trivial (fun _ t ht => nomatch ht) (fun _ t ht => nomatch ht)
    split at h
    · split at h
      · obtain rfl := Option.some.inj h
        exact hended
      · cases h
    · obtain rfl := Option.some.inj h
      exact hended
    · cases h
  | cancel id =>
    obtain rfl := Option.some.inj h
    exact .cancelled id

/-- **The flag of an agent stays set until it is cleared.** -/
theorem sound_step {registry : AgentRegistry} {w w' : World κ registry.Index} {a : Action κ}
    (hsound : w.All Sound) (h : step registry w a = some w') : w'.All Sound := by
  cases moves_of_step h with
  | went _ c t' _ _ hnew => exact hsound.goto (hnew hsound)
  | cleared _ c i t t' ht _ hrunner hrunner' _ =>
    exact all_sound_clear (goto_others hsound hrunner')
  | cancelled id =>
    refine all_cancel_iff.mpr fun d t ht => ?_
    obtain ⟨hlive, hasked⟩ := hsound d t ht
    rw [Turn.request]
    split
    · exact ⟨hlive, fun _ hrunner => Option.isSome_iff_ne_none.mpr hrunner⟩
    · exact ⟨hlive, fun _ hrunner => Option.isSome_iff_ne_none.mpr hrunner⟩

omit [DecidableEq κ] in
/-- **A cancel request.**  It sets every flag there is. -/
theorem all_served_cancel_iff {registry : AgentRegistry} {w : World κ registry.Index} (id : Bytes)
    (hsound : w.All Sound) (hserved : w.All Served) :
    (World.All ⟨sessionsTurnCancelHandler id w.cancelFlag,
      fun d => (w.turn d).map (·.request id)⟩ Served) ↔ Targeted w (.cancel id) := by
  rw [all_cancel_iff]
  refine forall_congr' fun d => forall₂_congr fun t ht => ?_
  obtain ⟨hlive, hasked⟩ := hsound d t ht
  obtain ⟨hreaches, htargeted⟩ := hserved d t ht
  rw [Turn.request]
  split
  · constructor
    · intro h
      exact Option.isSome_iff_ne_none.mp (h.reaches rfl)
    · intro hne
      exact ⟨fun _ => Option.isSome_iff_ne_none.mpr hne, fun _ _ => rfl⟩
  · constructor
    · intro h hphase
      have hne := hlive hphase
      exact hasked (h.targeted hphase (Option.isSome_iff_ne_none.mpr hne)) hne
    · intro hflag
      refine ⟨fun hunseen => ?_, fun hphase _ => htargeted hphase (hflag hphase)⟩
      -- a turn whose flag is set is an agent's
      have hset := hreaches hunseen
      rw [World.flagOf] at hset
      split at hset
      · cases hset
      · rename_i hrunner
        rw [hrunner]
        rfl

/-- **A step keeps the requests apart exactly if it keeps to `Targeted`.** -/
theorem right_step_iff {registry : AgentRegistry} {w w' : World κ registry.Index} {a : Action κ}
    (hsound : w.All Sound) (hright : Right w) (h : step registry w a = some w') :
    Right w' ↔ Targeted w a := by
  have hserved := right_iff.mp hright
  rw [right_iff]
  cases moves_of_step h with
  | went _ c t' htargeted hnew _ => exact iff_of_true (hserved.goto (hnew hserved)) htargeted
  | cleared _ c i t t' ht htargeted hrunner hrunner' hunseen =>
    rw [htargeted, all_served_clear_iff (goto_others hserved hrunner')]
    exact heard_goto_iff ht hrunner hrunner' hunseen
  | cancelled id => exact all_served_cancel_iff id hsound hserved

/-- Two agents. -/
def two : AgentRegistry := ⟨[ascii "tiger", ascii "bolt"], some 0⟩

/-- The turn of one session is cancelled, in a tool, and then the other agent has a turn. -/
def apart : List (Action Bool) :=
  [.run true (ascii "tiger"), .reset true, .cancel (ascii "tiger"), .poll true true,
    .toolsDone true, .finish true, .run false (ascii "bolt"), .reset false, .poll false false]

/-- Both agents have a turn when the cancel of one is requested. -/
def together : List (Action Bool) :=
  [.run true (ascii "tiger"), .reset true, .run false (ascii "bolt"), .reset false,
    .cancel (ascii "tiger"), .poll false true]

/-- A request that comes before the turn has reset the flag is lost. -/
example : ((StepMachine.run (step two) {} [.run true (ascii "tiger"), .cancel (ascii "tiger"),
      .reset true, .poll true false]).bind fun w => w.turn true).map (·.unseen) = some true := by
  decide

end Registry
end Cli
end TigerClaw
