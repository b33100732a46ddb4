import TigerClaw.Basic
import Mathlib.Logic.Function.Basic

/-!
# Permissions

Before an action the runtime asks `Permissions.check`.  The policy of the session allows it, refuses
it, or leaves it to the user; in the last case an earlier answer stands in for a new one, if there
is one in the store.  The store holds its answers under one string for the kind and the target of
the action.

* `ActionKind`, `Policy`, `evaluate`: the policy and what it says about an action.
* `Store`, `Permissions.check`: the remembered answers, and one check.
* `standing`: what the store is for.  `after_lookup`: what it holds after any checks.
* `check_memory`: remembered answers stand, answers for once leave nothing behind, no answer
  reaches another action, and what the policy refuses is refused without a prompt.
-/

namespace TigerClaw
namespace Permissions

/-- `ActionKind`. -/
inductive ActionKind where
  | fsRead
  | fsWrite
  | exec
  | net
  | toolCall
  deriving DecidableEq

/-- `@tagName`. -/
def ActionKind.tagName : ActionKind → Bytes
  | .fsRead => ascii "fs_read"
  | .fsWrite => ascii "fs_write"
  | .exec => ascii "exec"
  | .net => ascii "net"
  | .toolCall => ascii "tool_call"

inductive AutonomyLevel where
  | readOnly
  | supervised
  | full

inductive Mode where
  | always
  | ask
  | never
  deriving DecidableEq

/-- The stricter mode wins. -/
def Mode.stricter (a b : Mode) : Mode :=
  if a = .never ∨ b = .never then .never else if a = .ask ∨ b = .ask then .ask else .always

structure Overrides where
  fsRead : Option Mode := none
  fsWrite : Option Mode := none
  exec : Option Mode := none
  net : Option Mode := none
  toolCall : Option Mode := none

def Overrides.get (self : Overrides) : ActionKind → Option Mode
  | .fsRead => self.fsRead
  | .fsWrite => self.fsWrite
  | .exec => self.exec
  | .net => self.net
  | .toolCall => self.toolCall

structure Policy where
  autonomy : AutonomyLevel := .supervised
  overrides : Overrides := {}

def Policy.defaultMode : AutonomyLevel → ActionKind → Mode
  | .readOnly, .fsRead => .always
  | .readOnly, .fsWrite | .readOnly, .exec | .readOnly, .net => .never
  | .readOnly, .toolCall => .ask
  | .supervised, .fsRead => .always
  | .supervised, .fsWrite | .supervised, .exec | .supervised, .net => .ask
  | .supervised, .toolCall => .ask
  | .full, .fsRead | .full, .fsWrite | .full, .exec | .full, .net => .always
  | .full, .toolCall => .ask

/-- `Policy.modeFor`: the default of the level, or what an override makes of it. -/
def Policy.modeFor (self : Policy) (kind : ActionKind) : Mode :=
  let d := Policy.defaultMode self.autonomy kind
  match self.overrides.get kind with
  | none => d
  | some override => d.stricter override

structure Action where
  kind : ActionKind
  target : Bytes
  deriving DecidableEq

inductive Decision where
  | allow
  | ask
  | deny
  deriving DecidableEq

def evaluate (policy : Policy) (action : Action) : Decision :=
  match policy.modeFor action.kind with
  | .always => .allow
  | .ask => .ask
  | .never => .deny

/-! ## The store of answers -/

inductive Scope where
  | once
  | session
  | persistent
  deriving DecidableEq

structure Response where
  approved : Bool
  remember : Scope := .once

structure Prompt where
  kind : ActionKind
  target : Bytes
  reason : Bytes := []

structure Entry where
  approved : Bool
  scope : Scope

/-- `approval.Store`; the key of a question is the action it is about. -/
structure Store where
  map : Bytes → Option Entry := fun _ => none

/-- `makeKey`: the kind, a colon and the target. -/
def makeKey (key : Action) : Bytes := key.kind.tagName ++ ascii ":" ++ key.target

/-- `Store.record`: an answer for once is not kept. -/
def Store.record (self : Store) (key : Action) (response : Response) : Store :=
  if response.remember = .once then self
  else
    { map := Function.update self.map (makeKey key)
        (some { approved := response.approved, scope := response.remember }) }

def Store.lookup (self : Store) (key : Action) : Option Entry := self.map (makeKey key)

end Permissions

open Permissions

/-- `Permissions`, less the responder, which is an argument of every check. -/
structure Permissions where
  policyVal : Policy
  store : Store := {}

namespace Permissions

structure CheckOutcome where
  approved : Bool
  prompted : Bool

/-- The user behind the front end, who answers a prompt or fails to. -/
abbrev Responder (ε : Type) : Type := Prompt → Except ε Response

/-- What a check returns, and the prompt it has put to the user, if any. -/
structure Reply (ε : Type) where
  result : Except ε CheckOutcome
  asked : Option Prompt

variable {ε : Type}

/-- `Permissions.check`. -/
def check (self : Permissions) (action : Action) (responder : Responder ε) :
    Reply ε × Permissions :=
  match evaluate self.policyVal action with
  | .allow => (⟨.ok { approved := true, prompted := false }, none⟩, self)
  | .deny => (⟨.ok { approved := false, prompted := false }, none⟩, self)
  | .ask =>
    match self.store.lookup action with
    | some cached => (⟨.ok { approved := cached.approved, prompted := false }, none⟩, self)
    | none =>
      let prompt : Prompt := { kind := action.kind, target := action.target }
      match responder prompt with
      | .error e => (⟨.error e, some prompt⟩, self)
      | .ok resp =>
        (⟨.ok { approved := resp.approved, prompted := true }, some prompt⟩,
          { self with store := self.store.record action resp })

/-- One check of a session, with the user as he is at that moment. -/
structure Check (ε : Type) where
  action : Action
  responder : Responder ε

/-- What the user answers if this check comes to a prompt. -/
def Check.answer (c : Check ε) : Except ε Response :=
  c.responder { kind := c.action.kind, target := c.action.target }

/-- The session after some checks. -/
def after (self : Permissions) (checks : List (Check ε)) : Permissions :=
  checks.foldl (fun p c => (p.check c.action c.responder).2) self

/-! ## The composite key -/

theorem colon_notMem_tagName (kind : ActionKind) : ∀ b ∈ kind.tagName, (b != 58) = true := by
  have hall : kind.tagName.all (· != 58) = true := by cases kind <;> rfl
  exact List.all_eq_true.mp hall

theorem tagName_injective : Function.Injective ActionKind.tagName := by
  intro k k'
  cases k <;> cases k' <;> decide

/-- **Two questions with one key are one question**, whatever the target holds: the first colon
of the key ends the kind. -/
theorem makeKey_injective : Function.Injective makeKey := by
  have hkind : ∀ key : Action, (makeKey key).takeWhile (· != 58) = key.kind.tagName := by
    intro key
    rw [makeKey, List.append_assoc,
      List.takeWhile_append_of_pos (colon_notMem_tagName key.kind)]
    simp [ascii]
  rintro ⟨kind, target⟩ ⟨kind', target'⟩ hkey
  obtain rfl : kind = kind' := by
    refine tagName_injective ?_
    rw [← hkind ⟨kind, target⟩, hkey, hkind]
  obtain rfl : target = target' := List.append_cancel_left hkey
  rfl

/-! ## What the store holds -/

theorem lookup_record (self : Store) (key a : Action) (response : Response) :
    (self.record key response).lookup a =
      if key = a ∧ response.remember ≠ .once then
        some { approved := response.approved, scope := response.remember }
      else self.lookup a := by
  unfold Store.record Store.lookup
  by_cases honce : response.remember = .once
  · simp [honce]
  · by_cases hkey : key = a
    · subst hkey
      simp [honce]
    · have hne : makeKey a ≠ makeKey key := fun h => hkey (makeKey_injective h).symm
      simp [honce, hkey, Function.update_of_ne hne]

/-- The entry that the user's answer to a check is worth, if it is one to keep. -/
def Check.kept (c : Check ε) : Option Entry :=
  match c.answer with
  | .error _ => none
  | .ok r =>
    if r.remember = .once then none else some { approved := r.approved, scope := r.remember }

/-- The answer that stands for an action: the first one to keep that the user has for it. -/
def standing (checks : List (Check ε)) (a : Action) : Option Entry :=
  (checks.filter fun c => c.action = a).findSome? Check.kept

/-- Only a check that comes to a prompt changes the session, and only by what it records. -/
theorem check_snd (self : Permissions) (c : Check ε) :
    (self.check c.action c.responder).2 =
      if evaluate self.policyVal c.action = .ask ∧ self.store.lookup c.action = none then
        match c.answer with
        | .error _ => self
        | .ok r => { self with store := self.store.record c.action r }
      else self := by
  unfold check
  cases hdecision : evaluate self.policyVal c.action with
  | allow => simp
  | deny => simp
  | ask =>
    cases hlookup : self.store.lookup c.action with
    | some cached => simp
    | none =>
      rw [if_pos ⟨rfl, rfl⟩]
      cases hanswer : c.answer with
      | error e =>
        rw [Check.answer] at hanswer
        simp [hanswer]
      | ok r =>
        rw [Check.answer] at hanswer
        simp [hanswer]

@[simp] theorem check_policyVal (self : Permissions) (c : Check ε) :
    (self.check c.action c.responder).2.policyVal = self.policyVal := by
  rw [check_snd]
  split
  · cases c.answer <;> rfl
  · rfl

/-- A check adds the user's answer to the store, where the policy leaves the action to him and no
earlier answer stands; it leaves the other actions as they were. -/
theorem check_lookup (self : Permissions) (c : Check ε) (a : Action) :
    (self.check c.action c.responder).2.store.lookup a =
      if c.action = a ∧ evaluate self.policyVal a = .ask then (self.store.lookup a).or c.kept
      else self.store.lookup a := by
  have hrecord : ∀ r, c.answer = .ok r → (self.store.record c.action r).lookup a =
      if c.action = a then c.kept.or (self.store.lookup a) else self.store.lookup a := by
    intro r hanswer
    rw [lookup_record, Check.kept, hanswer]
    by_cases honce : r.remember = .once
    · simp [honce]
    · by_cases haction : c.action = a <;> simp [honce, haction]
  rw [check_snd]
  by_cases hasked : evaluate self.policyVal c.action = .ask ∧ self.store.lookup c.action = none
  · obtain ⟨hask, hnone⟩ := hasked
    rw [if_pos ⟨hask, hnone⟩]
    cases hanswer : c.answer with
    | error e =>
      have hkept : c.kept = none := by rw [Check.kept, hanswer]
      simp [hkept]
    | ok r =>
      rw [hrecord r hanswer]
      by_cases haction : c.action = a
      · subst haction
        rw [if_pos rfl, if_pos ⟨rfl, hask⟩, hnone, Option.or_none, Option.none_or]
      · rw [if_neg haction, if_neg fun h => haction h.1]
  · rw [if_neg hasked]
    by_cases hhere : c.action = a ∧ evaluate self.policyVal a = .ask
    · obtain ⟨rfl, hask⟩ := hhere
      -- an earlier answer stands, or there would have been a prompt
      obtain ⟨cached, hcached⟩ := Option.ne_none_iff_exists'.mp fun hnone => hasked ⟨hask, hnone⟩
      rw [if_pos ⟨rfl, hask⟩, hcached, Option.some_or]
    · rw [if_neg hhere]

theorem after_cons (self : Permissions) (c : Check ε) (checks : List (Check ε)) :
    self.after (c :: checks) = (self.check c.action c.responder).2.after checks := rfl

theorem after_append (self : Permissions) (before checks : List (Check ε)) :
    self.after (before ++ checks) = (self.after before).after checks := List.foldl_append

@[simp] theorem after_policyVal (self : Permissions) (checks : List (Check ε)) :
    (self.after checks).policyVal = self.policyVal := by
  induction checks generalizing self with
  | nil => rfl
  | cons c checks ih => rw [after_cons, ih, check_policyVal]

theorem standing_cons (c : Check ε) (checks : List (Check ε)) (a : Action) :
    standing (c :: checks) a = if c.action = a then c.kept.or (standing checks a)
      else standing checks a := by
  unfold standing
  by_cases haction : c.action = a
  · rw [List.filter_cons_of_pos (by simpa using haction), if_pos haction, List.findSome?_cons]
    cases c.kept <;> rfl
  · rw [List.filter_cons_of_neg (by simpa using haction), if_neg haction]

/-- **After any checks the store holds, for an action that the policy leaves to the user, the answer
that stands**, and for the other actions what it held before. -/
theorem after_lookup (self : Permissions) (checks : List (Check ε)) (a : Action) :
    (self.after checks).store.lookup a =
      if evaluate self.policyVal a = .ask then (self.store.lookup a).or (standing checks a)
      else self.store.lookup a := by
  induction checks generalizing self with
  | nil => simp [standing, after]
  | cons c checks ih =>
    rw [after_cons, ih, check_policyVal, check_lookup, standing_cons]
    by_cases hask : evaluate self.policyVal a = .ask
    · by_cases haction : c.action = a
      · rw [if_pos hask, if_pos hask, if_pos ⟨haction, hask⟩, if_pos haction, Option.or_assoc]
      · rw [if_pos hask, if_pos hask, if_neg fun h => haction h.1, if_neg haction]
    · rw [if_neg hask, if_neg hask, if_neg fun h => hask h.2]

/-! ## What a check returns -/

/-- The reply depends on the policy and on what stands for the action, on nothing else. -/
theorem check_congr {p q : Permissions} {a : Action} (hpolicy : p.policyVal = q.policyVal)
    (hlookup : p.store.lookup a = q.store.lookup a) (responder : Responder ε) :
    (p.check a responder).1 = (q.check a responder).1 := by
  unfold check
  rw [hpolicy, hlookup]
  split
  · rfl
  · rfl
  · split
    · rfl
    · dsimp only
      split <;> rfl

theorem check_of_lookup {self : Permissions} {a : Action} {entry : Entry}
    (hask : evaluate self.policyVal a = .ask) (hlookup : self.store.lookup a = some entry)
    (responder : Responder ε) :
    (self.check a responder).1 =
      ⟨.ok { approved := entry.approved, prompted := false }, none⟩ := by
  simp only [check, hask, hlookup]

/-- A check that has come to a prompt was left to the user, and no answer stood. -/
theorem asked_of_check {self : Permissions} {a : Action} {responder : Responder ε}
    (h : (self.check a responder).1.asked ≠ none) :
    evaluate self.policyVal a = .ask ∧ self.store.lookup a = none := by
  unfold check at h
  cases hdecision : evaluate self.policyVal a with
  | allow => simp [hdecision] at h
  | deny => simp [hdecision] at h
  | ask =>
    cases hlookup : self.store.lookup a with
    | some cached => simp [hdecision, hlookup] at h
    | none => exact ⟨rfl, rfl⟩

/-- What the permissions of a session promise over any sequence of its checks. -/
structure Memory (ε : Type) (self : Permissions) : Prop where
  /-- An answer to keep decides every later check of the action, without a prompt. -/
  stands : ∀ (before between : List (Check ε)) (c : Check ε) (r : Response),
    ((self.after before).check c.action c.responder).1.asked ≠ none →
    c.answer = .ok r → r.remember ≠ .once → ∀ responder : Responder ε,
    ((self.after (before ++ c :: between)).check c.action responder).1 =
      ⟨.ok { approved := r.approved, prompted := false }, none⟩
  /-- After an answer for once every later check goes as if the question had never been put. -/
  once : ∀ (before later : List (Check ε)) (c : Check ε) (r : Response),
    c.answer = .ok r → r.remember = .once → ∀ (a : Action) (responder : Responder ε),
    ((self.after (before ++ c :: later)).check a responder).1 =
      ((self.after (before ++ later)).check a responder).1
  /-- The checks of the other actions make no difference. -/
  separate : ∀ (checks : List (Check ε)) (a : Action) (responder : Responder ε),
    ((self.after checks).check a responder).1 =
      ((self.after (checks.filter fun c => c.action = a)).check a responder).1
  /-- What the policy refuses is refused, and the user is not asked. -/
  refused : ∀ (checks : List (Check ε)) (a : Action) (responder : Responder ε),
    self.policyVal.modeFor a.kind = .never →
    ((self.after checks).check a responder).1 =
      ⟨.ok { approved := false, prompted := false }, none⟩

theorem after_stands (self : Permissions) (before between : List (Check ε)) (c : Check ε)
    {r : Response} (hasked : ((self.after before).check c.action c.responder).1.asked ≠ none)
    (hanswer : c.answer = .ok r) (hkeep : r.remember ≠ .once) :
    evaluate self.policyVal c.action = .ask ∧
      (self.after (before ++ c :: between)).store.lookup c.action =
        some { approved := r.approved, scope := r.remember } := by
  obtain ⟨hask, hnone⟩ := asked_of_check hasked
  have hkept : c.kept = some { approved := r.approved, scope := r.remember } := by
    rw [Check.kept, hanswer]
    exact if_neg hkeep
  rw [after_policyVal] at hask
  refine ⟨hask, ?_⟩
  rw [after_append, after_lookup, after_policyVal, if_pos hask, hnone, Option.none_or,
    standing_cons, if_pos rfl, hkept, Option.some_or]

theorem standing_append (before later : List (Check ε)) (a : Action) :
    standing (before ++ later) a = (standing before a).or (standing later a) := by
  unfold standing
  rw [List.filter_append, List.findSome?_append]

/-- An answer for once leaves what stands as it was. -/
theorem standing_of_once (before later : List (Check ε)) {c : Check ε} {r : Response}
    (hanswer : c.answer = .ok r) (honce : r.remember = .once) (a : Action) :
    standing (before ++ c :: later) a = standing (before ++ later) a := by
  have hkept : c.kept = none := by
    rw [Check.kept, hanswer]
    exact if_pos honce
  rw [standing_append, standing_append, standing_cons, hkept, Option.none_or, ite_self]

theorem standing_filter (checks : List (Check ε)) (a : Action) :
    standing (checks.filter fun c => c.action = a) a = standing checks a := by
  unfold standing
  rw [List.filter_filter]
  simp only [Bool.and_self]

/-- The replies after two runs of checks agree where the same answer stands. -/
theorem check_after_congr (self : Permissions) {checks checks' : List (Check ε)} {a : Action}
    (h : standing checks a = standing checks' a) (responder : Responder ε) :
    ((self.after checks).check a responder).1 = ((self.after checks').check a responder).1 := by
  refine check_congr ?_ ?_ responder
  · rw [after_policyVal, after_policyVal]
  · rw [after_lookup, after_lookup, h]

/-- **Permission memory.**  Questions with different keys are different, and over any checks of a
session the remembered answers stand, the others leave nothing behind, and a refusal of the policy
is never asked about. -/
theorem check_memory (self : Permissions) : Function.Injective makeKey ∧ Memory ε self := by
  refine ⟨makeKey_injective, ?_, ?_, ?_, ?_⟩
  · intro before between c r hasked hanswer hkeep responder
    obtain ⟨hask, hlookup⟩ := after_stands self before between c hasked hanswer hkeep
    exact check_of_lookup (by rw [after_policyVal]; exact hask) hlookup responder
  · intro before later c r hanswer honce a responder
    exact check_after_congr self (standing_of_once before later hanswer honce a) responder
  · intro checks a responder
    exact check_after_congr self (standing_filter checks a).symm responder
  · intro checks a responder hnever
    have hdeny : evaluate (self.after checks).policyVal a = .deny := by
      rw [after_policyVal, evaluate, hnever]
    simp only [check, hdeny]

/-- A session that allows a write once, then for good, and another file not at all. -/
example :
    let p : Permissions := { policyVal := {} }
    let write : Action := ⟨.fsWrite, ascii "/w"⟩
    let answers (r : Response) : Check Unit := ⟨write, fun _ => .ok r⟩
    let p' := p.after [answers ⟨true, .once⟩, answers ⟨true, .session⟩, answers ⟨false, .session⟩]
    (p'.store.lookup write).map (·.approved) = some true ∧
      p'.store.lookup ⟨.fsWrite, ascii "/v"⟩ = none := by
  decide

end Permissions
end TigerClaw
