import TigerClaw.Instances.Auth
import TigerClaw.Library.StepMachine
import Mathlib.Data.List.Infix
import Mathlib.Logic.Function.Basic

/-!
# Registering instances and asking for their tokens

`instancesRegisterHandler`, `instancesHeartbeatHandler`, `instancesDeleteHandler` and
`resolveInstanceAuth` of `src/gateway/routes.zig`.  Requests of any clients are in flight at the
same time, each between two calls on the table; the calls of the sweeper come in between.  A call
may fail.

A registration inserts its row and then stamps the hash of its token on it.  Until then, and if
the stamping does not happen, the row has no token, and whoever asks is let in.

* `State.issuedFor`: which request inserted the latest row of an id, and the token it had drawn.
  `State.breaches`: the promises that have been broken.  Both are for statements only.
* `Guarded`: the stamping fails only where the row is gone and succeeds only where it is the
  request's own; a row is asked for its token only after the stamping; no two tokens presented for
  one row have the same digest.
* `protected_iff`: a run breaks no promise exactly if its steps are guarded.
-/

namespace TigerClaw
namespace Instances
namespace Registration

/-- The body of a registration. -/
structure RegisterBody where
  kind : Kind
  name : Bytes := []
  agentId : Bytes := []
  sessionId : Bytes := []
  heartbeatIntervalMs : UInt32 := 0
  deriving DecidableEq

/-- What a request asks to do with an instance. -/
inductive Op where
  | heartbeat
  | delete
  deriving DecidableEq

inductive Answer where
  | created (id token : Bytes)
  | noContent
  | badRequest
  | notFound
  | unauthorized
  | internalServerError
  deriving DecidableEq

/-- Where a request is. -/
inductive Stage where
  | unsent
  /-- A registration in front of `insert`. -/
  | inserting (rec : Record) (token : Bytes)
  /-- A registration in front of `setTokenHash`. -/
  | stamping (id token : Bytes)
  /-- A request in front of `resolveInstanceAuth`. -/
  | resolving (op : Op) (id : Bytes) (authHeader : Option Bytes)
  /-- A request that has passed it. -/
  | acting (op : Op) (id : Bytes)
  | answered (answer : Answer)
  deriving DecidableEq

/-- The request that inserted a row, and the token it had drawn. -/
structure Issue where
  request : ℕ
  token : Bytes
  deriving DecidableEq

/-- A promise that is broken. -/
inductive Breach where
  /-- A request passed `resolveInstanceAuth` without the token issued for the row. -/
  | passedWithoutToken
  /-- A registration answered with an error and left its row. -/
  | errorLeftRow
  /-- A registration answered 201, and its row with the hash of the token is not there. -/
  | createdUnprotected

structure State where
  table : Table := []
  stage : ℕ → Stage := fun _ => .unsent
  issuedFor : Bytes → Option Issue := fun _ => none
  breaches : List Breach := []

namespace State

def goto (s : State) (r : ℕ) (stage : Stage) : State :=
  { s with stage := Function.update s.stage r stage }

def answer (s : State) (r : ℕ) (a : Answer) : State := s.goto r (.answered a)

/-- Record a breach. -/
def blame (s : State) (broken : Bool) (breach : Breach) : State :=
  if broken then { s with breaches := s.breaches ++ [breach] } else s

/-- Request `r` was the last to insert a row for `id`. -/
def issuedBy (s : State) (r : ℕ) (id token : Bytes) : Bool :=
  decide (s.issuedFor id = some ⟨r, token⟩)

/-- The row that request `r` inserted for `id` is in the table. -/
def ownRow (s : State) (r : ℕ) (id token : Bytes) : Bool :=
  s.issuedBy r id token && (s.table.row id).isSome

/-- The header presents the token issued for the latest row of `id`. -/
def carriesToken (s : State) (id : Bytes) (authHeader : Option Bytes) : Bool :=
  (s.issuedFor id).any fun issue => authHeader == some (bearer issue.token)

end State

variable (blake3 : Bytes → Bytes32)

/-- `resolveInstanceAuth`: pass, or the answer of the handler. -/
def resolveInstanceAuth (table : Table) (authHeader : Option Bytes) (id : Bytes) :
    Except Answer Unit :=
  match table.tokenHashFor id with
  | none => .error .notFound
  | some storedHash =>
    match checkBearer blake3 authHeader storedHash with
    | .openAccess | .matched => .ok ()
    | .mismatch | .missing => .error .unauthorized

/-- A call on the table, with the chance that it fails. -/
def attempt {α : Type} (fault : Bool) (call : Except DbError α) : Except DbError α :=
  if fault then .error .sqlite else call

inductive Action where
  /-- A registration arrives and draws its id and its token.  There are no `args` if its body does
  not parse; `fault` if there is no entropy. -/
  | register (r : ℕ) (args : Option RegisterBody) (rawId : Bytes) (rawToken : Bytes32) (nowNs : ℤ)
      (fault : Bool)
  | insert (r : ℕ) (fault : Bool)
  | setTokenHash (r : ℕ) (fault : Bool)
  /-- A heartbeat or a delete arrives. -/
  | request (r : ℕ) (op : Op) (id : Bytes) (authHeader : Option Bytes)
  | resolve (r : ℕ) (fault : Bool)
  | act (r : ℕ) (nowNs : ℤ) (fault : Bool)
  | evictExpired (nowNs graceNs : ℤ)
  | purgeEvicted (nowNs purgeAfterNs : ℤ)

/-- The record that a registration inserts. -/
def recordOf (args : RegisterBody) (id : Bytes) (nowNs : ℤ) : Record where
  id := id
  kind := args.kind
  name := args.name
  agentId := args.agentId
  sessionId := args.sessionId
  heartbeatIntervalMs := args.heartbeatIntervalMs
  connectedAtNs := nowNs
  lastHeartbeatAtNs := nowNs

/-- The call in `instancesHeartbeatHandler` or `instancesDeleteHandler` behind the check. -/
def perform (op : Op) (table : Table) (id : Bytes) (nowNs : ℤ) : Answer × Table :=
  match op with
  | .heartbeat =>
    let (ok, table) := table.heartbeat id nowNs
    (if ok then .noContent else .notFound, table)
  | .delete => (.noContent, table.delete id)

open State

/-- One call of one request, or of the sweeper. -/
def step (s : State) : Action → Option State
  | .register r args rawId rawToken nowNs fault =>
    match s.stage r with
    | .unsent =>
      match args with
      | none => some (s.answer r .badRequest)
      | some args =>
        if fault then some (s.answer r .internalServerError)
        else some (s.goto r (.inserting
          (recordOf args (genInstanceId rawId args.kind.toString) nowNs) (generate rawToken)))
    | _ => none
  | .insert r fault =>
    match s.stage r with
    | .inserting rec token =>
      match attempt fault (s.table.insert rec) with
      | .error _ => some (s.answer r .internalServerError)
      | .ok table =>
        some ({ s with
          table := table
          issuedFor := Function.update s.issuedFor rec.id (some ⟨r, token⟩) }.goto r
            (.stamping rec.id token))
    | _ => none
  | .setTokenHash r fault =>
    match s.stage r with
    | .stamping id token =>
      match attempt fault (s.table.setTokenHash id (hash blake3 token)) with
      | .error _ =>
        some ((s.blame (s.ownRow r id token) .errorLeftRow).answer r .internalServerError)
      -- the result of the call is not looked at
      | .ok (_, table) =>
        some (({ s with table := table }.blame
          (!(s.issuedBy r id token && table.tokenHashFor id == some (hash blake3 token)))
          .createdUnprotected).answer r (.created id token))
    | _ => none
  | .request r op id authHeader =>
    match s.stage r with
    | .unsent => some (s.goto r (.resolving op id authHeader))
    | _ => none
  | .resolve r fault =>
    match s.stage r with
    | .resolving op id authHeader =>
      if fault then some (s.answer r .internalServerError)
      else match resolveInstanceAuth blake3 s.table authHeader id with
        | .error a => some (s.answer r a)
        | .ok () =>
          some ((s.blame (!s.carriesToken id authHeader) .passedWithoutToken).goto r
            (.acting op id))
    | _ => none
  | .act r nowNs fault =>
    match s.stage r with
    | .acting op id =>
      if fault then some (s.answer r .internalServerError)
      else
        let (a, table) := perform op s.table id nowNs
        some ({ s with table := table }.answer r a)
    | _ => none
  | .evictExpired nowNs graceNs =>
    some { s with table := s.table.evictExpired nowNs graceNs }
  | .purgeEvicted nowNs purgeAfterNs =>
    some { s with table := s.table.purgeEvicted nowNs purgeAfterNs }

/-! ## The condition -/

/-- **What keeps the promises.** -/
def Guarded (s : State) : Action → Prop
  | .setTokenHash r fault => ∀ id token, s.stage r = .stamping id token →
    ((∃ e, attempt fault (s.table.setTokenHash id (hash blake3 token)) = .error e) ↔
      ¬ s.ownRow r id token = true)
  | .resolve r fault => ∀ op id authHeader, s.stage r = .resolving op id authHeader →
    fault = false → ∀ row issue, s.table.row id = some row → s.issuedFor id = some issue →
      (row.tokenHash = [] → authHeader = some (bearer issue.token)) ∧
      ∀ presented, authHeader = some (bearer presented) → presented.length = tokenHexLen →
        hash blake3 presented = hash blake3 issue.token → presented = issue.token
  | _ => True

/-! ## What holds in every state -/

/-- Every row has been issued, and as long as no promise has been broken, it has no token hash or
that of the token it was issued for. -/
structure Sound (s : State) : Prop where
  issued : ∀ row ∈ s.table, (s.issuedFor row.id).isSome
  stamped : s.breaches = [] → ∀ row ∈ s.table, ∀ issue, s.issuedFor row.id = some issue →
    row.tokenHash = [] ∨ row.tokenHash = hash blake3 issue.token

theorem sound_start : Sound blake3 {} where
  issued := fun _ h => absurd h List.not_mem_nil
  stamped := fun _ _ h => absurd h List.not_mem_nil

variable {blake3}

theorem Sound.goto {s : State} (h : Sound blake3 s) (r : ℕ) (stage : Stage) :
    Sound blake3 (s.goto r stage) := ⟨h.issued, h.stamped⟩

theorem breaches_blame (s : State) (broken : Bool) (breach : Breach) :
    (s.blame broken breach).breaches = [] ↔ s.breaches = [] ∧ broken = false := by
  cases broken <;> simp [State.blame]

theorem Sound.blame {s : State} (h : Sound blake3 s) (broken : Bool) (breach : Breach) :
    Sound blake3 (s.blame broken breach) := by
  cases broken with
  | false => exact h
  | true => exact ⟨h.issued, fun hnone => by simp [State.blame] at hnone⟩

/-- A call that neither inserts nor stamps. -/
theorem Sound.inherit {s : State} (h : Sound blake3 s) {table : Table}
    (htable : Table.Inherits table s.table) : Sound blake3 { s with table := table } where
  issued := fun row hrow => by
    obtain ⟨row₀, hrow₀, hid, -⟩ := htable row hrow
    exact hid ▸ h.issued row₀ hrow₀
  stamped := fun hnone row hrow issue hissue => by
    obtain ⟨row₀, hrow₀, hid, hhash⟩ := htable row hrow
    exact hhash ▸ h.stamped hnone row₀ hrow₀ issue (hid ▸ hissue)

/-- A row is inserted without a token hash. -/
theorem Sound.insert {s : State} (h : Sound blake3 s) {rec : Record} {table : Table}
    (hinsert : s.table.insert rec = .ok table) (issue : Issue) :
    Sound blake3 { s with
      table := table
      issuedFor := Function.update s.issuedFor rec.id (some issue) } := by
  obtain ⟨hnew, rfl⟩ := Table.insert_eq_ok.mp hinsert
  refine ⟨fun row hrow => ?_, fun hnone row hrow issue' hissue => ?_⟩
  · rcases List.mem_append.mp hrow with hrow | hrow
    · change (Function.update s.issuedFor rec.id (some issue) row.id).isSome = true
      rw [Function.update_of_ne (hnew row hrow)]
      exact h.issued row hrow
    · obtain rfl := List.mem_singleton.mp hrow
      change (Function.update s.issuedFor rec.id (some issue) rec.id).isSome = true
      rw [Function.update_self]
      rfl
  · rcases List.mem_append.mp hrow with hrow | hrow
    · change Function.update s.issuedFor rec.id (some issue) row.id = some issue' at hissue
      rw [Function.update_of_ne (hnew row hrow)] at hissue
      exact h.stamped hnone row hrow issue' hissue
    · obtain rfl := List.mem_singleton.mp hrow
      exact .inl rfl

/-- The stamping of a row, where it breaks a promise if the row is another request's. -/
theorem Sound.stamp {s : State} (h : Sound blake3 s) {r : ℕ} {id token : Bytes} {table : Table}
    {known broken : Bool} {breach : Breach}
    (hset : s.table.setTokenHash id (hash blake3 token) = .ok (known, table))
    (hown : broken = false → s.issuedFor id = some ⟨r, token⟩) :
    Sound blake3 (({ s with table := table } : State).blame broken breach) := by
  obtain ⟨rfl, -⟩ := Table.setTokenHash_eq_ok hset
  have hissued : ∀ row ∈ s.table.updateWhere id fun row => { row with
      tokenHash := hash blake3 token }, (s.issuedFor row.id).isSome := by
    intro row hrow
    obtain ⟨row₀, hrow₀, rfl⟩ := Table.mem_updateWhere.mp hrow
    have hissued₀ := h.issued row₀ hrow₀
    split <;> exact hissued₀
  cases broken with
  | true => exact ⟨hissued, fun hnone => by simp [State.blame] at hnone⟩
  | false =>
    refine ⟨hissued, fun hnone row hrow issue hissue => ?_⟩
    obtain ⟨row₀, hrow₀, rfl⟩ := Table.mem_updateWhere.mp hrow
    by_cases hid : row₀.id = id
    · rw [if_pos hid] at hissue ⊢
      change s.issuedFor row₀.id = some issue at hissue
      rw [hid, hown rfl] at hissue
      obtain rfl := Option.some.inj hissue
      exact .inr rfl
    · rw [if_neg hid] at hissue ⊢
      exact h.stamped hnone row₀ hrow₀ issue hissue

/-! ## What a step does -/

theorem step_register {s s' : State} {r : ℕ} {args : Option RegisterBody} {rawId : Bytes}
    {rawToken : Bytes32} {nowNs : ℤ} {fault : Bool}
    (hstep : step blake3 s (.register r args rawId rawToken nowNs fault) = some s') :
    ∃ stage, s' = s.goto r stage := by
  simp only [step] at hstep
  split at hstep
  · split at hstep
    · exact ⟨_, (Option.some.inj hstep).symm⟩
    · split at hstep <;> exact ⟨_, (Option.some.inj hstep).symm⟩
  · cases hstep

theorem step_insert {s s' : State} {r : ℕ} {fault : Bool}
    (hstep : step blake3 s (.insert r fault) = some s') :
    (∃ stage, s' = s.goto r stage) ∨
      ∃ rec token table stage, s.table.insert rec = .ok table ∧ s' = ({ s with
        table := table
        issuedFor := Function.update s.issuedFor rec.id (some ⟨r, token⟩) } : State).goto r
          stage := by
  simp only [step] at hstep
  split at hstep
  · rename_i rec token hstage
    cases fault with
    | true => exact .inl ⟨_, (Option.some.inj hstep).symm⟩
    | false =>
      simp only [attempt, Bool.false_eq_true, if_false] at hstep
      split at hstep
      · exact .inl ⟨_, (Option.some.inj hstep).symm⟩
      · rename_i table hinsert
        exact .inr ⟨rec, token, table, _, hinsert, (Option.some.inj hstep).symm⟩
  · cases hstep

theorem step_request {s s' : State} {r : ℕ} {op : Op} {id : Bytes} {authHeader : Option Bytes}
    (hstep : step blake3 s (.request r op id authHeader) = some s') :
    ∃ stage, s' = s.goto r stage := by
  simp only [step] at hstep
  split at hstep
  · exact ⟨_, (Option.some.inj hstep).symm⟩
  · cases hstep

theorem step_act {s s' : State} {r : ℕ} {nowNs : ℤ} {fault : Bool}
    (hstep : step blake3 s (.act r nowNs fault) = some s') :
    ∃ table stage, Table.Inherits table s.table ∧
      s' = ({ s with table := table } : State).goto r stage := by
  simp only [step] at hstep
  split at hstep
  · rename_i op id hstage
    split at hstep
    · exact ⟨s.table, _, fun row hrow => ⟨row, hrow, rfl, rfl⟩, (Option.some.inj hstep).symm⟩
    · refine ⟨_, _, ?_, (Option.some.inj hstep).symm⟩
      cases op with
      | heartbeat => exact Table.inherits_heartbeat s.table id nowNs
      | delete => exact Table.inherits_delete s.table id
  · cases hstep

/-- **Every step keeps the invariant.** -/
theorem sound_step (s : State) (action : Action) (s' : State) (h : Sound blake3 s)
    (hstep : step blake3 s action = some s') : Sound blake3 s' := by
  cases action with
  | register r args rawId rawToken nowNs fault =>
    obtain ⟨stage, rfl⟩ := step_register hstep
    exact h.goto r stage
  | insert r fault =>
    rcases step_insert hstep with ⟨stage, rfl⟩ | ⟨rec, token, table, stage, hinsert, rfl⟩
    · exact h.goto r stage
    · exact (h.insert hinsert ⟨r, token⟩).goto r stage
  | setTokenHash r fault =>
    simp only [step] at hstep
    split at hstep
    · rename_i id token hstage
      cases fault with
      | true => exact Option.some.inj hstep ▸ (h.blame _ _).goto r _
      | false =>
        simp only [attempt, Bool.false_eq_true, if_false] at hstep
        split at hstep
        · exact Option.some.inj hstep ▸ (h.blame _ _).goto r _
        · rename_i known table hset
          refine Option.some.inj hstep ▸ (h.stamp (r := r) hset fun hkept => ?_).goto r _
          rw [Bool.not_eq_false', Bool.and_eq_true_iff] at hkept
          exact of_decide_eq_true hkept.1
    · cases hstep
  | request r op id authHeader =>
    obtain ⟨stage, rfl⟩ := step_request hstep
    exact h.goto r stage
  | resolve r fault =>
    simp only [step] at hstep
    split at hstep
    · split at hstep
      · exact Option.some.inj hstep ▸ h.goto r _
      · split at hstep
        · exact Option.some.inj hstep ▸ h.goto r _
        · exact Option.some.inj hstep ▸ (h.blame _ _).goto r _
    · cases hstep
  | act r nowNs fault =>
    obtain ⟨table, stage, hinherits, rfl⟩ := step_act hstep
    exact (h.inherit hinherits).goto r stage
  | evictExpired nowNs graceNs =>
    exact Option.some.inj hstep ▸ h.inherit (Table.inherits_evictExpired s.table nowNs graceNs)
  | purgeEvicted nowNs purgeAfterNs =>
    exact Option.some.inj hstep ▸ h.inherit (Table.inherits_purgeEvicted s.table nowNs purgeAfterNs)

/-! ## What a step breaks -/

variable (blake3) in
/-- **Who passes**: whoever asks for a row without a token hash, or presents a token with the
stored hash. -/
theorem resolveInstanceAuth_eq_ok_iff {table : Table} {authHeader : Option Bytes} {id : Bytes} :
    resolveInstanceAuth blake3 table authHeader id = .ok () ↔
      ∃ row, table.row id = some row ∧ (row.tokenHash = [] ∨
        ∃ presented, authHeader = some (bearer presented) ∧ presented.length = tokenHexLen ∧
          hash blake3 presented = row.tokenHash) := by
  rw [resolveInstanceAuth, Table.tokenHashFor]
  cases table.row id with
  | none => simp
  | some row =>
    simp only [Option.map_some, Option.some.injEq, exists_eq_left']
    by_cases hnil : row.tokenHash = []
    · rw [hnil]
      exact iff_of_true rfl (.inl rfl)
    · obtain ⟨hmatch, hclosed⟩ := checkBearer_match_iff blake3 authHeader hnil
      rw [or_iff_right hnil, ← hmatch]
      cases hcheck : checkBearer blake3 authHeader row.tokenHash with
      | openAccess => exact absurd hcheck hclosed
      | matched => simp
      | mismatch => simp
      | missing => simp

theorem bearer_injective {token token' : Bytes} (h : bearer token = bearer token') :
    token = token' := List.append_cancel_left h

/-- A stamping breaks a promise unless it fails exactly where the row is not there. -/
theorem breaches_setTokenHash {s s' : State} {r : ℕ} {fault : Bool} (hnone : s.breaches = [])
    (hstep : step blake3 s (.setTokenHash r fault) = some s') :
    s'.breaches = [] ↔ Guarded blake3 s (.setTokenHash r fault) := by
  simp only [step] at hstep
  split at hstep
  case h_2 => cases hstep
  case h_1 id token hstage =>
    have hguarded : Guarded blake3 s (.setTokenHash r fault) ↔
        ((∃ e, attempt fault (s.table.setTokenHash id (hash blake3 token)) = .error e) ↔
          ¬ s.ownRow r id token = true) := by
      constructor
      · exact fun h => h id token hstage
      · intro h id' token' hstage'
        obtain ⟨rfl, rfl⟩ := Stage.stamping.inj (hstage.symm.trans hstage')
        exact h
    rw [hguarded]
    split at hstep
    · rename_i e herror
      obtain rfl := Option.some.inj hstep
      have hfails : ∃ e', (.error e : Except DbError (Bool × Table)) = .error e' := ⟨e, rfl⟩
      rw [State.answer, State.goto, breaches_blame, and_iff_right hnone, herror,
        iff_true_left hfails]
      exact (Bool.not_eq_true _).symm.to_iff
    · rename_i known table hok
      obtain rfl := Option.some.inj hstep
      have hset : s.table.setTokenHash id (hash blake3 token) = .ok (known, table) := by
        cases fault with
        | true => cases hok
        | false => exact hok
      rw [State.answer, State.goto, breaches_blame, and_iff_right hnone, hok,
        (Table.setTokenHash_eq_ok hset).2]
      simp only [reduceCtorEq, exists_false, false_iff, not_not, State.ownRow]
      cases (s.table.row id).isSome <;> simp

variable (blake3) in
/-- What `Guarded` asks of a header: for a row without a token hash it has the token all the same,
and it has no other token of the same digest. -/
def Unforged (s : State) (id : Bytes) (authHeader : Option Bytes) : Prop :=
  ∀ row issue, s.table.row id = some row → s.issuedFor id = some issue →
    (row.tokenHash = [] → authHeader = some (bearer issue.token)) ∧
    ∀ presented, authHeader = some (bearer presented) → presented.length = tokenHexLen →
      hash blake3 presented = hash blake3 issue.token → presented = issue.token

/-- A header that is denied is unforged: it does not come to the row at all. -/
theorem Sound.unforged_of_denied {s : State} (h : Sound blake3 s) (hnone : s.breaches = [])
    {id : Bytes} {authHeader : Option Bytes}
    (hdenied : resolveInstanceAuth blake3 s.table authHeader id ≠ .ok ()) :
    Unforged blake3 s id authHeader := by
  rw [Ne, resolveInstanceAuth_eq_ok_iff] at hdenied
  intro row issue hrow hissue
  refine ⟨fun hnil => absurd ⟨row, hrow, .inl hnil⟩ hdenied,
    fun presented hheader hlength hhash => ?_⟩
  obtain ⟨hmem, rfl⟩ := Table.row_eq_some hrow
  rcases h.stamped hnone row hmem issue hissue with hnil | hstamped
  · exact absurd ⟨row, hrow, .inl hnil⟩ hdenied
  · exact absurd ⟨row, hrow, .inr ⟨presented, hheader, hlength, hhash.trans hstamped.symm⟩⟩ hdenied

/-- A header that passes carries the token exactly if it is unforged. -/
theorem Sound.carriesToken_iff {s : State} (h : Sound blake3 s) (hnone : s.breaches = [])
    {id : Bytes} {authHeader : Option Bytes}
    (hok : resolveInstanceAuth blake3 s.table authHeader id = .ok ()) :
    s.carriesToken id authHeader = true ↔ Unforged blake3 s id authHeader := by
  obtain ⟨row, hrow, hpass⟩ := (resolveInstanceAuth_eq_ok_iff blake3).mp hok
  obtain ⟨hmem, rfl⟩ := Table.row_eq_some hrow
  obtain ⟨issue, hissue⟩ := Option.isSome_iff_exists.mp (h.issued row hmem)
  rw [State.carriesToken, hissue, Option.any_some, beq_iff_eq]
  constructor
  · rintro rfl row' issue' hrow' hissue'
    obtain rfl := Option.some.inj (hissue.symm.trans hissue')
    exact ⟨fun _ => rfl, fun presented hheader _ _ =>
      bearer_injective (Option.some.inj hheader).symm⟩
  · intro hall
    obtain ⟨hopen, honly⟩ := hall row issue hrow hissue
    rcases hpass with hnil | ⟨presented, hheader, hlength, hhash⟩
    · exact hopen hnil
    rcases h.stamped hnone row hmem issue hissue with hnil | hstamped
    · exact hopen hnil
    · rw [hheader, honly presented hheader hlength (hhash.trans hstamped)]

/-- Letting a request pass breaks a promise unless it carries the token. -/
theorem breaches_resolve {s s' : State} {r : ℕ} {fault : Bool} (h : Sound blake3 s)
    (hnone : s.breaches = []) (hstep : step blake3 s (.resolve r fault) = some s') :
    s'.breaches = [] ↔ Guarded blake3 s (.resolve r fault) := by
  simp only [step] at hstep
  split at hstep
  case h_2 => cases hstep
  case h_1 op id authHeader hstage =>
    cases fault with
    | true =>
      obtain rfl := Option.some.inj hstep
      exact iff_of_true hnone fun _ _ _ _ hfault => absurd hfault (by decide)
    | false =>
      have hguarded : Guarded blake3 s (.resolve r false) ↔ Unforged blake3 s id authHeader := by
        constructor
        · exact fun h => h op id authHeader hstage rfl
        · intro h op' id' authHeader' hstage' _
          obtain ⟨rfl, rfl, rfl⟩ := Stage.resolving.inj (hstage.symm.trans hstage')
          exact h
      rw [hguarded]
      simp only [Bool.false_eq_true, if_false] at hstep
      split at hstep
      · rename_i a hdenied
        obtain rfl := Option.some.inj hstep
        exact iff_of_true hnone (h.unforged_of_denied hnone (by rw [hdenied]; exact nofun))
      · rename_i hok
        obtain rfl := Option.some.inj hstep
        rw [State.goto, breaches_blame, and_iff_right hnone, Bool.not_eq_false',
          h.carriesToken_iff hnone hok]

/-- **A step breaks a promise unless it is guarded.** -/
theorem breaches_step (s : State) (action : Action) (s' : State) (h : Sound blake3 s)
    (hnone : s.breaches = []) (hstep : step blake3 s action = some s') :
    s'.breaches = [] ↔ Guarded blake3 s action := by
  cases action with
  | setTokenHash r fault => exact breaches_setTokenHash hnone hstep
  | resolve r fault => exact breaches_resolve h hnone hstep
  | register r args rawId rawToken nowNs fault =>
    obtain ⟨stage, rfl⟩ := step_register hstep
    exact iff_of_true hnone trivial
  | insert r fault =>
    rcases step_insert hstep with ⟨stage, rfl⟩ | ⟨rec, token, table, stage, -, rfl⟩
    · exact iff_of_true hnone trivial
    · exact iff_of_true hnone trivial
  | request r op id authHeader =>
    obtain ⟨stage, rfl⟩ := step_request hstep
    exact iff_of_true hnone trivial
  | act r nowNs fault =>
    obtain ⟨table, stage, -, rfl⟩ := step_act hstep
    exact iff_of_true hnone trivial
  | evictExpired nowNs graceNs => exact iff_of_true (Option.some.inj hstep ▸ hnone) trivial
  | purgeEvicted nowNs purgeAfterNs => exact iff_of_true (Option.some.inj hstep ▸ hnone) trivial

variable (blake3)

/-- **When the instances are protected by their tokens**: no promise is broken in any state of a
run exactly if every step of the run is guarded. -/
theorem protected_iff {actions : List Action} {s : State}
    (hrun : StepMachine.run (step blake3) {} actions = some s) :
    (∀ before s', before <+: actions → StepMachine.run (step blake3) {} before = some s' →
      s'.breaches = []) ↔ StepMachine.Along (step blake3) (Guarded blake3) {} actions :=
  StepMachine.always_iff_along sound_step breaches_step (sound_start blake3) rfl hrun

/-- Thirty-two zero bytes. -/
def zeros : Bytes32 := ⟨List.replicate 32 0, rfl⟩

/-- The Blake3 digest of the token of `zeros`, sixty-four characters `0`. -/
def digestOfZeros : Bytes32 :=
  ⟨[142, 178, 85, 234, 36, 66, 189, 82, 156, 0, 65, 97, 134, 159, 0, 3,
    187, 87, 49, 214, 91, 124, 237, 233, 130, 141, 186, 92, 146, 160, 115, 67], rfl⟩

/-- A terminal registers. -/
def registration : List Action :=
  [.register 0 (some { kind := .tui }) [0, 0, 0, 0] zeros 1 false, .insert 0 false,
    .setTokenHash 0 false]

/-- Its row is asked for with its token, and without. -/
def requests (id : Bytes) : List Action :=
  [.request 1 .heartbeat id (some (bearer (generate zeros))), .resolve 1 false, .act 1 2 false,
    .request 2 .delete id none, .resolve 2 false]

/-- A registration succeeds; its token is let in, and the lack of one is not. -/
theorem protected_ownToken :
    (StepMachine.run (step fun _ => digestOfZeros) {}
        (registration ++ requests (ascii "tui-00000000"))).map
          (fun s => (s.stage 0, s.stage 1, s.stage 2)) =
      some (.answered (.created (ascii "tui-00000000") (generate zeros)), .answered .noContent,
        .answered .unauthorized) ∧
    StepMachine.Along (step fun _ => digestOfZeros) (Guarded fun _ => digestOfZeros) {}
      (registration ++ requests (ascii "tui-00000000")) := by
  refine ⟨by decide, (protected_iff _ rfl).mp fun before s' hbefore hrun => ?_⟩
  have hinits : ∀ before ∈ (registration ++ requests (ascii "tui-00000000")).inits,
      ((StepMachine.run (step fun _ => digestOfZeros) {} before).map State.breaches).getD [] = [] :=
    by decide
  have hnone := hinits before ((List.mem_inits _ _).mpr hbefore)
  rwa [hrun] at hnone

/-- The row is asked for in front of the stamping. -/
theorem not_protected_window : ¬ ∀ (blake3 : Bytes → Bytes32) (actions : List Action) (s : State),
    StepMachine.run (step blake3) {} actions = some s → s.breaches = [] := by
  intro h
  have hbreach := h (fun _ => digestOfZeros)
    [.register 0 (some { kind := .tui }) [0, 0, 0, 0] zeros 1 false, .insert 0 false,
      .request 1 .heartbeat (ascii "tui-00000000") none, .resolve 1 false] _ rfl
  revert hbreach
  decide

end Registration
end Instances
end TigerClaw
