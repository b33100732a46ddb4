import TigerClaw.Basic
import Mathlib.Data.Int.Notation
import Mathlib.Data.List.Basic

/-!
# The instances table

`src/db/instances_repo.zig`, over a table with the primary key `id` and a unique index on the
token hashes that are set (`src/db/migrations.zig`).  Every call takes the lock of the database,
so it is one step on the table; a call that fails leaves it as it was.  Times are nanoseconds.
-/

namespace TigerClaw
namespace Instances

inductive Kind where
  | tui
  | web
  | cli
  | other
  deriving DecidableEq

def Kind.toString : Kind → Bytes
  | .tui => ascii "tui"
  | .web => ascii "web"
  | .cli => ascii "cli"
  | .other => ascii "other"

structure Record where
  id : Bytes
  kind : Kind
  name : Bytes := []
  agentId : Bytes := []
  sessionId : Bytes := []
  heartbeatIntervalMs : UInt32 := 0
  connectedAtNs : ℤ
  lastHeartbeatAtNs : ℤ
  evictedAtNs : ℤ := 0
  deriving DecidableEq

/-- A row of the table: a record and its `token_hash`, which is empty until it is set. -/
structure Row extends Record where
  tokenHash : Bytes := []

abbrev Table : Type := List Row

/-- A constraint of the table is violated, or the database failed. -/
inductive DbError where
  | sqlite

namespace Table

/-- The row with an id. -/
def row (table : Table) (id : Bytes) : Option Row := table.find? fun r => r.id == id

/-- Rewrite the rows with an id. -/
def updateWhere (table : Table) (id : Bytes) (f : Row → Row) : Table :=
  table.map fun r => if r.id = id then f r else r

def insert (table : Table) (rec : Record) : Except DbError Table :=
  if table.any fun r => r.id == rec.id then .error .sqlite
  else .ok (table ++ [{ toRecord := rec }])

/-- Stamp the token hash.  `false` if the id is unknown. -/
def setTokenHash (table : Table) (id tokenHash : Bytes) : Except DbError (Bool × Table) :=
  let known := table.any fun r => r.id == id
  if known && tokenHash != [] && table.any fun r => r.id != id && r.tokenHash == tokenHash then
    .error .sqlite
  else .ok (known, table.updateWhere id fun r => { r with tokenHash := tokenHash })

/-- `none` if there is no row, and empty if the row has no token. -/
def tokenHashFor (table : Table) (id : Bytes) : Option Bytes :=
  (table.row id).map Row.tokenHash

/-- `false` if the id is unknown. -/
def heartbeat (table : Table) (id : Bytes) (nowNs : ℤ) : Bool × Table :=
  (table.any fun r => r.id == id,
    table.updateWhere id fun r => { r with lastHeartbeatAtNs := nowNs, evictedAtNs := 0 })

def delete (table : Table) (id : Bytes) : Table := table.filter fun r => r.id != id

/-- The `WHERE` clause of `evictExpired`. -/
def Expired (nowNs graceNs : ℤ) (r : Row) : Prop :=
  r.evictedAtNs = 0 ∧ 0 < r.heartbeatIntervalMs.toNat ∧ r.lastHeartbeatAtNs + graceNs < nowNs

instance (nowNs graceNs : ℤ) : DecidablePred (Expired nowNs graceNs) := fun _ =>
  inferInstanceAs (Decidable (_ ∧ _ ∧ _))

/-- Evict the rows whose heartbeat is older than `graceNs`. -/
def evictExpired (table : Table) (nowNs graceNs : ℤ) : Table :=
  table.map fun r => if Expired nowNs graceNs r then { r with evictedAtNs := nowNs } else r

/-- Delete the rows that were evicted more than `purgeAfterNs` ago. -/
def purgeEvicted (table : Table) (nowNs purgeAfterNs : ℤ) : Table :=
  table.filter fun r => !decide (0 < r.evictedAtNs ∧ r.evictedAtNs + purgeAfterNs < nowNs)

theorem row_eq_some {table : Table} {id : Bytes} {r : Row} (h : table.row id = some r) :
    r ∈ table ∧ r.id = id :=
  ⟨List.mem_of_find?_eq_some h, by simpa using List.find?_some h⟩

theorem mem_updateWhere {table : Table} {id : Bytes} {f : Row → Row} {r : Row} :
    r ∈ table.updateWhere id f ↔ ∃ r₀ ∈ table, (if r₀.id = id then f r₀ else r₀) = r :=
  List.mem_map

/-- Rewriting rows does not change which row has an id. -/
theorem row_updateWhere (table : Table) (id : Bytes) {f : Row → Row} (hf : ∀ r, (f r).id = r.id) :
    (table.updateWhere id f).row id = (table.row id).map f := by
  have hid : ((fun r : Row => r.id == id) ∘ fun r => if r.id = id then f r else r)
      = fun r => r.id == id := by
    funext r
    simp only [Function.comp]
    split <;> simp [hf]
  rw [row, updateWhere, List.find?_map, hid, row]
  cases h : table.find? fun r => r.id == id with
  | none => rfl
  | some r => exact congrArg some (if_pos (row_eq_some h).2)

/-- After it the row of the id, if there is one, has the hash. -/
theorem setTokenHash_eq_ok {table table' : Table} {id tokenHash : Bytes} {known : Bool}
    (h : table.setTokenHash id tokenHash = .ok (known, table')) :
    table' = table.updateWhere id (fun r => { r with tokenHash := tokenHash }) ∧
      table'.tokenHashFor id = if (table.row id).isSome then some tokenHash else none := by
  rw [setTokenHash] at h
  split at h
  · cases h
  · obtain ⟨-, rfl⟩ := Prod.mk.inj (Except.ok.inj h)
    refine ⟨rfl, ?_⟩
    have hrow := row_updateWhere table id (f := fun r => { r with tokenHash := tokenHash })
      fun _ => rfl
    rw [tokenHashFor, hrow]
    cases table.row id <;> rfl

/-- Every row has its id and its token hash from a row of another table. -/
def Inherits (table' table : Table) : Prop :=
  ∀ r ∈ table', ∃ r₀ ∈ table, r₀.id = r.id ∧ r₀.tokenHash = r.tokenHash

theorem inherits_heartbeat (table : Table) (id : Bytes) (nowNs : ℤ) :
    Inherits (table.heartbeat id nowNs).2 table := by
  intro r hr
  obtain ⟨r₀, hr₀, rfl⟩ := List.mem_map.mp hr
  refine ⟨r₀, hr₀, ?_⟩
  split <;> exact ⟨rfl, rfl⟩

theorem inherits_delete (table : Table) (id : Bytes) : Inherits (table.delete id) table :=
  fun r hr => ⟨r, (List.mem_filter.mp hr).1, rfl, rfl⟩

theorem inherits_evictExpired (table : Table) (nowNs graceNs : ℤ) :
    Inherits (table.evictExpired nowNs graceNs) table := by
  intro r hr
  obtain ⟨r₀, hr₀, rfl⟩ := List.mem_map.mp hr
  refine ⟨r₀, hr₀, ?_⟩
  split <;> exact ⟨rfl, rfl⟩

theorem inherits_purgeEvicted (table : Table) (nowNs purgeAfterNs : ℤ) :
    Inherits (table.purgeEvicted nowNs purgeAfterNs) table :=
  fun r hr => ⟨r, (List.mem_filter.mp hr).1, rfl, rfl⟩

theorem insert_eq_ok {table table' : Table} {rec : Record} :
    table.insert rec = .ok table' ↔
      (∀ r ∈ table, r.id ≠ rec.id) ∧ table' = table ++ [{ toRecord := rec }] := by
  rw [insert]
  split
  · rename_i hany
    obtain ⟨r, hr, hid⟩ := List.any_eq_true.mp hany
    simp only [reduceCtorEq, false_iff]
    exact fun h => h.1 r hr (beq_iff_eq.mp hid)
  · rename_i hnone
    rw [Except.ok.injEq, eq_comm]
    refine (and_iff_right fun r hr hid => hnone ?_).symm
    exact List.any_eq_true.mpr ⟨r, hr, beq_iff_eq.mpr hid⟩

end Table
end Instances
end TigerClaw
