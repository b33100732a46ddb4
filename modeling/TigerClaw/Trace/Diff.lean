import TigerClaw.Basic
import TigerClaw.Library.Occurrence

/-!
# Comparing two traces

`diff` of `src/trace/diff.zig` looks for each expected span a span of the actual trace with its
kind, its name and its parent that has not been taken yet.

* `aligned`, `findMatch`, `diff`: the code.
* `spanKey`: what two spans have to share.
* `missing`, `extra`, `changed`: what the report has to name, by the order of occurrence.
* `diff_eq`: the report is exactly that.
* `diff_exact`: its entries by kind, what an empty report means, and the report of the two traces
  the other way around.
-/

namespace TigerClaw
namespace Trace

/-- The `Kind` of a span. -/
inductive SpanKind where
  | root
  | turn
  | providerRequest
  | toolCall
  | contextOp
  | custom
  deriving DecidableEq

/-- The `Status` of a span. -/
inductive Status where
  | ok
  | err
  | cancelled
  deriving DecidableEq

/-- What `diff` reads of a `Span`. -/
structure Span where
  parentId : Option Bytes := none
  kind : SpanKind
  name : Bytes
  status : Status := .ok

/-- `@tagName`. -/
def SpanKind.tagName : SpanKind → Bytes
  | .root => ascii "root"
  | .turn => ascii "turn"
  | .providerRequest => ascii "provider_request"
  | .toolCall => ascii "tool_call"
  | .contextOp => ascii "context_op"
  | .custom => ascii "custom"

def Status.tagName : Status → Bytes
  | .ok => ascii "ok"
  | .err => ascii "err"
  | .cancelled => ascii "cancelled"

inductive EntryKind where
  | missing
  | extra
  | status
  deriving DecidableEq

structure Entry where
  kind : EntryKind
  spanName : Bytes
  detail : Bytes

/-- `optEqlStr`. -/
def optEqlStr : Option Bytes → Option Bytes → Bool
  | none, none => true
  | some a, some b => a == b
  | _, _ => false

/-- The comparisons of `findMatch`. -/
def aligned (s want : Span) : Bool :=
  s.kind == want.kind && s.name == want.name && optEqlStr s.parentId want.parentId

/-- `findMatch`. -/
def findMatch (want : Span) : List Span → List Bool → Option ℕ
  | s :: actual, consumed :: flags =>
    if !consumed && aligned s want then some 0 else (findMatch want actual flags).map (· + 1)
  | _, _ => none

/-- `for (expected) |want|`: the entries, and the flags behind the loop. -/
def diffExpected (actual : List Span) : List Span → List Bool → List Entry × List Bool
  | [], consumed => ([], consumed)
  | want :: expected, consumed =>
    match findMatch want actual consumed with
    | none =>
      let entry := { kind := .missing, spanName := want.name, detail := want.kind.tagName }
      (entry :: (diffExpected actual expected consumed).1,
        (diffExpected actual expected consumed).2)
    | some i =>
      let rest := diffExpected actual expected (consumed.set i true)
      match actual[i]? with
      | none => rest
      | some got =>
        if got.status ≠ want.status then
          ({ kind := .status, spanName := want.name
             detail := ascii "expected " ++ want.status.tagName ++ ascii ", got " ++
              got.status.tagName } :: rest.1, rest.2)
        else rest

/-- `for (actual, 0..) |extra, i|`. -/
def diffActual : List Span → List Bool → List Entry
  | extra :: actual, consumed :: flags =>
    if consumed then diffActual actual flags
    else { kind := .extra, spanName := extra.name, detail := extra.kind.tagName } ::
      diffActual actual flags
  | _, _ => []

/-- `diff`, where no allocation fails: the entries of the report. -/
def diff (expected actual : List Span) : List Entry :=
  let walked := diffExpected actual expected (actual.map fun _ => false)
  walked.1 ++ diffActual actual walked.2

/-! ## The report that is due -/

open Occurrence (occurrences pairs unpaired)

/-- What two spans share when they align. -/
def spanKey (s : Span) : SpanKind × Bytes × Option Bytes := (s.kind, s.name, s.parentId)

def missingEntry (s : Span) : Entry where
  kind := .missing
  spanName := s.name
  detail := s.kind.tagName

def extraEntry (s : Span) : Entry where
  kind := .extra
  spanName := s.name
  detail := s.kind.tagName

/-- The entry for an expected span and its partner. -/
def statusEntry (p : Span × Span) : Entry where
  kind := .status
  spanName := p.1.name
  detail := ascii "expected " ++ p.1.status.tagName ++ ascii ", got " ++ p.2.status.tagName

/-- The pairs with different status. -/
def changed (expected actual : List Span) : List (Span × Span) :=
  (pairs spanKey expected actual).filter fun p => p.2.status ≠ p.1.status

/-- The entries of one kind. -/
def entriesOf (kind : EntryKind) (report : List Entry) : List Entry :=
  report.filter fun e => e.kind = kind

/-! ## The search is the pairing -/

theorem optEqlStr_iff (a b : Option Bytes) : optEqlStr a b = true ↔ a = b := by
  cases a <;> cases b <;> simp [optEqlStr]

theorem aligned_iff (s want : Span) : aligned s want = true ↔ spanKey s = spanKey want := by
  simp only [aligned, spanKey, Bool.and_eq_true, beq_iff_eq, optEqlStr_iff, Prod.mk.injEq,
    and_assoc]

theorem findMatch_eq (want : Span) (actual : List Span) (consumed : List Bool) :
    findMatch want actual consumed =
      Occurrence.firstFree spanKey (spanKey want) actual consumed := by
  induction actual generalizing consumed with
  | nil => rfl
  | cons s actual ih =>
    cases consumed with
    | nil => rfl
    | cons c consumed =>
      rw [findMatch, Occurrence.firstFree, ih]
      simp only [Bool.and_eq_true, Bool.not_eq_true', aligned_iff]

/-- What is reported of an expected span, by its partner. -/
def entryFor (want : Span) : Option Span → Option Entry
  | none => some (missingEntry want)
  | some got => if got.status ≠ want.status then some (statusEntry (want, got)) else none

/-- The loop reports what the search finds. -/
theorem diffExpected_eq (actual expected : List Span) (consumed : List Bool) :
    diffExpected actual expected consumed =
      ((expected.zip (Occurrence.greedy spanKey actual expected consumed).1).filterMap
          fun p => entryFor p.1 p.2,
        (Occurrence.greedy spanKey actual expected consumed).2) := by
  induction expected generalizing consumed with
  | nil => rfl
  | cons want expected ih =>
    rw [diffExpected, Occurrence.greedy, findMatch_eq]
    cases hfirst : Occurrence.firstFree spanKey (spanKey want) actual consumed with
    | none =>
      dsimp only
      rw [ih, List.zip_cons_cons, List.filterMap_cons]
      rfl
    | some i =>
      have hi := Occurrence.firstFree_lt hfirst
      have hget := List.getElem?_eq_getElem hi
      dsimp only
      rw [hget, ih, List.zip_cons_cons, List.filterMap_cons, entryFor]
      dsimp only
      by_cases hstatus : actual[i].status ≠ want.status
      · rw [if_pos hstatus, if_pos hstatus]
        rfl
      · rw [if_neg hstatus, if_neg hstatus]

/-- The second loop reports what has no partner. -/
theorem diffActual_eq (actual expected seen : List Span) :
    diffActual actual (Occurrence.marked spanKey expected seen actual) =
      ((Occurrence.ranked spanKey seen actual).filterMap fun a =>
        if (Occurrence.partner spanKey expected a).isNone then some a.1 else none).map
          extraEntry := by
  induction actual generalizing seen with
  | nil => rfl
  | cons s actual ih =>
    rw [Occurrence.marked_cons, diffActual, Occurrence.ranked, List.filterMap_cons,
      Occurrence.partner, ih]
    dsimp only
    rcases Nat.lt_or_ge (occurrences spanKey (spanKey s) seen).length
      (occurrences spanKey (spanKey s) expected).length with hlt | hge
    · rw [decide_eq_true hlt, if_pos rfl, List.getElem?_eq_getElem hlt]
      rfl
    · rw [decide_eq_false (Nat.not_lt.mpr hge), if_neg Bool.false_ne_true,
        List.getElem?_eq_none hge]
      rfl

/-- **The report**: for every expected span what its partner makes due, and the actual spans without
a partner. -/
theorem diff_eq (expected actual : List Span) :
    diff expected actual =
      ((Occurrence.ranked spanKey [] expected).filterMap fun a =>
        entryFor a.1 (Occurrence.partner spanKey actual a)) ++
      (unpaired spanKey actual expected).map extraEntry := by
  have hzip : expected.zip ((Occurrence.ranked spanKey [] expected).map
      (Occurrence.partner spanKey actual)) =
      (Occurrence.ranked spanKey [] expected).map fun a =>
        (a.1, Occurrence.partner spanKey actual a) := by
    have hmap : ((Occurrence.ranked spanKey [] expected).map Prod.fst).zip
        ((Occurrence.ranked spanKey [] expected).map (Occurrence.partner spanKey actual)) =
        (Occurrence.ranked spanKey [] expected).map fun a =>
          (a.1, Occurrence.partner spanKey actual a) := List.zip_map'
    rwa [Occurrence.map_fst_ranked] at hmap
  rw [diff, diffExpected_eq, Occurrence.greedy_eq, diffActual_eq, hzip, List.filterMap_map]
  rfl

/-! ## The entries by kind -/

theorem entriesOf_append (kind : EntryKind) (a b : List Entry) :
    entriesOf kind (a ++ b) = entriesOf kind a ++ entriesOf kind b := List.filter_append ..

/-- Entries of another kind do not count. -/
theorem entriesOf_map_of_ne {kind : EntryKind} {f : Span → Entry} (h : ∀ s, (f s).kind ≠ kind)
    (l : List Span) : entriesOf kind (l.map f) = [] := by
  rw [entriesOf, List.filter_eq_nil_iff]
  intro e he
  obtain ⟨s, _, rfl⟩ := List.mem_map.mp he
  rw [decide_eq_true_iff]
  exact h s

theorem entriesOf_missing (expected actual : List Span) :
    entriesOf .missing (diff expected actual) =
      (unpaired spanKey expected actual).map missingEntry := by
  have hextra : entriesOf .missing ((unpaired spanKey actual expected).map extraEntry) = [] :=
    entriesOf_map_of_ne (fun _ => by rintro ⟨⟩) _
  rw [diff_eq, entriesOf_append, hextra, List.append_nil, entriesOf, List.filter_filterMap,
    unpaired, List.map_filterMap]
  refine List.filterMap_congr fun a _ => ?_
  cases Occurrence.partner spanKey actual a with
  | none => rfl
  | some got =>
    rw [entryFor]
    split <;> rfl

theorem entriesOf_status (expected actual : List Span) :
    entriesOf .status (diff expected actual) = (changed expected actual).map statusEntry := by
  have hextra : entriesOf .status ((unpaired spanKey actual expected).map extraEntry) = [] :=
    entriesOf_map_of_ne (fun _ => by rintro ⟨⟩) _
  rw [diff_eq, entriesOf_append, hextra, List.append_nil, entriesOf, List.filter_filterMap, changed,
    pairs, List.filter_filterMap, List.map_filterMap]
  refine List.filterMap_congr fun a _ => ?_
  cases Occurrence.partner spanKey actual a with
  | none => rfl
  | some got =>
    rw [entryFor]
    by_cases hstatus : got.status = a.1.status
    · simp [hstatus, Option.filter]
    · simp [hstatus, Option.filter, statusEntry]

theorem entriesOf_extra (expected actual : List Span) :
    entriesOf .extra (diff expected actual) =
      (unpaired spanKey actual expected).map extraEntry := by
  have hfirst : entriesOf .extra ((Occurrence.ranked spanKey [] expected).filterMap fun a =>
      entryFor a.1 (Occurrence.partner spanKey actual a)) = [] := by
    rw [entriesOf, List.filter_eq_nil_iff]
    intro e he
    obtain ⟨a, _, hentry⟩ := List.mem_filterMap.mp he
    cases hpartner : Occurrence.partner spanKey actual a with
    | none =>
      rw [hpartner] at hentry
      obtain rfl := Option.some.inj hentry
      simp [missingEntry]
    | some got =>
      rw [hpartner, entryFor] at hentry
      split at hentry
      · obtain rfl := Option.some.inj hentry
        simp [statusEntry]
      · cases hentry
  rw [diff_eq, entriesOf_append, hfirst, List.nil_append, entriesOf, List.filter_eq_self]
  intro e he
  obtain ⟨s, _, rfl⟩ := List.mem_map.mp he
  rfl

/-- There are three kinds of entries. -/
theorem report_eq_nil_iff (report : List Entry) :
    report = [] ↔ entriesOf .missing report = [] ∧ entriesOf .extra report = [] ∧
      entriesOf .status report = [] := by
  refine ⟨fun h => by subst h; exact ⟨rfl, rfl, rfl⟩, fun ⟨hmissing, hextra, hstatus⟩ => ?_⟩
  rw [List.eq_nil_iff_forall_not_mem]
  intro e he
  simp only [entriesOf, List.filter_eq_nil_iff, decide_eq_true_iff] at hmissing hextra hstatus
  cases hkind : e.kind with
  | missing => exact hmissing e he hkind
  | extra => exact hextra e he hkind
  | status => exact hstatus e he hkind

/-- The report is empty exactly if the two traces have, for each key, the same sequence of
statuses. -/
theorem diff_eq_nil_iff (expected actual : List Span) :
    diff expected actual = [] ↔
      ∀ k, (occurrences spanKey k expected).map Span.status =
        (occurrences spanKey k actual).map Span.status := by
  rw [report_eq_nil_iff, entriesOf_missing, entriesOf_extra, entriesOf_status,
    List.map_eq_nil_iff, List.map_eq_nil_iff, List.map_eq_nil_iff, changed,
    List.filter_eq_nil_iff, ← Occurrence.unpaired_eq_nil_and_iff]
  refine and_congr_right fun _ => and_congr_right fun _ => forall_congr' fun p => ?_
  simp only [ne_eq, decide_not, Bool.not_eq_true', decide_eq_false_iff_not, not_not]
  exact imp_congr_right fun _ => eq_comm

/-- The pairs with different status, the other way around. -/
theorem changed_swap (expected actual : List Span) :
    (changed actual expected).Perm ((changed expected actual).map Prod.swap) := by
  have hpairs : (pairs spanKey actual expected).Perm
      ((pairs spanKey expected actual).map Prod.swap) := Occurrence.pairs_swap expected actual
  have hfilter : ((pairs spanKey expected actual).map Prod.swap).filter
      (fun p => p.2.status ≠ p.1.status) = (changed expected actual).map Prod.swap := by
    rw [List.filter_map, changed]
    refine congrArg (List.map Prod.swap) (List.filter_congr fun p _ => ?_)
    exact decide_eq_decide.mpr ne_comm
  rw [← hfilter]
  exact hpairs.filter _

/-- **The diff is exact.**  It has one missing entry for each expected span without a partner, one
extra entry for each actual one, and one status entry for each pair with different status; it is
empty exactly if the traces have the same sequence of statuses for each key; and the other way
around it has the missing and the extra spans exchanged, and the same pairs. -/
theorem diff_exact (expected actual : List Span) :
    (entriesOf .missing (diff expected actual) =
        (unpaired spanKey expected actual).map missingEntry ∧
      entriesOf .extra (diff expected actual) =
        (unpaired spanKey actual expected).map extraEntry ∧
      entriesOf .status (diff expected actual) = (changed expected actual).map statusEntry) ∧
    (diff expected actual = [] ↔
      ∀ k, (occurrences spanKey k expected).map Span.status =
        (occurrences spanKey k actual).map Span.status) ∧
    (entriesOf .missing (diff actual expected) =
        (unpaired spanKey actual expected).map missingEntry ∧
      entriesOf .extra (diff actual expected) =
        (unpaired spanKey expected actual).map extraEntry ∧
      (entriesOf .status (diff actual expected)).Perm
        ((changed expected actual).map fun p => statusEntry p.swap)) := by
  refine ⟨⟨entriesOf_missing _ _, entriesOf_extra _ _, entriesOf_status _ _⟩,
    diff_eq_nil_iff _ _, entriesOf_missing _ _, entriesOf_extra _ _, ?_⟩
  rw [entriesOf_status]
  have hperm := (changed_swap expected actual).map statusEntry
  rwa [List.map_map] at hperm

end Trace
end TigerClaw
