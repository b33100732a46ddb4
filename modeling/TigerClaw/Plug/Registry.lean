import TigerClaw.Library.Checked
import TigerClaw.Plug.Lifecycle

/-!
# The capability registry

`src/registry.zig`, and `installSnapshot` of `src/lifecycle.zig`.  A snapshot is a table from
capabilities to buckets of entries.  The lifecycle walks the plugs in start order, checks each
capability they provide, and has the registry swap in a snapshot of the entries.

* `PlugBundle`: a plug with what the registry reads of it.
* `buildSnapshot`: counts the entries of every bucket, then fills the buckets.
  `buildSnapshot_eq`: no write is outside its bucket, none is missing, and the order is kept.
* `Scan.check`: one turn of the checking loop.  `Admitted`: what the loop knows.
* `Installable`: the versions are current and nobody shares with an exclusive plug.
* `installSnapshot_spec`: it succeeds exactly then, and a failure leaves the registry alone.
-/

namespace TigerClaw
namespace Plug

/-- How the registry stores the entries of a plug. -/
inductive Slot where
  | exclusive
  | exclusiveWithFallback
  | shared
  deriving DecidableEq

/-- `*anyopaque`. -/
abbrev Address : Type := ℕ

/-- A plug with what the registry reads of it. -/
structure PlugBundle extends PlugHandle where
  slot : Slot
  vtableVersion : UInt16 := 1
  impl : Address

/-- The version of each capability's vtable. -/
def currentVtableVersion : Capability → UInt16
  | .persona => 1
  | .pairing => 1
  | .channel => 1
  | .providers => 1
  | .planner => 1
  | .memory => 1
  | .supervisor => 1
  | .scheduler => 1
  | .guardrails => 1
  | .tools => 1
  | .auditor => 1
  | .clock => 1
  | .meter => 1
  | .telemetry => 1
  | .waiter => 1
  | .hookBus => 1
  | .contextEngine => 1
  | .contextContributor => 1

/-! ## Snapshots -/

structure Entry where
  capability : Capability
  plugId : Bytes
  vtableVer : UInt16
  impl : Address

/-- One bucket for every capability. -/
structure Snapshot where
  entries : Capability → List Entry

/-- The array `counts`. -/
def countEntries (entries : List Entry) : Capability → ℕ :=
  entries.foldl
    (fun counts e => Function.update counts e.capability (counts e.capability + 1)) fun _ => 0

/-- `bucket[fill[i]] = e` and `fill[i] += 1`.  A bucket is filled from the front, so its filled
part is a list and `fill[i]` is the length of that list. -/
def fillBuckets {ε : Type} (counts : Capability → ℕ) :
    List Entry → (Capability → List Entry) → Outcome ε (Capability → List Entry)
  | [], buckets => .ok buckets
  | e :: entries, buckets =>
    if (buckets e.capability).length < counts e.capability then
      fillBuckets counts entries
        (Function.update buckets e.capability (buckets e.capability ++ [e]))
    else .trap .bounds

def buildSnapshot {ε : Type} (entries : List Entry) : Outcome ε Snapshot :=
  if entries.length = 0 then .ok ⟨fun _ => []⟩
  else
    fillBuckets (countEntries entries) entries (fun _ => []) >>= fun buckets => .ok ⟨buckets⟩

/-- The entries of one bucket. -/
def bucket (entries : List Entry) (cap : Capability) : List Entry :=
  entries.filter fun e => e.capability == cap

theorem bucket_append (xs ys : List Entry) (cap : Capability) :
    bucket (xs ++ ys) cap = bucket xs cap ++ bucket ys cap :=
  List.filter_append xs ys

theorem update_bucket (entries : List Entry) (e : Entry) :
    Function.update (bucket entries) e.capability (bucket entries e.capability ++ [e])
      = bucket (entries ++ [e]) := by
  funext cap
  rw [bucket_append]
  by_cases hcap : cap = e.capability
  · subst hcap
    simp [bucket]
  · rw [Function.update_of_ne hcap]
    simp [bucket, Ne.symm hcap]

/-- The counts are the sizes that the buckets will have. -/
theorem countEntries_eq (entries : List Entry) (cap : Capability) :
    countEntries entries cap = (bucket entries cap).length := by
  have hfold (more : List Entry) : ∀ done : List Entry,
      more.foldl (fun counts e => Function.update counts e.capability (counts e.capability + 1))
        (fun cap => (bucket done cap).length) = fun cap => (bucket (done ++ more) cap).length := by
    induction more with
    | nil => exact fun done => by rw [List.append_nil]; rfl
    | cons e more ih =>
      intro done
      have hupdate : Function.update (fun cap => (bucket done cap).length) e.capability
          ((bucket done e.capability).length + 1)
            = fun cap => (bucket (done ++ [e]) cap).length := by
        funext cap
        rw [← update_bucket]
        by_cases hcap : cap = e.capability
        · subst hcap
          simp
        · rw [Function.update_of_ne hcap, Function.update_of_ne hcap]
      rw [List.foldl_cons, hupdate, ih, List.append_assoc, List.singleton_append]
  exact congrFun (hfold entries []) cap

/-- The filling loop, behind the entries `done`. -/
theorem fillBuckets_eq {ε : Type} (entries more : List Entry) :
    ∀ done, entries = done ++ more →
      fillBuckets (countEntries entries) more (bucket done)
        = (.ok (bucket entries) : Outcome ε (Capability → List Entry)) := by
  induction more with
  | nil =>
    intro done heq
    rw [heq, List.append_nil, fillBuckets]
  | cons e more ih =>
    intro done heq
    have hroom : (bucket done e.capability).length < countEntries entries e.capability := by
      rw [countEntries_eq, heq, bucket_append, List.length_append]
      simp [bucket]
    rw [fillBuckets, if_pos hroom, update_bucket]
    exact ih (done ++ [e]) (by rw [heq, List.append_assoc, List.singleton_append])

/-- **Every bucket is filled to its size, in order.** -/
theorem buildSnapshot_eq {ε : Type} (entries : List Entry) :
    buildSnapshot entries = (.ok ⟨bucket entries⟩ : Outcome ε Snapshot) := by
  rw [buildSnapshot]
  split
  · rename_i hnil
    rw [List.length_eq_zero_iff.mp hnil]
    rfl
  · have hfill : fillBuckets (countEntries entries) entries (bucket []) =
        (.ok (bucket entries) : Outcome ε _) := fillBuckets_eq entries entries [] rfl
    change (fillBuckets _ entries (bucket []) >>= _) = _
    rw [hfill, Outcome.ok_bind]

/-- The registry, as one writer and its readers see it one after the other. -/
structure Registry where
  snapshot : Snapshot

namespace Registry

def swap (_self : Registry) (newSnap : Snapshot) : Registry := { snapshot := newSnap }

end Registry

/-! ## Installing a snapshot -/

inductive InstallSnapshotError where
  | vtableVersionMismatch
  | exclusiveSlotConflict

/-- The handles of the bundles. -/
abbrev handles (bundles : List PlugBundle) : List PlugHandle :=
  bundles.map PlugBundle.toPlugHandle

/-- The position of a bundle. -/
abbrev BundleIndex (bundles : List PlugBundle) : Type := PlugIndex (handles bundles)

variable {bundles : List PlugBundle}

/-- `self.plugs[i]`. -/
def bundle (i : BundleIndex bundles) : PlugBundle :=
  bundles.get (i.cast (by rw [List.length_map, List.length_map]))

/-- What a plug provides. -/
def provides (i : BundleIndex bundles) : List Capability := (bundle i).manifest.provides

/-- The entry of a plug for a capability. -/
def entryOf (i : BundleIndex bundles) (cap : Capability) : Entry where
  capability := cap
  plugId := (bundle i).manifest.id
  vtableVer := (bundle i).vtableVersion
  impl := (bundle i).impl

/-- The arrays of the checking loop, and the part of `entries` that is filled. -/
structure Scan where
  occupied : Capability → Bool := fun _ => false
  exclusiveOwner : Capability → Option Bytes := fun _ => none
  entries : List Entry := []

/-- One turn of the inner loop. -/
def Scan.check (scan : Scan) (i : BundleIndex bundles) (cap : Capability) :
    Outcome InstallSnapshotError Scan :=
  if (bundle i).vtableVersion ≠ currentVtableVersion cap then .error .vtableVersionMismatch
  else if (bundle i).slot = .exclusive ∧ scan.occupied cap then .error .exclusiveSlotConflict
  else if (bundle i).slot ≠ .exclusive ∧ (scan.exclusiveOwner cap).isSome then
    .error .exclusiveSlotConflict
  else .ok
    { occupied := Function.update scan.occupied cap true
      exclusiveOwner :=
        if (bundle i).slot = .exclusive then
          Function.update scan.exclusiveOwner cap (some (bundle i).manifest.id)
        else scan.exclusiveOwner
      entries := scan.entries ++ [entryOf i cap] }

/-- The inner loop, over what one plug provides. -/
def Scan.checkAll (scan : Scan) (i : BundleIndex bundles) :
    List Capability → Outcome InstallSnapshotError Scan
  | [] => .ok scan
  | cap :: caps => scan.check i cap >>= fun scan => scan.checkAll i caps

/-- The outer loop, over the plugs in start order. -/
def Scan.checkPlugs (scan : Scan) :
    List (BundleIndex bundles) → Outcome InstallSnapshotError Scan
  | [] => .ok scan
  | i :: order => scan.checkAll i (provides i) >>= fun scan => scan.checkPlugs order

/-- `installSnapshot`, on a lifecycle in the phase it asserts: how it returns, and the registry
after it. -/
def Lifecycle.installSnapshot (lc : Lifecycle (handles bundles)) (reg : Registry) :
    Option (Outcome InstallSnapshotError Unit × Registry) :=
  if lc.phase = .started then
    match Scan.checkPlugs {} lc.order >>= fun scan => buildSnapshot scan.entries with
    | .ok snap => some (.ok (), reg.swap snap)
    | .error e => some (.error e, reg)
    | .trap t => some (.trap t, reg)
  else none

/-! ## What the loop checks -/

/-- A capability provided by a plug. -/
abbrev Provision (bundles : List PlugBundle) : Type := BundleIndex bundles × Capability

/-- What the plugs provide, one after the other. -/
def provisions (order : List (BundleIndex bundles)) : List (Provision bundles) :=
  order.flatMap fun i => (provides i).map fun cap => (i, cap)

namespace Provision

/-- The plug was built against the current vtable. -/
def Current (p : Provision bundles) : Prop :=
  (bundle p.1).vtableVersion = currentVtableVersion p.2

def Exclusive (p : Provision bundles) : Prop := (bundle p.1).slot = .exclusive

/-- Two provisions of one capability are compatible if neither is exclusive. -/
def Compatible (p q : Provision bundles) : Prop :=
  p.2 = q.2 → ¬ p.Exclusive ∧ ¬ q.Exclusive

theorem compatible_symm {p q : Provision bundles} (h : p.Compatible q) : q.Compatible p :=
  fun heq => (h heq.symm).symm

end Provision

/-- What the loop knows after the provisions `done`. -/
structure Admitted (scan : Scan) (done : List (Provision bundles)) : Prop where
  occupied : ∀ cap, scan.occupied cap = true ↔ ∃ p ∈ done, p.2 = cap
  exclusiveOwner : ∀ cap, (scan.exclusiveOwner cap).isSome ↔ ∃ p ∈ done, p.2 = cap ∧ p.Exclusive
  entries : scan.entries = done.map fun p => entryOf p.1 p.2

/-- The provisions may be installed together. -/
structure Agree (done : List (Provision bundles)) : Prop where
  current : ∀ p ∈ done, p.Current
  compatible : done.Pairwise Provision.Compatible

theorem admitted_nil : Admitted {} ([] : List (Provision bundles)) where
  occupied := by simp
  exclusiveOwner := by simp
  entries := rfl

theorem agree_nil : Agree ([] : List (Provision bundles)) where
  current := fun _ h => absurd h List.not_mem_nil
  compatible := List.Pairwise.nil

theorem agree_concat {done : List (Provision bundles)} {p : Provision bundles} :
    Agree (done ++ [p]) ↔ Agree done ∧ p.Current ∧ ∀ q ∈ done, q.Compatible p := by
  constructor
  · rintro ⟨hcur, hcomp⟩
    obtain ⟨hdone, -, hp⟩ := List.pairwise_append.mp hcomp
    exact ⟨⟨fun q hq => hcur q (List.mem_append_left _ hq), hdone⟩, hcur p (by simp),
      fun q hq => hp q hq p List.mem_cons_self⟩
  · rintro ⟨⟨hcur, hcomp⟩, hp, hall⟩
    refine ⟨fun q hq => ?_, List.pairwise_append.mpr ⟨hcomp, List.pairwise_singleton _ _, ?_⟩⟩
    · rcases List.mem_append.mp hq with hq | hq
      · exact hcur q hq
      · exact List.mem_singleton.mp hq ▸ hp
    · intro q hq r hr
      exact List.mem_singleton.mp hr ▸ hall q hq

theorem agree_of_append {xs ys : List (Provision bundles)} (h : Agree (xs ++ ys)) : Agree xs where
  current := fun p hp => h.current p (List.mem_append_left _ hp)
  compatible := (List.pairwise_append.mp h.compatible).1

/-- **One turn of the loop**: it goes on exactly if the provision agrees with those before. -/
theorem Admitted.check {scan : Scan} {done : List (Provision bundles)} (h : Admitted scan done)
    (hdone : Agree done) (i : BundleIndex bundles) (cap : Capability) :
    (∃ scan', scan.check i cap = .ok scan' ∧ Admitted scan' (done ++ [(i, cap)]) ∧
        Agree (done ++ [(i, cap)])) ∨
      (∃ e, scan.check i cap = .error e) ∧ ¬ Agree (done ++ [(i, cap)]) := by
  rw [Scan.check]
  split
  · rename_i hversion
    exact .inr ⟨⟨_, rfl⟩, fun hagree => hversion (agree_concat.mp hagree).2.1⟩
  rename_i hversion
  split
  · rename_i hexcl
    obtain ⟨p, hp, hcap⟩ := (h.occupied cap).mp hexcl.2
    exact .inr ⟨⟨_, rfl⟩, fun hagree => ((agree_concat.mp hagree).2.2 p hp hcap).2 hexcl.1⟩
  rename_i hfree
  split
  · rename_i hshared
    obtain ⟨p, hp, hcap, hexcl⟩ := (h.exclusiveOwner cap).mp hshared.2
    exact .inr ⟨⟨_, rfl⟩, fun hagree => ((agree_concat.mp hagree).2.2 p hp hcap).1 hexcl⟩
  rename_i hnoOwner
  refine .inl ⟨_, rfl, ⟨fun c => ?_, fun c => ?_, ?_⟩, agree_concat.mpr ⟨hdone, ?_, ?_⟩⟩
  · dsimp only
    by_cases hc : c = cap
    · subst hc
      simp
    · rw [Function.update_of_ne hc, h.occupied]
      simp [Ne.symm hc]
  · dsimp only
    by_cases hexcl : (bundle i).slot = .exclusive
    · rw [if_pos hexcl]
      by_cases hc : c = cap
      · subst hc
        simp [Provision.Exclusive, hexcl]
      · rw [Function.update_of_ne hc, h.exclusiveOwner]
        simp [Ne.symm hc]
    · rw [if_neg hexcl, h.exclusiveOwner]
      simp [Provision.Exclusive, hexcl]
  · rw [h.entries, List.map_append]
    rfl
  · exact not_not.mp hversion
  · intro q hq hcap
    constructor
    · intro hexcl
      by_cases hslot : (bundle i).slot = .exclusive
      · exact hfree ⟨hslot, (h.occupied cap).mpr ⟨q, hq, hcap⟩⟩
      · exact hnoOwner ⟨hslot, (h.exclusiveOwner cap).mpr ⟨q, hq, hcap, hexcl⟩⟩
    · intro hslot
      exact hfree ⟨hslot, (h.occupied cap).mpr ⟨q, hq, hcap⟩⟩

/-- The inner loop. -/
theorem Admitted.checkAll {scan : Scan} {done : List (Provision bundles)} (h : Admitted scan done)
    (hdone : Agree done) (i : BundleIndex bundles) (caps : List Capability) :
    (∃ scan', scan.checkAll i caps = .ok scan' ∧
        Admitted scan' (done ++ caps.map fun cap => (i, cap)) ∧
        Agree (done ++ caps.map fun cap => (i, cap))) ∨
      (∃ e, scan.checkAll i caps = .error e) ∧
        ∀ more, ¬ Agree (done ++ (caps.map fun cap => (i, cap)) ++ more) := by
  induction caps generalizing scan done with
  | nil => exact .inl ⟨scan, rfl, by simpa using h, by simpa using hdone⟩
  | cons cap caps ih =>
    rcases h.check hdone i cap with ⟨scan₁, hok, h₁, hagree⟩ | ⟨⟨e, herr⟩, hnot⟩
    · rcases ih h₁ hagree with ⟨scan₂, hok₂, h₂, hagree₂⟩ | ⟨⟨e, herr₂⟩, hnot₂⟩
      · refine .inl ⟨scan₂, ?_, by simpa using h₂, by simpa using hagree₂⟩
        rw [Scan.checkAll, hok, Outcome.ok_bind, hok₂]
      · refine .inr ⟨⟨e, ?_⟩, by simpa using hnot₂⟩
        rw [Scan.checkAll, hok, Outcome.ok_bind, herr₂]
    · refine .inr ⟨⟨e, by rw [Scan.checkAll, herr, Outcome.error_bind]⟩, fun more hagree => ?_⟩
      have hsplit : Agree (done ++ [(i, cap)] ++ ((caps.map fun cap => (i, cap)) ++ more)) := by
        simpa using hagree
      exact hnot (agree_of_append hsplit)

/-- The outer loop. -/
theorem Admitted.checkPlugs {scan : Scan} {done : List (Provision bundles)}
    (h : Admitted scan done) (hdone : Agree done) (order : List (BundleIndex bundles)) :
    (∃ scan', scan.checkPlugs order = .ok scan' ∧ Admitted scan' (done ++ provisions order) ∧
        Agree (done ++ provisions order)) ∨
      (∃ e, scan.checkPlugs order = .error e) ∧ ¬ Agree (done ++ provisions order) := by
  induction order generalizing scan done with
  | nil => exact .inl ⟨scan, rfl, by simpa [provisions] using h, by simpa [provisions] using hdone⟩
  | cons i order ih =>
    have happend : done ++ provisions (i :: order)
        = done ++ ((provides i).map fun cap => (i, cap)) ++ provisions order := by
      rw [provisions, List.flatMap_cons, ← List.append_assoc]
      rfl
    rw [happend]
    rcases h.checkAll hdone i (provides i) with ⟨scan₁, hok, h₁, hagree⟩ | ⟨⟨e, herr⟩, hnot⟩
    · rcases ih h₁ hagree with ⟨scan₂, hok₂, h₂, hagree₂⟩ | ⟨⟨e, herr₂⟩, hnot₂⟩
      · exact .inl ⟨scan₂, by rw [Scan.checkPlugs, hok, Outcome.ok_bind, hok₂], h₂, hagree₂⟩
      · exact .inr ⟨⟨e, by rw [Scan.checkPlugs, hok, Outcome.ok_bind, herr₂]⟩, hnot₂⟩
    · exact .inr ⟨⟨e, by rw [Scan.checkPlugs, herr, Outcome.error_bind]⟩, hnot _⟩

/-! ## What the loop checks, in terms of the plugs -/

variable (bundles) in
/-- **What a snapshot may contain**: every provided capability at its current version, and no
capability of an exclusive plug provided by another. -/
structure Installable : Prop where
  current : ∀ (i : BundleIndex bundles), ∀ cap ∈ provides i,
    (bundle i).vtableVersion = currentVtableVersion cap
  exclusive : ∀ i j : BundleIndex bundles, i ≠ j → (bundle i).slot = .exclusive →
    ∀ cap ∈ provides i, cap ∉ provides j

theorem mem_provisions {order : List (BundleIndex bundles)} {p : Provision bundles} :
    p ∈ provisions order ↔ p.1 ∈ order ∧ p.2 ∈ provides p.1 := by
  obtain ⟨i, cap⟩ := p
  simp only [provisions, List.mem_flatMap, List.mem_map, Prod.mk.injEq]
  constructor
  · rintro ⟨j, hj, c, hc, rfl, rfl⟩
    exact ⟨hj, hc⟩
  · rintro ⟨hi, hcap⟩
    exact ⟨i, hi, cap, hcap, rfl, rfl⟩

theorem nodup_provisions {order : List (BundleIndex bundles)} (horder : order.Nodup)
    (hprovides : ∀ i : BundleIndex bundles, (provides i).Nodup) : (provisions order).Nodup := by
  refine List.nodup_flatMap.mpr ⟨fun i _ => ?_, ?_⟩
  · exact (hprovides i).map fun c c' h => (Prod.mk.inj h).2
  · refine horder.imp fun {i j} hij => ?_
    rw [Function.onFun, List.disjoint_left]
    intro p hp hq
    obtain ⟨c, -, rfl⟩ := List.mem_map.mp hp
    obtain ⟨c', -, heq⟩ := List.mem_map.mp hq
    exact hij (Prod.mk.inj heq).1.symm

/-- **The loop admits all plugs exactly if they are installable together.** -/
theorem agree_iff_installable {order : List (BundleIndex bundles)} (horder : order.Nodup)
    (hall : ∀ i, i ∈ order) (hprovides : ∀ i : BundleIndex bundles, (provides i).Nodup) :
    Agree (provisions order) ↔ Installable bundles := by
  constructor
  · rintro ⟨hcur, hcomp⟩
    have hmem {i : BundleIndex bundles} {cap : Capability} (h : cap ∈ provides i) :
        (i, cap) ∈ provisions order := mem_provisions.mpr ⟨hall i, h⟩
    have : Std.Symm (@Provision.Compatible bundles) :=
      ⟨fun _ _ h => Provision.compatible_symm h⟩
    refine ⟨fun i cap hcap => hcur _ (hmem hcap), fun i j hij hexcl cap hi hj => ?_⟩
    have hne : (i, cap) ≠ (j, cap) := fun h => hij (Prod.mk.inj h).1
    exact ((hcomp.forall (hmem hi) (hmem hj) hne) rfl).1 hexcl
  · rintro ⟨hcur, hexcl⟩
    refine ⟨fun p hp => hcur p.1 p.2 (mem_provisions.mp hp).2,
      (nodup_provisions horder hprovides).pairwise_of_forall_ne fun p hp q hq hne heq => ?_⟩
    have hpq : p.1 ≠ q.1 := fun h => hne (Prod.ext h heq)
    have hp := (mem_provisions.mp hp).2
    have hq := (mem_provisions.mp hq).2
    exact ⟨fun h => hexcl p.1 q.1 hpq h p.2 hp (heq ▸ hq),
      fun h => hexcl q.1 p.1 hpq.symm h q.2 hq (heq ▸ hp)⟩

/-- The bucket of a capability, plug by plug. -/
theorem bucket_provisions (order : List (BundleIndex bundles)) (cap : Capability)
    (hprovides : ∀ i : BundleIndex bundles, (provides i).Nodup) :
    bucket ((provisions order).map fun p => entryOf p.1 p.2) cap
      = (order.filter fun i => (provides i).contains cap).map fun i => entryOf i cap := by
  induction order with
  | nil => rfl
  | cons i order ih =>
    have hone : bucket (((provides i).map fun cap => (i, cap)).map fun p => entryOf p.1 p.2) cap
        = if (provides i).contains cap then [entryOf i cap] else [] := by
      rw [bucket, List.map_map, List.filter_map]
      have hcap : (provides i).filter ((fun e => e.capability == cap) ∘
          ((fun p : Provision bundles => entryOf p.1 p.2) ∘ fun cap => (i, cap)))
            = (provides i).filter fun c => c == cap := rfl
      rw [hcap, List.filter_beq]
      by_cases hmem : cap ∈ provides i
      · rw [List.count_eq_one_of_mem (hprovides i) hmem, if_pos (by simpa using hmem)]
        rfl
      · rw [List.count_eq_zero_of_not_mem hmem, if_neg (by simpa using hmem)]
        rfl
    have happend : provisions (i :: order)
        = ((provides i).map fun cap => (i, cap)) ++ provisions order := rfl
    rw [happend, List.map_append, bucket_append, ih, hone, List.filter_cons]
    split <;> rfl

/-! ## Reachable lifecycles -/

/-- No call changes the start order. -/
theorem order_step {plugs : List PlugHandle} {s s' : Session plugs} {c : Call plugs}
    (h : s.step c = some s') : s'.lc.order = s.lc.order := by
  cases c with
  | start results =>
    rw [Session.step] at h
    split at h
    · obtain rfl := Option.some.inj h
      simp only
      split <;> rfl
    · cases h
  | drain deadlineMs results =>
    rw [Session.step] at h
    split at h
    · obtain rfl := Option.some.inj h
      rfl
    · cases h
  | stop =>
    rw [Session.step] at h
    split at h
    · obtain rfl := Option.some.inj h
      rfl
    · cases h

/-- The start order of a lifecycle that was initialised is a permutation of the plugs. -/
theorem perm_of_run {plugs : List PlugHandle} {lc : Lifecycle plugs}
    (hinit : Lifecycle.init plugs = .ok lc) {calls : List (Call plugs)} {s : Session plugs}
    (hrun : StepMachine.run Session.step ⟨lc, []⟩ calls = some s) :
    s.lc.order.Perm (List.finRange _) := by
  have hstart : lc.order.Perm (List.finRange _) := by
    rw [Lifecycle.init] at hinit
    cases hsort : topoSort (plugs.map PlugHandle.manifest) with
    | error e => rw [hsort] at hinit; cases hinit
    | ok order =>
      rw [hsort] at hinit
      obtain rfl := Except.ok.inj hinit
      exact perm_of_topoSort hsort
  exact StepMachine.invariant_run
    (I := fun s : Session plugs => s.lc.order.Perm (List.finRange _))
    (fun s c s' hs h => order_step h ▸ hs) hstart hrun

/-- **Installing a snapshot is all or nothing.**  On a started lifecycle it succeeds exactly if
the plugs are installable together; any failure leaves the registry as it was; and after a success
the bucket of a capability holds the plugs that provide it, once each and in start order, so that
of an exclusive plug nothing but its own entry. -/
theorem installSnapshot_spec (bundles : List PlugBundle) {lc : Lifecycle (handles bundles)}
    (hinit : Lifecycle.init (handles bundles) = .ok lc) {calls : List (Call (handles bundles))}
    {s : Session (handles bundles)}
    (hrun : StepMachine.run Session.step ⟨lc, []⟩ calls = some s)
    (hphase : s.lc.phase = .started)
    (hprovides : ∀ i : BundleIndex bundles, (provides i).Nodup) (reg : Registry) :
    ∃ result reg', s.lc.installSnapshot reg = some (result, reg') ∧
      (result = .ok () ↔ Installable bundles) ∧
      (result ≠ .ok () → reg' = reg) ∧
      (result = .ok () →
        s.lc.order.Perm (List.finRange _) ∧
        (∀ cap, reg'.snapshot.entries cap =
          (s.lc.order.filter fun i => (provides i).contains cap).map fun i => entryOf i cap) ∧
        ∀ i : BundleIndex bundles, (bundle i).slot = .exclusive → ∀ cap ∈ provides i,
          reg'.snapshot.entries cap = [entryOf i cap]) := by
  have hperm := perm_of_run hinit hrun
  have hnodup : s.lc.order.Nodup := hperm.nodup_iff.mpr (List.nodup_finRange _)
  have hall : ∀ i, i ∈ s.lc.order := fun i => hperm.mem_iff.mpr (List.mem_finRange i)
  rw [Lifecycle.installSnapshot, if_pos hphase,
    ← agree_iff_installable hnodup hall hprovides]
  rcases admitted_nil.checkPlugs agree_nil s.lc.order with
    ⟨scan, hok, h, hagree⟩ | ⟨⟨e, herr⟩, hnot⟩
  · rw [List.nil_append] at h hagree
    rw [hok, Outcome.ok_bind, buildSnapshot_eq]
    refine ⟨_, _, rfl, iff_of_true rfl hagree, fun hne => absurd rfl hne, fun _ => ⟨hperm, ?_⟩⟩
    have hbucket (cap : Capability) : bucket scan.entries cap =
        (s.lc.order.filter fun i => (provides i).contains cap).map fun i => entryOf i cap := by
      rw [h.entries, bucket_provisions s.lc.order cap hprovides]
    refine ⟨hbucket, fun i hexcl cap hcap => (hbucket cap).trans ?_⟩
    -- nobody else provides it, so it is left over alone
    have hinstall := (agree_iff_installable hnodup hall hprovides).mp hagree
    have honly : (s.lc.order.filter fun j => (provides j).contains cap) = [i] := by
      have heq : (s.lc.order.filter fun j => (provides j).contains cap)
          = s.lc.order.filter fun j => j == i := by
        refine List.filter_congr fun j _ => ?_
        rw [Bool.eq_iff_iff, List.contains_iff_mem, beq_iff_eq]
        constructor
        · intro hj
          by_contra hne
          exact hinstall.exclusive i j (Ne.symm hne) hexcl cap hcap hj
        · exact fun hj => hj ▸ hcap
      rw [heq, List.filter_beq, List.count_eq_one_of_mem hnodup (hall i)]
      rfl
    rw [honly]
    rfl
  · rw [List.nil_append] at hnot
    rw [herr, Outcome.error_bind]
    exact ⟨_, _, rfl, iff_of_false (fun h => by cases h) hnot, fun _ => rfl, fun h => by cases h⟩

/-- A clock with its slot to itself, and a meter that needs it. -/
def exclusiveClock : List PlugBundle :=
  [{ manifest := { id := ascii "meter", provides := [.meter], deps := [⟨.clock, .requires⟩] },
     vtable := {}, slot := .shared, impl := 0 },
   { manifest := { id := ascii "clock", provides := [.clock, .telemetry], deps := [] },
     vtable := {}, slot := .exclusive, impl := 1 }]

/-- Started, the two are installed. -/
theorem installSnapshot_exclusiveClock :
    ∃ lc s reg', Lifecycle.init (handles exclusiveClock) = .ok lc ∧
      StepMachine.run Session.step ⟨lc, []⟩ [.start fun _ => .ok ()] = some s ∧
      s.lc.installSnapshot ⟨⟨fun _ => []⟩⟩ = some (.ok (), reg') ∧
      reg'.snapshot.entries .clock = [⟨.clock, ascii "clock", 1, 1⟩] := by
  obtain ⟨lc, s, hinit, hrun, hphase, reg₁, hok⟩ : ∃ lc s,
      Lifecycle.init (handles exclusiveClock) = .ok lc ∧
      StepMachine.run Session.step ⟨lc, []⟩ [.start fun _ => .ok ()] = some s ∧
      s.lc.phase = .started ∧
      ∃ reg₁, s.lc.installSnapshot ⟨⟨fun _ => []⟩⟩ = some (.ok (), reg₁) :=
    ⟨_, _, rfl, rfl, rfl, _, rfl⟩
  have hprovides : ∀ i : BundleIndex exclusiveClock, (provides i).Nodup := by decide
  obtain ⟨result, reg', hinstall, -, -, hbuckets⟩ :=
    installSnapshot_spec exclusiveClock hinit hrun hphase hprovides ⟨⟨fun _ => []⟩⟩
  obtain ⟨rfl, rfl⟩ := Prod.mk.inj (Option.some.inj (hok.symm.trans hinstall))
  have hclock := (hbuckets rfl).2.2 (1 : Fin 2) (by decide) .clock (by decide)
  exact ⟨lc, s, reg₁, hinit, hrun, hok, hclock⟩

end Plug
end TigerClaw
