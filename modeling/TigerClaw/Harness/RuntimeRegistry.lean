import TigerClaw.Basic
import Mathlib.Logic.Function.Basic
import Mathlib.Data.List.Nodup

/-!
# The runners of a runtime

`Runtime` of `src/harness/runtime.zig` keeps its runners in a map by name, and their names in the
order of registration.  `register` enters a runner in the map first and in the list then, and either
can run out of memory; `deinit` goes through the list.

* `Runtime.register`, `Runtime.deinit`: the code.
* `Roster`: registered runners, each under a name of its own.
* `holds_run`: whatever fails, the list has the names of the roster and the map its runners.
* `deinit_run`: what is torn down are the runners of the calls that succeeded, in their order.
* `run_sound_iff`: map and list go together, and calls that fail change nothing, exactly if the list
  can grow wherever a name is entered in the map.
-/

namespace TigerClaw
namespace Harness
namespace RuntimeRegistry

inductive RegisterError where
  | outOfMemory
  | duplicateName

structure Runtime (ρ : Type*) where
  runners : Bytes → Option ρ
  order : List Bytes

variable {ρ : Type*}

def Runtime.init : Runtime ρ where
  runners := fun _ => none
  order := []

/-- `getOrPut` of the map: whether the name was in it.  A map that cannot grow is looked up as
well. -/
def getOrPut (runners : Bytes → Option ρ) (name : Bytes) (growFails : Bool) :
    Except RegisterError Bool :=
  if (runners name).isSome then .ok true
  else if growFails then .error .outOfMemory
  else .ok false

/-- A call of `register`, with what fails in it. -/
structure Call (ρ : Type*) where
  name : Bytes
  runner : ρ
  putFails : Bool := false
  appendFails : Bool := false

/-- `register`. -/
def Runtime.register (self : Runtime ρ) (call : Call ρ) : Except RegisterError Unit × Runtime ρ :=
  match getOrPut self.runners call.name call.putFails with
  | .error err => (.error err, self)
  | .ok true => (.error .duplicateName, self)
  | .ok false =>
    let put := { self with runners := Function.update self.runners call.name (some call.runner) }
    if call.appendFails then (.error .outOfMemory, put)
    else (.ok (), { put with order := put.order ++ [call.name] })

/-- `deinit`: the runners that are torn down. -/
def Runtime.deinit (self : Runtime ρ) : List ρ := self.order.filterMap self.runners

/-- The runtime behind a run of calls. -/
def Runtime.run (self : Runtime ρ) : List (Call ρ) → Runtime ρ
  | [] => self
  | call :: calls => (self.register call).2.run calls

/-- The calls of a run that succeed. -/
def Runtime.registered (self : Runtime ρ) : List (Call ρ) → List (Call ρ)
  | [] => []
  | call :: calls =>
    match (self.register call).1 with
    | .ok _ => call :: (self.register call).2.registered calls
    | .error _ => (self.register call).2.registered calls

/-! ## What a run is to do -/

/-- The map has the names of the list, and the list has each of them once. -/
structure Runtime.Consistent (r : Runtime ρ) : Prop where
  keys : ∀ name, (r.runners name).isSome ↔ name ∈ r.order
  nodup : r.order.Nodup

/-- A call that fails leaves the runtime as it was. -/
def Runtime.RollsBack (self : Runtime ρ) (call : Call ρ) : Prop :=
  ∀ err, (self.register call).1 = .error err → (self.register call).2 = self

/-- The runtime is consistent all the time, and no call that fails changes it. -/
def Runtime.Steady (self : Runtime ρ) : List (Call ρ) → Prop
  | [] => self.Consistent
  | call :: calls => self.Consistent ∧ self.RollsBack call ∧ (self.register call).2.Steady calls

/-- A run does what it is to do. -/
structure Sound (calls : List (Call ρ)) : Prop where
  steady : Runtime.init.Steady calls
  tornDown : (Runtime.init.run calls).deinit = (Runtime.init.registered calls).map Call.runner

/-- Registered runners. -/
structure Roster (ρ : Type*) where
  entries : List (Bytes × ρ)
  nodup : (entries.map Prod.fst).Nodup

def Roster.empty : Roster ρ where
  entries := []
  nodup := List.nodup_nil

/-- One more, under a name that is free. -/
def Roster.enrol (self : Roster ρ) (name : Bytes) (runner : ρ)
    (h : name ∉ self.entries.map Prod.fst) : Roster ρ where
  entries := self.entries ++ [(name, runner)]
  nodup := by
    rw [List.map_append]
    refine self.nodup.append (List.nodup_singleton name) ?_
    rw [List.map_singleton, List.disjoint_singleton]
    exact h

/-- The list has the names of a roster, and the map has its runners. -/
structure Runtime.Holds (r : Runtime ρ) (roster : Roster ρ) : Prop where
  order : r.order = roster.entries.map Prod.fst
  runners : ∀ entry ∈ roster.entries, r.runners entry.1 = some entry.2

/-! ## A call -/

variable {s : Runtime ρ} {call : Call ρ}

/-- What `register` can do. -/
theorem register_cases (s : Runtime ρ) (call : Call ρ) :
    ((s.runners call.name).isSome ∧ s.register call = (.error .duplicateName, s)) ∨
    (s.runners call.name = none ∧ call.putFails = true ∧
      s.register call = (.error .outOfMemory, s)) ∨
    (s.runners call.name = none ∧ call.putFails = false ∧ call.appendFails = true ∧
      s.register call = (.error .outOfMemory,
        { s with runners := Function.update s.runners call.name (some call.runner) })) ∨
    (s.runners call.name = none ∧ call.putFails = false ∧ call.appendFails = false ∧
      s.register call = (.ok (),
        { runners := Function.update s.runners call.name (some call.runner)
          order := s.order ++ [call.name] })) := by
  unfold Runtime.register getOrPut
  cases hname : s.runners call.name with
  | some r => exact Or.inl ⟨rfl, rfl⟩
  | none =>
    right
    cases hput : call.putFails with
    | true => exact Or.inl ⟨rfl, rfl, rfl⟩
    | false =>
      right
      cases happend : call.appendFails with
      | true => exact Or.inl ⟨rfl, rfl, rfl, rfl⟩
      | false => exact Or.inr ⟨rfl, rfl, rfl, rfl⟩

/-- The call enters its name in the map, if it is not there yet. -/
def Call.Enters (self : Call ρ) (name : Bytes) : Prop := name = self.name ∧ self.putFails = false

/-- The list cannot grow when the map has. -/
def Call.Halved (self : Call ρ) : Prop := self.putFails = false ∧ self.appendFails = true

theorem isSome_update_iff (name : Bytes) :
    (Function.update s.runners call.name (some call.runner) name).isSome ↔
      (s.runners name).isSome ∨ name = call.name := by
  by_cases h : name = call.name
  · rw [h, Function.update_self]
    exact iff_of_true rfl (Or.inr rfl)
  · rw [Function.update_of_ne h, or_iff_left h]

/-- The names in the map behind a call. -/
theorem isSome_register_iff (s : Runtime ρ) (call : Call ρ) (name : Bytes) :
    ((s.register call).2.runners name).isSome ↔ (s.runners name).isSome ∨ call.Enters name := by
  obtain ⟨hname, h⟩ | ⟨-, hput, h⟩ | ⟨-, hput, -, h⟩ | ⟨-, hput, -, h⟩ := register_cases s call
  · rw [h]
    refine (or_iff_left_of_imp ?_).symm
    rintro ⟨rfl, -⟩
    exact hname
  · rw [h]
    refine (or_iff_left ?_).symm
    rintro ⟨-, hfalse⟩
    rw [hput] at hfalse
    cases hfalse
  · rw [h, Call.Enters, and_iff_left hput]
    exact isSome_update_iff name
  · rw [h, Call.Enters, and_iff_left hput]
    exact isSome_update_iff name

/-- A call keeps map and list together, unless the list cannot grow for a new name. -/
theorem consistent_register (hs : s.Consistent)
    (h : call.Halved → (s.runners call.name).isSome) :
    (s.register call).2.Consistent ∧ s.RollsBack call := by
  unfold Runtime.RollsBack
  obtain ⟨-, hc⟩ | ⟨-, -, hc⟩ | ⟨hname, hput, happend, -⟩ | ⟨hname, -, -, hc⟩ :=
    register_cases s call
  · rw [hc]
    exact ⟨hs, fun _ _ => rfl⟩
  · rw [hc]
    exact ⟨hs, fun _ _ => rfl⟩
  · have hsome := h ⟨hput, happend⟩
    rw [hname] at hsome
    cases hsome
  · rw [hc]
    refine ⟨⟨fun name => ?_, ?_⟩, fun err herr => by cases herr⟩
    · rw [isSome_update_iff, hs.keys, List.mem_append, List.mem_singleton]
    · refine hs.nodup.append (List.nodup_singleton _) ?_
      rw [List.disjoint_singleton, ← hs.keys, hname]
      exact Bool.false_ne_true

/-- Where it cannot, the call fails and the map is changed. -/
theorem not_rollsBack_of_halved (hname : s.runners call.name = none) (h : call.Halved) :
    ¬ s.RollsBack call := by
  intro hback
  obtain ⟨hsome, -⟩ | ⟨-, hput, -⟩ | ⟨-, -, -, hc⟩ | ⟨-, -, happend, -⟩ := register_cases s call
  · rw [hname] at hsome
    cases hsome
  · rw [h.1] at hput
    cases hput
  · have hsame : { s with runners := Function.update s.runners call.name (some call.runner) } = s :=
      by simpa [hc] using hback .outOfMemory (by rw [hc])
    have hlook := congrFun (congrArg Runtime.runners hsame) call.name
    rw [hname] at hlook
    simp at hlook
  · rw [h.2] at happend
    cases happend

/-! ## The roster -/

theorem holds_init : (Runtime.init : Runtime ρ).Holds .empty where
  order := rfl
  runners := fun _ h => absurd h List.not_mem_nil

theorem Runtime.Holds.isSome {roster : Roster ρ} (hs : s.Holds roster) {name : Bytes}
    (hname : name ∈ roster.entries.map Prod.fst) : (s.runners name).isSome := by
  obtain ⟨entry, hentry, rfl⟩ := List.mem_map.mp hname
  rw [hs.runners entry hentry]
  rfl

/-- A runner that is entered in the map under a new name leaves the roster there. -/
theorem Runtime.Holds.update {roster : Roster ρ} (hs : s.Holds roster)
    (hname : s.runners call.name = none) :
    ∀ entry ∈ roster.entries,
      Function.update s.runners call.name (some call.runner) entry.1 = some entry.2 := by
  intro entry hentry
  have hne : entry.1 ≠ call.name := by
    intro heq
    have hlook := hs.runners entry hentry
    rw [heq, hname] at hlook
    cases hlook
  rw [Function.update_of_ne hne]
  exact hs.runners entry hentry

/-- **A call keeps a roster**, or enrols its runner if it succeeds. -/
theorem holds_register {roster : Roster ρ} (hs : s.Holds roster) (call : Call ρ) :
    ((s.register call).1 = .ok () ∧ ∃ h : call.name ∉ roster.entries.map Prod.fst,
      (s.register call).2.Holds (roster.enrol call.name call.runner h)) ∨
    ((∃ err, (s.register call).1 = .error err) ∧ (s.register call).2.Holds roster) := by
  obtain ⟨-, hc⟩ | ⟨-, -, hc⟩ | ⟨hname, -, -, hc⟩ | ⟨hname, -, -, hc⟩ := register_cases s call
  · rw [hc]
    exact Or.inr ⟨⟨_, rfl⟩, hs⟩
  · rw [hc]
    exact Or.inr ⟨⟨_, rfl⟩, hs⟩
  · rw [hc]
    exact Or.inr ⟨⟨_, rfl⟩, hs.order, hs.update hname⟩
  · rw [hc]
    refine Or.inl ⟨rfl, ?_, ?_, ?_⟩
    · intro hmem
      have hsome := hs.isSome hmem
      rw [hname] at hsome
      cases hsome
    · show s.order ++ [call.name] = (roster.entries ++ [(call.name, call.runner)]).map Prod.fst
      rw [hs.order, List.map_append, List.map_singleton]
    · intro entry hentry
      rcases List.mem_append.mp hentry with hold | hnew
      · exact hs.update hname entry hold
      · rw [List.mem_singleton.mp hnew]
        exact Function.update_self ..

/-- **Whatever fails in a run**, the runtime holds the runners of the calls that succeeded. -/
theorem holds_run (calls : List (Call ρ)) {roster : Roster ρ} (hs : s.Holds roster) :
    ∃ roster', (s.run calls).Holds roster' ∧
      roster'.entries =
        roster.entries ++ (s.registered calls).map fun call => (call.name, call.runner) := by
  induction calls generalizing s roster with
  | nil => exact ⟨roster, hs, (List.append_nil _).symm⟩
  | cons call calls ih =>
    rw [Runtime.run, Runtime.registered]
    obtain ⟨hok, h, hs'⟩ | ⟨⟨err, herr⟩, hs'⟩ := holds_register hs call
    · obtain ⟨roster', hholds, hentries⟩ := ih hs'
      refine ⟨roster', hholds, ?_⟩
      rw [hentries, hok, List.map_cons]
      exact List.append_assoc ..
    · obtain ⟨roster', hholds, hentries⟩ := ih hs'
      refine ⟨roster', hholds, ?_⟩
      rw [hentries, herr]

theorem Runtime.Holds.deinit {roster : Roster ρ} (hs : s.Holds roster) :
    s.deinit = roster.entries.map Prod.snd := by
  unfold Runtime.deinit
  rw [hs.order, List.filterMap_map, ← List.filterMap_eq_map]
  exact List.filterMap_congr hs.runners

/-- **What is torn down** are the runners of the calls that succeeded, in their order. -/
theorem deinit_run (calls : List (Call ρ)) :
    (Runtime.init.run calls).deinit = (Runtime.init.registered calls).map Call.runner := by
  obtain ⟨roster, hholds, hentries⟩ := holds_run calls holds_init
  rw [hholds.deinit, hentries]
  show (((Runtime.init.registered calls).map _).map Prod.snd) = _
  rw [List.map_map]
  rfl

/-! ## The calls of a run -/

/-- What holds of the elements of a list and what is before them. -/
theorem forall_split_cons_iff {α : Type*} {P : List α → α → Prop} {a : α} {l : List α} :
    (∀ before x after, a :: l = before ++ x :: after → P before x) ↔
      P [] a ∧ ∀ before x after, l = before ++ x :: after → P (a :: before) x := by
  constructor
  · intro h
    refine ⟨h [] a l rfl, ?_⟩
    rintro before x after rfl
    exact h (a :: before) x after rfl
  · rintro ⟨hhead, htail⟩ before x after hsplit
    cases before with
    | nil =>
      obtain ⟨rfl, -⟩ := List.cons.inj hsplit
      exact hhead
    | cons b before =>
      obtain ⟨rfl, hrest⟩ := List.cons.inj hsplit
      exact htail before x after hrest

theorem steady_iff (calls : List (Call ρ)) (hs : s.Consistent) :
    s.Steady calls ↔ ∀ before call after, calls = before ++ call :: after → call.Halved →
      (s.runners call.name).isSome ∨ ∃ earlier ∈ before, earlier.Enters call.name := by
  induction calls generalizing s with
  | nil => exact iff_of_true hs fun before call after h => by simp at h
  | cons call calls ih =>
    have hsplit := @forall_split_cons_iff (Call ρ)
      (fun before c => c.Halved →
        (s.runners c.name).isSome ∨ ∃ earlier ∈ before, earlier.Enters c.name) call calls
    rw [Runtime.Steady, and_iff_right hs, hsplit]
    by_cases hcall : call.Halved → (s.runners call.name).isSome
    · obtain ⟨hs', hback⟩ := consistent_register hs hcall
      rw [and_iff_right hback, and_iff_right fun h => Or.inl (hcall h), ih hs']
      simp only [isSome_register_iff, List.exists_mem_cons_iff, or_assoc]
    · push Not at hcall
      obtain ⟨hhalved, hname⟩ := hcall
      refine iff_of_false (fun h => ?_) fun h => ?_
      · have hnone : s.runners call.name = none := by simpa using hname
        exact not_rollsBack_of_halved hnone hhalved h.1
      · rcases h.1 hhalved with hsome | ⟨earlier, hmem, -⟩
        · exact hname hsome
        · exact absurd hmem List.not_mem_nil

theorem consistent_init : (Runtime.init : Runtime ρ).Consistent where
  keys := fun _ => iff_of_false Bool.false_ne_true List.not_mem_nil
  nodup := List.nodup_nil

/-- **A run does what it is to do** exactly if the list can grow wherever a call enters a new name
in the map. -/
theorem run_sound_iff (calls : List (Call ρ)) :
    Sound calls ↔ ∀ before call after, calls = before ++ call :: after → call.Halved →
      ∃ earlier ∈ before, earlier.Enters call.name := by
  have hsteady := steady_iff calls (consistent_init (ρ := ρ))
  have hempty : ∀ name, ((Runtime.init : Runtime ρ).runners name).isSome = false := fun _ => rfl
  simp only [hempty, Bool.false_eq_true, false_or] at hsteady
  rw [← hsteady]
  exact ⟨Sound.steady, fun h => ⟨h, deinit_run calls⟩⟩

/-- The first runner of a runtime is in the map when its name does not fit in the list. -/
theorem order_cannot_grow : ¬ Sound
    [({ name := ascii "concierge", runner := 0, appendFails := true } : Call ℕ)] := by
  intro h
  have hchanged := h.steady.2.1 .outOfMemory rfl
  have hlook := congrFun (congrArg Runtime.runners hchanged) (ascii "concierge")
  cases hlook

end RuntimeRegistry
end Harness
end TigerClaw
