import Mathlib.Algebra.Group.Nat.Defs
import TigerClaw.Library.Json.Reread

/-!
# Printing a value that was read

Integers that fit 64 bits are printed from their value, longer ones as they were written, and other
numbers as `floatText` says.  Everything else is printed as it is.

* `numberText`, `Tree.printed`, `Tree.stringify`: a number, a value, and the text of a value.
* `stringify_inj`: two values with the same text are printed the same.
* `parse_stringify`: the text is read as the value that was printed.
-/

namespace Json

section

variable (floatText : List UInt8 → List UInt8)

def numberText (s : List UInt8) : List UInt8 :=
  if isNumberFormattedLikeAnInteger s then
    match Digits.parseInt s with
    | some n => if -2 ^ 63 ≤ n ∧ n < 2 ^ 63 then Digits.decimalInt n else s
    | none => s
  else floatText s

/-- What is printed for a number is a number. -/
def PrintsNumbers : Prop := ∀ s, (Token.number s).Writable → (Token.number (floatText s)).Writable

namespace Tree

mutual

/-- The value with its numbers as they are printed. -/
def printed : Tree → Tree
  | .null => .null
  | .bool b => .bool b
  | .number s => .number (numberText floatText s)
  | .string s => .string s
  | .array elems => .array (printedElems elems)
  | .object fields => .object (printedMembers fields)

def printedElems : List Tree → List Tree
  | [] => []
  | v :: elems => v.printed :: printedElems elems

def printedMembers : List (List UInt8 × Tree) → List (List UInt8 × Tree)
  | [] => []
  | (name, v) :: fields => (name, v.printed) :: printedMembers fields

end

/-- The text of a value. -/
def stringify (v : Tree) : List UInt8 := write (v.printed floatText).tokens

end Tree

end

variable {floatText : List UInt8 → List UInt8}

theorem writable_numberText (hfloat : PrintsNumbers floatText) {s : List UInt8}
    (hs : (Token.number s).Writable) : (Token.number (numberText floatText s)).Writable := by
  rw [numberText]
  split
  · split
    · split
      · exact writable_decimalInt _
      · exact hs
    · exact hs
  · exact hfloat s hs

namespace Tree

theorem printedElems_eq_map (elems : List Tree) :
    printedElems floatText elems = elems.map (printed floatText) := by
  induction elems with
  | nil => rfl
  | cons v elems ih => rw [printedElems, ih, List.map_cons]

theorem printedMembers_eq_map (fields : List (List UInt8 × Tree)) :
    printedMembers floatText fields =
      fields.map fun field => (field.1, field.2.printed floatText) := by
  induction fields with
  | nil => rfl
  | cons field fields ih => rw [printedMembers, ih, List.map_cons]

theorem printed_object (fields : List (List UInt8 × Tree)) :
    printed floatText (.object fields) =
      .object (fields.map fun field => (field.1, field.2.printed floatText)) := by
  rw [printed, printedMembers_eq_map]

theorem legible_printed (hfloat : PrintsNumbers floatText) (v : Tree) (h : v.Legible) :
    (v.printed floatText).Legible := by
  induction v using forall_tree with
  | null => exact h
  | bool b => exact h
  | number s =>
    have hs := h (.number s) (by rw [tokens]; exact List.mem_singleton_self _)
    rw [printed]
    exact legible_scalar (by rw [tokens]) (writable_numberText hfloat hs)
  | string s => exact h
  | array elems ih =>
    rw [printed, printedElems_eq_map, legible_array]
    intro w hw
    obtain ⟨v, hv, rfl⟩ := List.mem_map.mp hw
    exact ih v hv (legible_array.mp h v hv)
  | object fields ih =>
    rw [printed_object, legible_object]
    intro f hf
    obtain ⟨field, hfield, rfl⟩ := List.mem_map.mp hf
    obtain ⟨hname, hvalue⟩ := legible_object.mp h field hfield
    exact ⟨hname, ih field hfield hvalue⟩

theorem distinct_printed (v : Tree) (h : v.Distinct) : (v.printed floatText).Distinct := by
  induction v using forall_tree with
  | null => exact h
  | bool b => exact h
  | number s => exact trivial
  | string s => exact h
  | array elems ih =>
    rw [printed, printedElems_eq_map, distinct_array]
    intro w hw
    obtain ⟨v, hv, rfl⟩ := List.mem_map.mp hw
    exact ih v hv (distinct_array.mp h v hv)
  | object fields ih =>
    obtain ⟨hnodup, hvalues⟩ := distinct_object.mp h
    rw [printed_object, distinct_object]
    refine ⟨by rwa [List.map_map], fun f hf => ?_⟩
    obtain ⟨field, hfield, rfl⟩ := List.mem_map.mp hf
    exact ih field hfield (hvalues field hfield)

/-- Two values with the same text are printed the same. -/
theorem stringify_inj (hfloat : PrintsNumbers floatText) {v w : Tree} (hv : v.Legible)
    (hw : w.Legible) :
    stringify floatText v = stringify floatText w ↔ v.printed floatText = w.printed floatText :=
  write_tokens_inj (legible_printed hfloat v hv) (legible_printed hfloat w hw)

/-- **The text of a value is read as what was printed.** -/
theorem parse_stringify (hfloat : PrintsNumbers floatText) {v : Tree} (hv : v.Legible)
    (hdistinct : v.Distinct) :
    parse true (stringify floatText v) = some (v.printed floatText) :=
  parse_true_eq_some.mpr
    ⟨parse_write_tokens (legible_printed hfloat v hv), distinct_printed v hdistinct⟩

end Tree
end Json
