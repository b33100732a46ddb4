import TigerClaw.Library.Checked
import TigerClaw.Library.Json.Tree

/-!
# Reading a JSON value that can be anything

A reader that asks first takes a value for an object only if it is one (`field?`); one that does not
ask reads the field of whatever it is handed (`field`), and a check trips if that is no object.

* `field?`, `at?`, `string?`, `integer?`, `elems?`: asking first.
* `field`: not asking.  `field_eq_ok`, `not_traps_field_bind`: the difference is `IsObject`.
-/

namespace Json

/-- Not `-0`, and without a point or an exponent. -/
def isNumberFormattedLikeAnInteger (s : List UInt8) : Bool :=
  s ≠ [0x2D, 0x30] && !s.any fun b => b = 0x2E || b = 0x65 || b = 0x45

namespace Tree

/-! ## Asking first -/

def IsObject : Tree → Prop
  | .object _ => True
  | _ => False

instance : DecidablePred IsObject
  | .object _ => isTrue trivial
  | .null | .bool _ | .number _ | .string _ | .array _ => isFalse id

/-- A field, if the value is an object and has it. -/
def field? (v : Tree) (name : List UInt8) : Option Tree :=
  match v with
  | .object fields => get fields name
  | _ => none

/-- A field of a field, and so on. -/
def at? (v : Tree) : List (List UInt8) → Option Tree
  | [] => some v
  | name :: path => (v.field? name).bind fun w => w.at? path

def string? : Tree → Option (List UInt8)
  | .string s => some s
  | _ => none

/-- A number that is written like an integer and fits 64 bits. -/
def integer? : Tree → Option ℤ
  | .number s =>
    if isNumberFormattedLikeAnInteger s then
      (Digits.parseInt s).filter fun n => decide (-2 ^ 63 ≤ n ∧ n < 2 ^ 63)
    else none
  | _ => none

def elems? : Tree → Option (List Tree)
  | .array elems => some elems
  | _ => none

@[simp] theorem at?_singleton (v : Tree) (name : List UInt8) : v.at? [name] = v.field? name := by
  rw [at?]
  exact Option.bind_fun_some (v.field? name)

/-! ## Not asking -/

universe u v

variable {ε : Type u} {α : Type}

/-- A field of a value that is taken for an object. -/
def field (v : Tree) (name : List UInt8) : Outcome ε (Option Tree) :=
  match v with
  | .object fields => .ok (get fields name)
  | _ => .trap .variant

/-- **An object can be read without asking.** -/
theorem field_of_isObject {v : Tree} (h : v.IsObject) (name : List UInt8) :
    (v.field name : Outcome ε (Option Tree)) = .ok (v.field? name) := by
  cases v with
  | object fields => rfl
  | null | bool | number | string | array => cases h

/-- **Anything else cannot.** -/
theorem field_of_not_isObject {v : Tree} (h : ¬ v.IsObject) (name : List UInt8) :
    (v.field name : Outcome ε (Option Tree)) = .trap .variant := by
  cases v with
  | object fields => exact absurd trivial h
  | null | bool | number | string | array => rfl

theorem field_eq_ok {v : Tree} {name : List UInt8} {w : Option Tree} :
    field v name = (.ok w : Outcome ε (Option Tree)) ↔ v.IsObject ∧ v.field? name = w := by
  by_cases h : v.IsObject
  · simp [field_of_isObject h, h]
  · simp [field_of_not_isObject h, h]

theorem not_traps_field_bind {v : Tree} {name : List UInt8} {k : Option Tree → Outcome ε α} :
    ¬ (field v name >>= k).Traps ↔ v.IsObject ∧ ¬ (k (v.field? name)).Traps := by
  by_cases h : v.IsObject
  · simp [field_of_isObject h, h]
  · simp [field_of_not_isObject h, h]

end Tree

end Json
