import TigerClaw.Instances.Registration
import TigerClaw.Library.Json.Access

/-!
# The body of a registration

`parseRegisterBody` reads the fields of a JSON object and hands on slices of the raw body, because
the values do not outlive the parse.  A slice is found by searching the body for the decoded value.

* `sliceField`, `parseRegisterBody`: the code.
* `declared`: what the fields say.
* `parseRegisterBody_eq_declared_iff`: the code says the same exactly if the body holds every
  value as it is, decoded.
-/

namespace TigerClaw
namespace Instances

def Kind.fromString (s : Bytes) : Option Kind :=
  if s = ascii "tui" then some .tui
  else if s = ascii "web" then some .web
  else if s = ascii "cli" then some .cli
  else if s = ascii "other" then some .other
  else none

theorem Kind.fromString_toString (kind : Kind) : fromString kind.toString = some kind := by
  cases kind <;> rfl

namespace Registration

/-- A member of the body that is a string, as a slice of the body. -/
def sliceField (body : Bytes) (value : Option Json.Tree) : Option Bytes :=
  match value with
  | some (.string needle) =>
    if needle.length = 0 then some []
    else (indexOf needle body).map fun start => (body.drop start).take needle.length
  | _ => none

/-- `heartbeat_interval_ms`: zero if it is absent, `none` if it is refused. -/
def heartbeatInterval (value : Option Json.Tree) : Option UInt32 :=
  match value with
  | none => some 0
  | some hb => hb.integer?.bind fun n =>
      if 0 ≤ n ∧ n ≤ 2 ^ 32 - 1 then some (UInt32.ofNat n.toNat) else none

/-- `parseRegisterBody`: the body, or an error. -/
def parseRegisterBody (body : Bytes) : Option RegisterBody :=
  if body.length = 0 then none
  else
    match Json.Tree.parse true body with
    | some (.object obj) =>
      match Json.Tree.get obj (ascii "kind") with
      | some (.string kindV) =>
        (Kind.fromString kindV).bind fun kind =>
          (heartbeatInterval (Json.Tree.get obj (ascii "heartbeat_interval_ms"))).map
            fun interval =>
              { kind
                name := (sliceField body (Json.Tree.get obj (ascii "name"))).getD []
                agentId := (sliceField body (Json.Tree.get obj (ascii "agent_id"))).getD []
                sessionId := (sliceField body (Json.Tree.get obj (ascii "session_id"))).getD []
                heartbeatIntervalMs := interval }
      | _ => none
    | _ => none

/-! ## What the fields say -/

/-- The string that a member is; empty if it is none. -/
def textOf (value : Option Json.Tree) : Bytes := (value.bind Json.Tree.string?).getD []

/-- The body of a registration of the kind, as its fields say. -/
def declared (kind : Kind) (obj : List (Bytes × Json.Tree)) : Option RegisterBody :=
  (heartbeatInterval (Json.Tree.get obj (ascii "heartbeat_interval_ms"))).map fun interval =>
    { kind
      name := textOf (Json.Tree.get obj (ascii "name"))
      agentId := textOf (Json.Tree.get obj (ascii "agent_id"))
      sessionId := textOf (Json.Tree.get obj (ascii "session_id"))
      heartbeatIntervalMs := interval }

/-- The members that are re-anchored in the body. -/
def sliced : List Bytes := [ascii "name", ascii "agent_id", ascii "session_id"]

/-- The body is a JSON object of a known kind. -/
structure Declares (body : Bytes) (kind : Kind) (obj : List (Bytes × Json.Tree)) : Prop where
  parse : Json.Tree.parse true body = some (.object obj)
  kind : ∃ kindV, Json.Tree.get obj (ascii "kind") = some (.string kindV) ∧
    Kind.fromString kindV = some kind

/-- A value is found if the body holds it, and is lost otherwise. -/
theorem sliceField_getD (body : Bytes) (value : Option Json.Tree) :
    (sliceField body value).getD [] =
      if textOf value <:+: body then textOf value else [] := by
  cases value with
  | none => simp [sliceField, textOf]
  | some v =>
    cases v with
    | null | bool | number | array | object => simp [sliceField, textOf, Json.Tree.string?]
    | string needle =>
      show (if needle.length = 0 then some [] else _).getD [] =
        if needle <:+: body then needle else []
      by_cases hempty : needle.length = 0
      · rw [List.eq_nil_of_length_eq_zero hempty]
        simp
      rw [if_neg hempty]
      cases hfound : indexOf needle body with
      | none => rw [if_neg fun h => indexOf_ne_none_iff.mpr h hfound, Option.map_none,
          Option.getD_none]
      | some start =>
        have hslice : (body.drop start).take needle.length = needle :=
          (List.prefix_iff_eq_take.mp (prefix_drop_of_indexOf hfound)).symm
        have hinfix : needle <:+: body :=
          indexOf_ne_none_iff.mp (by rw [hfound]; exact Option.some_ne_none start)
        rw [if_pos hinfix, Option.map_some, Option.getD_some, hslice]

theorem sliceField_eq_textOf_iff {body : Bytes} {value : Option Json.Tree} :
    (sliceField body value).getD [] = textOf value ↔ textOf value <:+: body := by
  rw [sliceField_getD]
  constructor
  · intro h
    by_contra hnot
    rw [if_neg hnot] at h
    rw [← h] at hnot
    exact hnot List.nil_infix
  · exact fun h => if_pos h

/-- A body that declares a kind is refused only for its heartbeat. -/
theorem parseRegisterBody_of_declares {body : Bytes} {kind : Kind} {obj : List (Bytes × Json.Tree)}
    (h : Declares body kind obj) :
    parseRegisterBody body =
      (heartbeatInterval (Json.Tree.get obj (ascii "heartbeat_interval_ms"))).map fun interval =>
        { kind
          name := (sliceField body (Json.Tree.get obj (ascii "name"))).getD []
          agentId := (sliceField body (Json.Tree.get obj (ascii "agent_id"))).getD []
          sessionId := (sliceField body (Json.Tree.get obj (ascii "session_id"))).getD []
          heartbeatIntervalMs := interval } := by
  obtain ⟨kindV, hkind, hknown⟩ := h.kind
  have hbody : body.length ≠ 0 := by
    intro hempty
    have hparse := h.parse
    rw [List.eq_nil_of_length_eq_zero hempty] at hparse
    cases hparse
  simp only [parseRegisterBody, if_neg hbody, h.parse, hkind, hknown, Option.bind_some]

/-- **The values are handed on as they are exactly if the body holds each of them, decoded.** -/
theorem parseRegisterBody_eq_declared_iff {body : Bytes} {kind : Kind}
    {obj : List (Bytes × Json.Tree)} (h : Declares body kind obj) :
    parseRegisterBody body = declared kind obj ↔
      ((heartbeatInterval (Json.Tree.get obj (ascii "heartbeat_interval_ms"))).isSome →
        ∀ key ∈ sliced, textOf (Json.Tree.get obj key) <:+: body) := by
  rw [parseRegisterBody_of_declares h, declared]
  cases heartbeatInterval (Json.Tree.get obj (ascii "heartbeat_interval_ms")) with
  | none => simp
  | some interval =>
    simp [sliced, sliceField_eq_textOf_iff]

/-- A body whose name has no escape. -/
def plainBody : Bytes := ascii "\x7b\"kind\":\"cli\",\"name\":\"a b\"\x7d"

theorem declares_plainBody : Declares plainBody .cli
    [(ascii "kind", .string (ascii "cli")), (ascii "name", .string (ascii "a b"))] where
  parse := rfl
  kind := ⟨ascii "cli", rfl, rfl⟩

theorem parseRegisterBody_eq_declared_plainBody :
    parseRegisterBody plainBody = declared .cli
      [(ascii "kind", .string (ascii "cli")), (ascii "name", .string (ascii "a b"))] :=
  (parseRegisterBody_eq_declared_iff declares_plainBody).mpr (by decide)

/-- A body whose name is the letter `a`, a line feed and the letter `b`. -/
def escapedBody : Bytes := ascii "\x7b\"kind\":\"cli\",\"name\":\"a\\nb\"\x7d"

/-- **A name with an escape is lost.** -/
theorem parseRegisterBody_escapedBody :
    ∃ obj, Declares escapedBody .cli obj ∧
      textOf (Json.Tree.get obj (ascii "name")) = ascii "a\nb" ∧
      parseRegisterBody escapedBody = some { kind := .cli } ∧
      parseRegisterBody escapedBody ≠ declared .cli obj :=
  ⟨[(ascii "kind", .string (ascii "cli")), (ascii "name", .string (ascii "a\nb"))],
    ⟨rfl, ascii "cli", rfl, rfl⟩, rfl, rfl, by decide⟩

end Registration
end Instances
end TigerClaw
