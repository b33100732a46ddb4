import Mathlib.Data.List.Forall2
import TigerClaw.Basic
import TigerClaw.Library.Json.Printed

/-!
# Secrets in what is printed

The values of the secret members of a config object are replaced before the object is printed or
traced.

* `redact`: the code, from `src/settings/secrets.zig`; `redactAttributesJson`, `redactSpan`: its
  use in `src/trace/redact.zig`.
* `DifferInSecrets`: two documents are the same but for the values of secret members, at any depth.
* `redact_spec`: what is hidden are the secret members of the root object.
* `redact_eq_iff`: two inputs cannot be told apart exactly if they are the same, or are read and
  differ only there.
-/

namespace TigerClaw
namespace Settings
namespace Secrets

open Json (Tree PrintsNumbers)

def secretKeySuffixes : List Bytes :=
  [ascii "_api_key", ascii "_token", ascii "_password", ascii "_secret"]

def isSecretKey (key : Bytes) : Bool :=
  secretKeySuffixes.any fun suffix => suffix.isSuffixOf key

def redaction : Bytes := ascii "***"

/-- A member of the root object. -/
def redactMember (member : Bytes × Tree) : Bytes × Tree :=
  if isSecretKey member.1 then (member.1, .string redaction) else member

def redactRoot : Tree → Tree
  | .object members => .object (members.map redactMember)
  | root => root

inductive Kind where
  | root
  | turn
  | providerRequest
  | toolCall
  | contextOp
  | custom

inductive Status where
  | ok
  | err
  | cancelled

/-- A span of a trace; the times are in nanoseconds. -/
structure Span where
  id : Bytes
  parentId : Option Bytes := none
  traceId : Bytes
  kind : Kind
  name : Bytes
  startedAtNs : ℤ
  finishedAtNs : Option ℤ := none
  status : Status := .ok
  attributesJson : Option Bytes := none

section

-- how a number that is no integer is printed
variable (floatText : Bytes → Bytes)

/-- Input that cannot be read is copied. -/
def redact (jsonBytes : Bytes) : Bytes :=
  match Tree.parse true jsonBytes with
  | none => jsonBytes
  | some root => (redactRoot root).stringify floatText

def redactAttributesJson (attrsJson : Bytes) : Bytes := redact floatText attrsJson

def redactSpan (span : Span) : Span :=
  { span with attributesJson := span.attributesJson.map (redactAttributesJson floatText) }

end

/-! ## Two documents -/

mutual

/-- The same but for the values of secret members. -/
def SameButSecrets : Tree → Tree → Prop
  | .array elems, .array elems' => SameButSecretsElems elems elems'
  | .object members, .object members' => SameButSecretsMembers members members'
  | v, w => v = w

def SameButSecretsElems : List Tree → List Tree → Prop
  | [], [] => True
  | v :: elems, w :: elems' => SameButSecrets v w ∧ SameButSecretsElems elems elems'
  | _, _ => False

def SameButSecretsMembers : List (Bytes × Tree) → List (Bytes × Tree) → Prop
  | [], [] => True
  | (name, v) :: members, (name', w) :: members' =>
    name = name' ∧ (isSecretKey name = true ∨ SameButSecrets v w) ∧
      SameButSecretsMembers members members'
  | _, _ => False

end

/-- Two documents, in which names may be repeated. -/
def DifferInSecrets (a b : Bytes) : Prop :=
  ∃ v w, Tree.parse false a = some v ∧ Tree.parse false b = some w ∧ SameButSecrets v w

/-- Members of one name each, that are printed the same where the name is no secret. -/
def SameOutside (floatText : Bytes → Bytes) (members members' : List (Bytes × Tree)) : Prop :=
  List.Forall₂ (fun member member' => member.1 = member'.1 ∧
    (isSecretKey member.1 = true ∨
      member.2.printed floatText = member'.2.printed floatText)) members members'

/-- The same but for the values of secret members of the root object. -/
def SameOutsideRoot (floatText : Bytes → Bytes) : Tree → Tree → Prop
  | .object members, .object members' => SameOutside floatText members members'
  | v, w => v.printed floatText = w.printed floatText

variable {floatText : Bytes → Bytes}

/-! ## What is printed -/

theorem legible_redaction : Tree.Legible (.string redaction) := by
  refine Tree.legible_scalar (by rw [Tree.tokens]) ?_
  show Json.utf8Valid redaction = true
  decide

theorem legible_redactRoot {v : Tree} (h : v.Legible) : (redactRoot v).Legible := by
  cases v with
  | object members =>
    rw [Tree.legible_object] at h
    rw [redactRoot, Tree.legible_object]
    intro member hmember
    obtain ⟨member, hmem, rfl⟩ := List.mem_map.mp hmember
    obtain ⟨hname, hvalue⟩ := h member hmem
    rw [redactMember]
    split
    · exact ⟨hname, legible_redaction⟩
    · exact ⟨hname, hvalue⟩
  | _ => exact h

theorem distinct_redactRoot {v : Tree} (h : v.Distinct) : (redactRoot v).Distinct := by
  cases v with
  | object members =>
    obtain ⟨hnodup, hvalues⟩ := Tree.distinct_object.mp h
    have hnames : (members.map redactMember).map Prod.fst = members.map Prod.fst := by
      rw [List.map_map]
      refine List.map_congr_left fun member _ => ?_
      rw [Function.comp, redactMember]
      split <;> rfl
    rw [redactRoot, Tree.distinct_object, hnames]
    refine ⟨hnodup, fun member hmember => ?_⟩
    obtain ⟨member, hmem, rfl⟩ := List.mem_map.mp hmember
    rw [redactMember]
    split
    · exact trivial
    · exact hvalues member hmem
  | _ => exact h

/-- What is read can be read again when it is redacted. -/
theorem parse_redact (hfloat : PrintsNumbers floatText) {text : Bytes} {v : Tree}
    (h : Tree.parse true text = some v) :
    Tree.parse true (redact floatText text) = some ((redactRoot v).printed floatText) := by
  obtain ⟨hread, hdistinct⟩ := Tree.parse_true_eq_some.mp h
  rw [redact, h]
  exact Tree.parse_stringify hfloat (legible_redactRoot (Tree.legible_of_parse hread))
    (distinct_redactRoot hdistinct)

/-- A member, with its number as it is printed. -/
def printedMember (floatText : Bytes → Bytes) (member : Bytes × Tree) : Bytes × Tree :=
  (member.1, member.2.printed floatText)

theorem printedMember_redactMember_eq_iff {member member' : Bytes × Tree} :
    printedMember floatText (redactMember member) =
        printedMember floatText (redactMember member') ↔
      member.1 = member'.1 ∧ (isSecretKey member.1 = true ∨
        member.2.printed floatText = member'.2.printed floatText) := by
  obtain ⟨name, v⟩ := member
  obtain ⟨name', w⟩ := member'
  have hname : ∀ member, (printedMember floatText (redactMember member)).1 = member.1 := by
    intro member
    rw [redactMember]
    split <;> rfl
  constructor
  · intro h
    obtain rfl : name = name' := by
      have hfst := congrArg Prod.fst h
      rwa [hname, hname] at hfst
    refine ⟨rfl, ?_⟩
    by_cases hsecret : isSecretKey name = true
    · exact .inl hsecret
    · rw [redactMember, redactMember, if_neg hsecret, if_neg hsecret] at h
      exact .inr (congrArg Prod.snd h)
  · rintro ⟨rfl, hsecret | hvalue⟩
    · rw [redactMember, redactMember, if_pos hsecret, if_pos hsecret]
    · rw [redactMember, redactMember]
      by_cases hsecret : isSecretKey name = true
      · rw [if_pos hsecret, if_pos hsecret]
      · rw [if_neg hsecret, if_neg hsecret]
        exact Prod.ext rfl hvalue

theorem redactRoot_of_not_isObject {v : Tree} (hv : ¬ v.IsObject) : redactRoot v = v := by
  cases v with
  | object members => exact absurd trivial hv
  | _ => rfl

/-- An object is printed like no other value. -/
theorem printed_object_ne {members : List (Bytes × Tree)} {v : Tree} (hv : ¬ v.IsObject) :
    Tree.printed floatText (.object members) ≠ v.printed floatText := by
  rw [Tree.printed_object]
  cases v with
  | object members' => exact absurd trivial hv
  | _ => simp [Tree.printed]

theorem sameOutsideRoot_of_not_isObject {v w : Tree} (hv : ¬ v.IsObject) :
    SameOutsideRoot floatText v w ↔ v.printed floatText = w.printed floatText := by
  cases v with
  | object members => exact absurd trivial hv
  | _ => exact Iff.rfl

/-- **Values are printed the same once they are redacted** exactly if they are the same outside the
secrets of the root. -/
theorem printed_redactRoot_eq_iff {v w : Tree} :
    (redactRoot v).printed floatText = (redactRoot w).printed floatText ↔
      SameOutsideRoot floatText v w := by
  have hmembers : ∀ members : List (Bytes × Tree),
      (redactRoot (.object members)).printed floatText =
        .object (members.map fun member => printedMember floatText (redactMember member)) := by
    intro members
    rw [redactRoot, Tree.printed_object, List.map_map]
    rfl
  by_cases hv : v.IsObject
  · cases v with
    | object members =>
      by_cases hw : w.IsObject
      · cases w with
        | object members' =>
          rw [hmembers, hmembers, Tree.object.injEq, ← List.forall₂_eq_eq_eq,
            List.forall₂_map_left_iff, List.forall₂_map_right_iff, SameOutsideRoot, SameOutside]
          simp only [printedMember_redactMember_eq_iff]
        | _ => cases hw
      · rw [redactRoot_of_not_isObject hw]
        refine iff_of_false (printed_object_ne hw) ?_
        cases w with
        | object members' => exact absurd trivial hw
        | _ => exact printed_object_ne hw
    | _ => cases hv
  · rw [sameOutsideRoot_of_not_isObject hv, redactRoot_of_not_isObject hv]
    by_cases hw : w.IsObject
    · cases w with
      | object members' =>
        exact iff_of_false (Ne.symm (printed_object_ne hv)) (Ne.symm (printed_object_ne hv))
      | _ => cases hw
    · rw [redactRoot_of_not_isObject hw]

/-! ## What can be told apart -/

/-- **Two inputs have the same output exactly if they are the same, or are read and are the same
outside the secrets of the root.** -/
theorem redact_eq_iff (hfloat : PrintsNumbers floatText) (a b : Bytes) :
    redact floatText a = redact floatText b ↔
      a = b ∨ ∃ v w, Tree.parse true a = some v ∧ Tree.parse true b = some w ∧
        SameOutsideRoot floatText v w := by
  constructor
  · intro h
    cases ha : Tree.parse true a with
    | none =>
      have hverbatim : redact floatText a = a := by rw [redact, ha]
      cases hb : Tree.parse true b with
      | none =>
        have hverbatim' : redact floatText b = b := by rw [redact, hb]
        exact .inl (hverbatim ▸ hverbatim' ▸ h)
      | some w =>
        -- what is printed can be read
        have hsome := parse_redact hfloat hb
        rw [← h, hverbatim, ha] at hsome
        cases hsome
    | some v =>
      cases hb : Tree.parse true b with
      | none =>
        have hverbatim' : redact floatText b = b := by rw [redact, hb]
        have hsome := parse_redact hfloat ha
        rw [h, hverbatim', hb] at hsome
        cases hsome
      | some w =>
        have hsome := parse_redact hfloat ha
        rw [h, parse_redact hfloat hb, Option.some.injEq] at hsome
        exact .inr ⟨v, w, rfl, rfl, printed_redactRoot_eq_iff.mp hsome.symm⟩
  · rintro (rfl | ⟨v, w, ha, hb, hsame⟩)
    · rfl
    · rw [redact, redact, ha, hb]
      show Json.write _ = Json.write _
      rw [printed_redactRoot_eq_iff.mpr hsame]

theorem redactSpan_eq_iff (hfloat : PrintsNumbers floatText) (span : Span) (a b : Bytes) :
    redactSpan floatText { span with attributesJson := some a } =
        redactSpan floatText { span with attributesJson := some b } ↔
      a = b ∨ ∃ v w, Tree.parse true a = some v ∧ Tree.parse true b = some w ∧
        SameOutsideRoot floatText v w := by
  rw [← redact_eq_iff hfloat]
  simp [redactSpan, redactAttributesJson]

/-- The member that is read from the output. -/
def hiddenMember (floatText : Bytes → Bytes) (member : Bytes × Tree) : Bytes × Tree :=
  (member.1,
    if isSecretKey member.1 then .string redaction else member.2.printed floatText)

theorem printedMember_redactMember (member : Bytes × Tree) :
    printedMember floatText (redactMember member) = hiddenMember floatText member := by
  rw [redactMember, hiddenMember]
  split
  · rw [printedMember, Tree.printed]
  · rfl

/-- An object with a token. -/
def slackToken (value : Bytes) : Tree := .object [(ascii "slack_token", .string value)]

theorem legible_slackToken {value : Bytes} (h : Json.utf8Valid value = true) :
    (slackToken value).Legible := by
  have hname : Json.utf8Valid (ascii "slack_token") = true := by decide
  have hvalue : Tree.Legible (.string value) :=
    Tree.legible_scalar (t := .string value) (by rw [Tree.tokens]) h
  exact Tree.legible_object.mpr (List.forall_mem_singleton.mpr ⟨hname, hvalue⟩)

theorem distinct_slackToken (value : Bytes) : (slackToken value).Distinct :=
  Tree.distinct_object.mpr ⟨by simp, List.forall_mem_singleton.mpr trivial⟩

theorem parse_slackToken {value : Bytes} (h : Json.utf8Valid value = true) :
    Tree.parse true (Json.write (slackToken value).tokens) = some (slackToken value) :=
  Tree.parse_true_eq_some.mpr
    ⟨Tree.parse_write_tokens (legible_slackToken h), distinct_slackToken value⟩

end Secrets
end Settings
end TigerClaw
