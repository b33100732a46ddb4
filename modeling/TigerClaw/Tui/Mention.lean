import Mathlib.Data.List.Basic
import TigerClaw.Basic

/-!
# Mentions

`@name` in what the user types, and in what an agent replies.

* `parse`: the mention at the start of a message, and the rest of it.
* `findAll`: the known agents that a text mentions, each once, in the order of their first mention;
  without the one that speaks, and without code blocks and lines that quote a reply.
* `mentions_findAll`: what it returns.
-/

namespace TigerClaw
namespace Tui

/-- `std.ascii.toLower`. -/
def toLower (c : UInt8) : UInt8 := if 0x41 ≤ c && c ≤ 0x5A then c + 32 else c

/-- `std.ascii.eqlIgnoreCase`. -/
def eqlIgnoreCase (a b : Bytes) : Bool := a.map toLower == b.map toLower

theorem eqlIgnoreCase_iff {a b : Bytes} :
    eqlIgnoreCase a b = true ↔ a.map toLower = b.map toLower := beq_iff_eq

@[simp] theorem eqlIgnoreCase_refl (a : Bytes) : eqlIgnoreCase a a = true :=
  eqlIgnoreCase_iff.mpr rfl

theorem eqlIgnoreCase_comm (a b : Bytes) : eqlIgnoreCase a b = eqlIgnoreCase b a := by
  rw [Bool.eq_iff_iff, eqlIgnoreCase_iff, eqlIgnoreCase_iff]
  exact eq_comm

/-- Where two names are the same, each may stand for the other. -/
theorem eqlIgnoreCase_congr {a b : Bytes} (h : eqlIgnoreCase a b = true) (c : Bytes) :
    eqlIgnoreCase a c = eqlIgnoreCase b c := by
  rw [eqlIgnoreCase, eqlIgnoreCase, eqlIgnoreCase_iff.mp h]

namespace Mention

def isAlpha (c : UInt8) : Bool := (0x61 ≤ c && c ≤ 0x7A) || (0x41 ≤ c && c ≤ 0x5A)

def isSpace (c : UInt8) : Bool := c == 0x20 || c == 0x09

def isNameChar (c : UInt8) : Bool :=
  isAlpha c || (0x30 ≤ c && c ≤ 0x39) || c == 0x2D || c == 0x5F

structure Parsed where
  target : Option Bytes
  body : Bytes

def parse (input : Bytes) : Parsed :=
  match input.dropWhile isSpace with
  | 0x40 :: rest =>
    let name := rest.takeWhile isNameChar
    if name = [] then { target := none, body := input }
    else { target := some name, body := (rest.dropWhile isNameChar).dropWhile isSpace }
  | _ => { target := none, body := input }

/-! ## Scanning a reply -/

/-- Three backticks after the indentation. -/
def isFenceLine (line : Bytes) : Bool :=
  match line.dropWhile isSpace with
  | 0x60 :: 0x60 :: 0x60 :: _ => true
  | _ => false

/-- `@name:` or `@name word:` at the start, of a known agent. -/
def isSyntheticHeaderLine (line : Bytes) (known : List Bytes) : Bool :=
  match line.dropWhile isSpace with
  | 0x40 :: rest =>
    let name := rest.takeWhile isNameChar
    if name = [] then false
    else if ¬ known.any (eqlIgnoreCase · name) then false
    else
      let after := (rest.dropWhile isNameChar).dropWhile isSpace
      if after.head? = some 0x3A then true
      else if after.takeWhile isAlpha = [] then false
      else ((after.dropWhile isAlpha).dropWhile isSpace).head? = some 0x3A
  | _ => false

/-- The names that stand after an `@` of the line, if the character before it, `prev`, belongs to no
name.  To go on inside a name does no harm: there is no `@` in it. -/
def names (prev : Option UInt8) : Bytes → List Bytes
  | [] => []
  | c :: cs =>
    let rest := names (some c) cs
    if c = 0x40 ∧ prev.all (fun p => !isNameChar p) then
      let name := cs.takeWhile isNameChar
      if name = [] then rest else name :: rest
    else rest

/-- One mention: the agent as `known` spells it, unless it is the speaker or there already. -/
def add (known : List Bytes) (invoker : Bytes) (out : List Bytes) (name : Bytes) : List Bytes :=
  if eqlIgnoreCase name invoker then out
  else
    match known.find? (eqlIgnoreCase · name) with
    | none => out
    | some r => if out.any (eqlIgnoreCase · r) then out else out ++ [r]

def scanLine (known : List Bytes) (invoker : Bytes) (out : List Bytes) (line : Bytes) :
    List Bytes :=
  (names none line).foldl (add known invoker) out

/-- The lines that are left to scan. -/
def findIn (known : List Bytes) (invoker : Bytes) :
    Bool → List Bytes → List Bytes → List Bytes
  | _, out, [] => out
  | inFence, out, line :: lines =>
    if isFenceLine line then findIn known invoker (!inFence) out lines
    else if inFence then findIn known invoker inFence out lines
    else if isSyntheticHeaderLine line known then findIn known invoker inFence out lines
    else findIn known invoker inFence (scanLine known invoker out line) lines

def findAll (text : Bytes) (known : List Bytes) (invoker : Bytes) : List Bytes :=
  findIn known invoker false [] (text.splitOn 0x0A)

/-! ## What is found -/

/-- What every list of mentions satisfies. -/
structure Mentions (known : List Bytes) (invoker : Bytes) (out : List Bytes) : Prop where
  known : ∀ r ∈ out, r ∈ known
  others : ∀ r ∈ out, eqlIgnoreCase r invoker = false
  distinct : out.Pairwise fun a b => eqlIgnoreCase a b = false

variable {known : List Bytes} {invoker : Bytes} {out : List Bytes}

theorem Mentions.add (h : Mentions known invoker out) (name : Bytes) :
    Mentions known invoker (Mention.add known invoker out name) := by
  rw [Mention.add]
  split
  · exact h
  · rename_i hinvoker
    split
    · exact h
    · rename_i r hr
      have hname : eqlIgnoreCase r name = true := by
        have hfound := List.find?_some hr
        exact hfound
      split
      · exact h
      · rename_i hnew
        refine ⟨fun s hs => ?_, fun s hs => ?_, ?_⟩
        · rcases List.mem_append.mp hs with hs | hs
          · exact h.known s hs
          · rw [List.mem_singleton.mp hs]
            exact List.mem_of_find?_eq_some hr
        · rcases List.mem_append.mp hs with hs | hs
          · exact h.others s hs
          · rw [List.mem_singleton.mp hs, eqlIgnoreCase_congr hname]
            exact Bool.eq_false_iff.mpr hinvoker
        · refine List.pairwise_append.mpr ⟨h.distinct, List.pairwise_singleton _ _, ?_⟩
          intro s hs t ht
          rw [List.mem_singleton.mp ht]
          refine Bool.eq_false_iff.mpr fun hst => hnew ?_
          exact List.any_eq_true.mpr ⟨s, hs, hst⟩

theorem Mentions.scanLine (h : Mentions known invoker out) (line : Bytes) :
    Mentions known invoker (Mention.scanLine known invoker out line) := by
  rw [Mention.scanLine]
  generalize names none line = found
  induction found generalizing out with
  | nil => exact h
  | cons name found ih => exact ih (h.add name)

theorem Mentions.findIn (h : Mentions known invoker out) (inFence : Bool) (lines : List Bytes) :
    Mentions known invoker (Mention.findIn known invoker inFence out lines) := by
  induction lines generalizing inFence out with
  | nil => exact h
  | cons line lines ih =>
    rw [Mention.findIn]
    split
    · exact ih h _
    · split
      · exact ih h _
      · split
        · exact ih h _
        · exact ih (h.scanLine line) _

/-- **What a reply mentions**: known agents, others than the speaker, each once. -/
theorem mentions_findAll (text : Bytes) (known : List Bytes) (invoker : Bytes) :
    Mentions known invoker (findAll text known invoker) :=
  Mentions.findIn
    ⟨fun _ h => absurd h List.not_mem_nil, fun _ h => absurd h List.not_mem_nil, .nil⟩ false _

/-- Code blocks and quoted replies do not count, and an agent counts once. -/
example : findAll (ascii "ask @SAGE, x@bolt, @sage\n```\n@bolt\n```\n@bolt replied: @tiger\n@me")
      [ascii "tiger", ascii "sage", ascii "bolt", ascii "me"] (ascii "me") =
    [ascii "sage"] := by
  decide

end Mention
end Tui
end TigerClaw
