import Mathlib.Algebra.Group.Nat.Even
import Mathlib.Data.List.DropRight
import TigerClaw.Basic
import TigerClaw.Library.Lines
import TigerClaw.Library.MarkdownV2

/-!
# Markdown for Telegram

`toMarkdownV2` of `extensions/channel-telegram/api.zig` goes through a text once and writes it in
MarkdownV2.

* `Span`, `round`, `spans`: what a round of the loop recognises, and all that is recognised.
  `source_spans`: these are the pieces of the text.
* `emit`, `toMarkdownV2`: what is written.
* `reads_iff`: from anywhere in running text, when the pieces are read as what they say.
* `toMarkdownV2_right_iff`: the result is right exactly if no fence stays open, and one italic piece
  follows directly on another an even number of times.
-/

namespace TigerClaw
namespace Channels
namespace Markdown

open MarkdownV2 (Entity backslash star underscore tick openBracket closeBracket openParen
  closeParen escape parse)

/-! ## The code -/

def newline : UInt8 := 0x0A

/-- `indexOfPos`: what is before the first occurrence, and what is behind it. -/
def cutAt (needle : Bytes) : Bytes → Option (Bytes × Bytes)
  | [] => if needle = [] then some ([], []) else none
  | c :: rest =>
    if needle.isPrefixOf (c :: rest) then some ([], (c :: rest).drop needle.length)
    else (cutAt needle rest).map fun p => (c :: p.1, p.2)

def blank (c : UInt8) : Bool := c = 0x20 || c = 0x09 || c = 0x0D

/-- `std.mem.trim(u8, s, " \t\r")`. -/
def trim (s : Bytes) : Bytes := (s.dropWhile blank).rdropWhile blank

/-- What one round of the loop recognises. -/
inductive Span where
  | char (c : UInt8)
  | fence (line body : Bytes)
  /-- A fence to the end of the text, which need not have a second line. -/
  | openFence (line : Bytes) (body : Option Bytes)
  | code (body : Bytes)
  | bold (body : Bytes)
  | italic (mark : UInt8) (body : Bytes)
  | link (label url : Bytes)
  deriving DecidableEq

/-- Three backticks. -/
def fenceMark : Bytes := [tick, tick, tick]

def fenceRound (afterFence : Bytes) : Span × Bytes :=
  match Lines.cut newline afterFence with
  | none => (.openFence afterFence none, [])
  | some (line, body) =>
    match cutAt fenceMark body with
    | none => (.openFence line (some body), [])
    | some (body, rest) => (.fence line body, rest)

def codeRound (c : UInt8) (rest : Bytes) : Span × Bytes :=
  match Lines.cut tick rest with
  | none => (.char c, rest)
  | some (body, rest) => (.code body, rest)

def boldRound (c : UInt8) (rest : Bytes) : Span × Bytes :=
  match cutAt [star, star] rest.tail with
  | none => (.char c, rest)
  | some (body, rest) => (.bold body, rest)

def italicRound (c : UInt8) (rest : Bytes) : Span × Bytes :=
  match Lines.cut c rest with
  | none => (.char c, rest)
  | some (body, rest) => (.italic c body, rest)

def linkRound (c : UInt8) (rest : Bytes) : Span × Bytes :=
  match Lines.cut closeBracket rest with
  | none => (.char c, rest)
  | some (label, after) =>
    if after.head? = some openParen then
      match Lines.cut closeParen after.tail with
      | none => (.char c, rest)
      | some (url, rest) => (.link label url, rest)
    else (.char c, rest)

/-- One round of the loop, from the character at `i`, and what is behind it. -/
def round (c : UInt8) (rest : Bytes) : Span × Bytes :=
  if c = tick ∧ rest.take 2 = [tick, tick] then fenceRound (rest.drop 2)
  else if c = tick then codeRound c rest
  else if c = star ∧ rest.head? = some star then boldRound c rest
  else if (c = star ∨ c = underscore) ∧ rest ≠ [] ∧ rest.head? ≠ some c then italicRound c rest
  else if c = openBracket then linkRound c rest
  else (.char c, rest)

/-- A backslash in front of what must not stand there. -/
def appendEscaped (reserved : List UInt8) (s : Bytes) : Bytes :=
  s.flatMap fun ch => if reserved.contains ch then [0x5C, ch] else [ch]

def appendEscapedText (s : Bytes) : Bytes :=
  appendEscaped [0x5F, 0x2A, 0x5B, 0x5D, 0x28, 0x29, 0x7E, 0x60, 0x3E, 0x23, 0x2B, 0x2D, 0x3D, 0x7C,
    0x7B, 0x7D, 0x2E, 0x21, 0x5C] s

def appendEscapedCode (s : Bytes) : Bytes := appendEscaped [0x60, 0x5C] s

def appendEscapedUrl (s : Bytes) : Bytes := appendEscaped [0x29, 0x5C] s

/-- What a round appends. -/
def emit : Span → Bytes
  | .char c => appendEscapedText [c]
  | .fence line body =>
    fenceMark ++ (appendEscapedCode (trim line) ++ ([newline] ++
      (appendEscapedCode body ++ fenceMark)))
  | .openFence line body =>
    fenceMark ++ (appendEscapedCode (trim line) ++ ([newline] ++
      appendEscapedCode (body.getD [])))
  | .code body => [tick] ++ (appendEscapedCode body ++ [tick])
  | .bold body => [star] ++ (appendEscapedText body ++ [star])
  | .italic _ body => [underscore] ++ (appendEscapedText body ++ [underscore])
  | .link label url =>
    [openBracket] ++ (appendEscapedText label ++ ([closeBracket, openParen] ++
      (appendEscapedUrl url ++ [closeParen])))

/-! ## The pieces of a text -/

/-- The text that a piece was recognised from. -/
def source : Span → Bytes
  | .char c => [c]
  | .fence line body => fenceMark ++ (line ++ ([newline] ++ (body ++ fenceMark)))
  | .openFence line none => fenceMark ++ line
  | .openFence line (some body) => fenceMark ++ (line ++ ([newline] ++ body))
  | .code body => [tick] ++ (body ++ [tick])
  | .bold body => [star, star] ++ (body ++ [star, star])
  | .italic mark body => [mark] ++ (body ++ [mark])
  | .link label url =>
    [openBracket] ++ (label ++ ([closeBracket, openParen] ++ (url ++ [closeParen])))

/-- The same without the delimiters; blanks around the language belong to the fence. -/
def content : Span → Bytes
  | .char c => [c]
  | .fence line body => trim line ++ ([newline] ++ body)
  | .openFence line none => trim line
  | .openFence line (some body) => trim line ++ ([newline] ++ body)
  | .code body => body
  | .bold body => body
  | .italic _ body => body
  | .link label url => label ++ url

theorem cutAt_eq_some {needle text before rest : Bytes}
    (h : cutAt needle text = some (before, rest)) : text = before ++ (needle ++ rest) := by
  induction text generalizing before with
  | nil =>
    unfold cutAt at h
    split_ifs at h with hneedle
    obtain ⟨rfl, rfl⟩ := Prod.mk.inj (Option.some.inj h)
    rw [hneedle]
    rfl
  | cons c text ih =>
    unfold cutAt at h
    split_ifs at h with hprefix
    · obtain ⟨rfl, rfl⟩ := Prod.mk.inj (Option.some.inj h)
      obtain ⟨tail, htail⟩ := List.isPrefixOf_iff_prefix.mp hprefix
      rw [← htail, List.drop_left]
      rfl
    · obtain ⟨⟨before', rest'⟩, hcut, hpair⟩ := Option.map_eq_some_iff.mp h
      obtain ⟨rfl, rfl⟩ := Prod.mk.inj hpair
      rw [ih hcut]
      rfl

theorem cut_eq_some {d : UInt8} {text before rest : Bytes}
    (h : Lines.cut d text = some (before, rest)) : text = before ++ ([d] ++ rest) :=
  (Lines.cut_eq_some_iff.mp h).1

/-- A round takes a piece of the text. -/
theorem source_round (c : UInt8) (rest : Bytes) :
    source (round c rest).1 ++ (round c rest).2 = c :: rest := by
  unfold round
  split_ifs with hfence hcode hbold hitalic hlink
  · obtain ⟨rfl, htake⟩ := hfence
    have hrest : rest = [tick, tick] ++ rest.drop 2 := by
      rw [← htake, List.take_append_drop]
    have hall : tick :: rest = fenceMark ++ rest.drop 2 := congrArg (tick :: ·) hrest
    rw [hall]
    unfold fenceRound
    split
    · exact List.append_nil _
    · rename_i line body hcut
      rw [cut_eq_some hcut]
      split
      · exact List.append_nil _
      · rename_i inside left hclose
        rw [cutAt_eq_some hclose]
        simp only [source, List.append_assoc]
  · subst hcode
    unfold codeRound
    split
    · rfl
    · rename_i body left hcut
      rw [cut_eq_some hcut]
      simp [source]
  · obtain ⟨rfl, hhead⟩ := hbold
    unfold boldRound
    split
    · rfl
    · rename_i body left hcut
      have hrest : rest = star :: rest.tail := (List.cons_head?_tail hhead).symm
      rw [hrest, cutAt_eq_some hcut]
      simp [source]
  · unfold italicRound
    split
    · rfl
    · rename_i body left hcut
      rw [cut_eq_some hcut]
      simp [source]
  · subst hlink
    unfold linkRound
    split
    · rfl
    · rename_i label after hlabel
      split_ifs with hparen
      · split
        · rfl
        · rename_i url left hurl
          have hafter : after = openParen :: after.tail := (List.cons_head?_tail hparen).symm
          rw [cut_eq_some hlabel, hafter, cut_eq_some hurl]
          simp [source]
      · rfl
  · rfl

theorem source_ne_nil (s : Span) : source s ≠ [] := by
  cases s with
  | openFence line body => cases body <;> exact List.cons_ne_nil _ _
  | char | fence | code | bold | italic | link => exact List.cons_ne_nil _ _

theorem length_round (c : UInt8) (rest : Bytes) : (round c rest).2.length ≤ rest.length := by
  have hlength := congrArg List.length (source_round c rest)
  have hpos := List.length_pos_of_ne_nil (source_ne_nil (round c rest).1)
  rw [List.length_append, List.length_cons] at hlength
  omega

/-- All that is recognised. -/
def spans : Bytes → List Span
  | [] => []
  | c :: rest => (round c rest).1 :: spans (round c rest).2
termination_by text => text.length
decreasing_by exact Nat.lt_succ_of_le (length_round c rest)

def toMarkdownV2 (text : Bytes) : Bytes := (spans text).flatMap emit

theorem spans_nil : spans [] = [] := by
  rw [spans]

theorem spans_cons (c : UInt8) (rest : Bytes) :
    spans (c :: rest) = (round c rest).1 :: spans (round c rest).2 := by
  rw [spans]

/-- **The pieces make up the text.** -/
theorem source_spans (text : Bytes) : (spans text).flatMap source = text := by
  induction text using spans.induct with
  | case1 => rw [spans_nil, List.flatMap_nil]
  | case2 c rest ih => rw [spans_cons, List.flatMap_cons, ih, source_round]

/-! ## When the result is right -/

/-- What is read is the text without its delimiters. -/
def Right (text out : Bytes) : Prop := parse [] out = some ((spans text).flatMap content)

def isOpen : Span → Bool
  | .openFence .. => true
  | _ => false

def isItalic : Span → Bool
  | .italic .. => true
  | _ => false

/-- How often one italic piece follows directly on another. -/
def follows : List Span → ℕ
  | [] => 0
  | s :: rest => (if isItalic s ∧ rest.head?.any isItalic then 1 else 0) + follows rest

/-- Every fence is closed, and the marks between italic pieces, which are read as those of
underlined text, pair up. -/
def Paired (text : Bytes) : Prop :=
  (∀ s ∈ spans text, isOpen s = false) ∧ Even (follows (spans text))

/-- What a round leaves for the next. -/
def Taken : Span → Bytes → Prop
  | .openFence .., left => left = []
  | .code body, left => body = [] → left.head? ≠ some tick
  | .italic _ body, _ => body ≠ []
  | _, _ => True

theorem taken_round (c : UInt8) (rest : Bytes) : Taken (round c rest).1 (round c rest).2 := by
  unfold round
  split_ifs with hfence hcode hbold hitalic hlink
  · unfold fenceRound
    split
    · rfl
    · split
      · rfl
      · trivial
  · unfold codeRound
    split
    · trivial
    · rename_i body left hcut
      rintro rfl hhead
      have hrest := cut_eq_some hcut
      obtain ⟨after, rfl⟩ : ∃ after, left = tick :: after :=
        ⟨left.tail, (List.cons_head?_tail hhead).symm⟩
      exact hfence ⟨hcode, by rw [hrest]; rfl⟩
  · unfold boldRound
    split <;> trivial
  · unfold italicRound
    split
    · trivial
    · rename_i body left hcut
      rintro rfl
      exact hitalic.2.2 (by rw [cut_eq_some hcut]; rfl)
  · unfold linkRound
    split
    · trivial
    · split_ifs
      · split <;> trivial
      · trivial
  · trivial

/-! ### One piece -/

theorem appendEscapedText_eq (s : Bytes) : appendEscapedText s = escape none s := rfl

theorem contains_pair (a b ch : UInt8) : [a, b].contains ch = (ch = a || ch = b) := by
  rw [List.contains_cons, List.contains_cons, List.contains_nil, Bool.or_false, beq_eq_decide,
    beq_eq_decide]

theorem appendEscapedCode_eq (s : Bytes) {e : Entity} (he : e = .code ∨ e = .pre) :
    appendEscapedCode s = escape (some e) s := by
  unfold appendEscapedCode appendEscaped escape
  congr 1
  funext ch
  have hspecial : MarkdownV2.special (some e) ch = (ch = tick || ch = backslash) := by
    obtain rfl | rfl := he <;> rfl
  rw [hspecial, contains_pair]
  rfl

theorem appendEscapedUrl_eq (s : Bytes) : appendEscapedUrl s = escape (some .target) s := by
  unfold appendEscapedUrl appendEscaped escape
  congr 1
  funext ch
  have hspecial : MarkdownV2.special (some .target) ch = (ch = closeParen || ch = backslash) := rfl
  rw [hspecial, contains_pair]
  rfl

theorem escape_of_running {e : Option Entity} (h : MarkdownV2.Running e) (s : Bytes) :
    escape e s = escape none s := by
  unfold escape
  congr 1
  funext ch
  rw [MarkdownV2.special_of_running h]
  rfl

/-- In running text, a piece that is not italic is read as what it says. -/
theorem parse_emit {stack : List Entity} (hrun : MarkdownV2.Running stack.head?)
    (hbold : stack.head? ≠ some .bold) {s : Span} (hopen : isOpen s = false)
    (hitalic : isItalic s = false) {left : Bytes}
    (hcode : ∀ body, s = .code body → body = [] → left.head? ≠ some tick) :
    parse stack (emit s ++ left) = (parse stack left).map (content s ++ ·) := by
  cases s with
  | openFence line body => cases hopen
  | italic mark body => cases hitalic
  | char c =>
    rw [emit, appendEscapedText_eq, ← escape_of_running hrun, MarkdownV2.parse_escape rfl]
    rfl
  | fence line body =>
    have hnewline : [newline] = escape (some .pre) [newline] := by decide
    have hemit : emit (.fence line body) ++ left = tick :: tick :: tick ::
        (escape (some .pre) (trim line ++ ([newline] ++ body)) ++
          tick :: tick :: tick :: left) := by
      rw [emit, appendEscapedCode_eq _ (.inr rfl), appendEscapedCode_eq _ (.inr rfl),
        MarkdownV2.escape_append, MarkdownV2.escape_append, ← hnewline]
      simp only [fenceMark, List.append_assoc, List.cons_append, List.nil_append]
    rw [hemit, MarkdownV2.parse_pre hrun]
    rfl
  | code body =>
    have hemit : emit (.code body) ++ left =
        tick :: (escape (some .code) body ++ tick :: left) := by
      rw [emit, appendEscapedCode_eq _ (.inl rfl)]
      simp only [List.append_assoc, List.cons_append, List.nil_append]
    rw [hemit, MarkdownV2.parse_code hrun (hcode body rfl)]
    rfl
  | bold body =>
    have hemit : emit (.bold body) ++ left = star :: (escape none body ++ star :: left) := by
      rw [emit, appendEscapedText_eq]
      simp only [List.append_assoc, List.cons_append, List.nil_append]
    rw [hemit, MarkdownV2.parse_bold hrun hbold]
    rfl
  | link label url =>
    have hemit : emit (.link label url) ++ left =
        openBracket :: (escape none label ++ closeBracket :: openParen ::
          (escape (some .target) url ++ closeParen :: left)) := by
      rw [emit, appendEscapedText_eq, appendEscapedUrl_eq]
      simp only [List.append_assoc, List.cons_append, List.nil_append]
    rw [hemit, MarkdownV2.parse_link hrun]
    rfl

/-- An open fence is not. -/
theorem parse_emit_open {stack : List Entity} (hrun : MarkdownV2.Running stack.head?) {s : Span}
    (hopen : isOpen s = true) : parse stack (emit s) = none := by
  cases s with
  | openFence line body =>
    have hnewline : [newline] = escape (some .pre) [newline] := by decide
    have hemit : emit (.openFence line body) = tick :: tick :: tick ::
        escape (some .pre) (trim line ++ ([newline] ++ body.getD [])) := by
      rw [emit, appendEscapedCode_eq _ (.inr rfl), appendEscapedCode_eq _ (.inr rfl),
        MarkdownV2.escape_append, MarkdownV2.escape_append, ← hnewline]
      rfl
    rw [hemit, MarkdownV2.parse_pre_open hrun]
  | char | fence | code | bold | italic | link => cases hopen

/-- What a piece begins with. -/
theorem head?_emit (s : Span) (left : Bytes) :
    (emit s ++ left).head? = some underscore ∧ isItalic s = true ∨
      (emit s ++ left).head? ≠ some underscore ∧
        ((emit s ++ left).head? = some tick → (source s).head? = some tick) := by
  have htick : tick ≠ underscore := by decide
  cases s with
  | italic mark body => exact .inl ⟨rfl, rfl⟩
  | char c =>
    refine .inr ⟨?_, ?_⟩
    · rw [emit, appendEscapedText_eq]
      exact MarkdownV2.head?_escape_ne (by decide) (by decide) (List.cons_ne_nil _ _) left
    · rw [emit, appendEscapedText_eq]
      intro h
      exact absurd h
        (MarkdownV2.head?_escape_ne (by decide) (by decide) (List.cons_ne_nil _ _) left)
  | fence line body => exact .inr ⟨fun h => htick (Option.some.inj h), fun _ => rfl⟩
  | openFence line body =>
    refine .inr ⟨fun h => htick (Option.some.inj h), fun _ => ?_⟩
    cases body <;> rfl
  | code body => exact .inr ⟨fun h => htick (Option.some.inj h), fun _ => rfl⟩
  | bold body =>
    exact .inr ⟨fun h => absurd (Option.some.inj h) (by decide),
      fun h => absurd (Option.some.inj h) (by decide)⟩
  | link label url =>
    exact .inr ⟨fun h => absurd (Option.some.inj h) (by decide),
      fun h => absurd (Option.some.inj h) (by decide)⟩

/-! ### One piece after the other -/

/-- What is open between the pieces, in terms of what is behind: whether the marks between italic
pieces have left one of underlined text without its other. -/
def outer (odd : Bool) : List Entity := if odd then [.italic, .underline, .italic] else []

/-- What is open inside an italic piece. -/
def inner (odd : Bool) : List Entity := if odd then [.underline, .italic] else [.italic]

theorem toggle_outer (odd : Bool) : MarkdownV2.toggle .italic (outer odd) = inner odd := by
  cases odd <;> rfl

theorem toggle_inner (odd : Bool) : MarkdownV2.toggle .italic (inner odd) = outer odd := by
  cases odd <;> rfl

theorem toggle_between (odd : Bool) : MarkdownV2.toggle .underline (inner odd) = inner !odd := by
  cases odd <;> rfl

theorem running_outer (odd : Bool) :
    MarkdownV2.Running (outer odd).head? ∧ (outer odd).head? ≠ some .bold := by
  cases odd
  · exact ⟨trivial, by decide⟩
  · exact ⟨trivial, by decide⟩

theorem running_inner (odd : Bool) : MarkdownV2.Running (inner odd).head? := by
  cases odd <;> exact trivial

/-- A result that says something under a condition only. -/
def Reads (p : Prop) (said : Bytes) (r : Option Bytes) : Prop :=
  (p → r = some said) ∧ (¬ p → r = none)

theorem Reads.map {p q : Prop} {said : Bytes} {r : Option Bytes} (h : Reads p said r)
    (hq : q ↔ p) (front : Bytes) : Reads q (front ++ said) (r.map (front ++ ·)) := by
  refine ⟨fun hp => ?_, fun hp => ?_⟩
  · rw [h.1 (hq.mp hp)]
    rfl
  · rw [h.2 fun hp' => hp (hq.mpr hp')]
    rfl

def Closed (pieces : List Span) : Prop := ∀ s ∈ pieces, isOpen s = false

/-- How often an italic piece follows directly on another, behind an italic piece. -/
def followsOn (pieces : List Span) : ℕ :=
  (if pieces.head?.any isItalic then 1 else 0) + follows pieces

theorem follows_cons_italic {s : Span} (h : isItalic s = true) (pieces : List Span) :
    follows (s :: pieces) = followsOn pieces := by
  rw [follows, followsOn, h]
  simp only [true_and]

theorem follows_cons_other {s : Span} (h : isItalic s = false) (pieces : List Span) :
    follows (s :: pieces) = follows pieces := by
  rw [follows, h]
  simp

theorem closed_cons {s : Span} (h : isOpen s = false) (pieces : List Span) :
    Closed (s :: pieces) ↔ Closed pieces := by
  rw [Closed, List.forall_mem_cons, and_iff_right h, Closed]

/-- The text that is left begins with a backtick if what is written for it does. -/
theorem head?_toMarkdownV2 {text : Bytes} (h : (toMarkdownV2 text).head? = some tick) :
    text.head? = some tick := by
  cases text with
  | nil =>
    rw [toMarkdownV2, spans_nil] at h
    cases h
  | cons c rest =>
    rw [toMarkdownV2, spans_cons, List.flatMap_cons] at h
    rcases head?_emit (round c rest).1 ((spans (round c rest).2).flatMap emit) with
      ⟨hmark, -⟩ | ⟨-, htick⟩
    · exact absurd (Option.some.inj (hmark.symm.trans h)) (by decide)
    · have hsource := htick h
      have hhead := congrArg List.head? (source_round c rest)
      rw [List.head?_append, hsource] at hhead
      exact hhead.symm

/-- An italic piece in front: its marks are read with those of the pieces around it. -/
theorem reads_italic {s : Span} {left : Bytes} (hitalic : isItalic s = true) (htaken : Taken s left)
    (ih : ∀ odd, Reads (Closed (spans left) ∧ Even (followsOn (spans left) + odd.toNat))
      ((spans left).flatMap content) (parse (inner odd) (underscore :: toMarkdownV2 left))) :
    (∀ odd, Reads (Closed (s :: spans left) ∧ Even (follows (s :: spans left) + odd.toNat))
      (content s ++ (spans left).flatMap content)
      (parse (outer odd) (emit s ++ toMarkdownV2 left))) ∧
    ∀ odd, Reads (Closed (s :: spans left) ∧ Even (followsOn (s :: spans left) + odd.toNat))
      (content s ++ (spans left).flatMap content)
      (parse (inner odd) (underscore :: (emit s ++ toMarkdownV2 left))) := by
  cases s with
  | italic mark body =>
    have hbody : body ≠ [] := htaken
    have hclosed : Closed (.italic mark body :: spans left) ↔ Closed (spans left) :=
      closed_cons rfl _
    have hemit : emit (.italic mark body) ++ toMarkdownV2 left =
        underscore :: (escape none body ++ (underscore :: toMarkdownV2 left)) := by
      rw [emit, appendEscapedText_eq]
      simp only [List.append_assoc, List.cons_append, List.nil_append]
    -- the text inside, from the mark in front of it
    have hinside : ∀ odd,
        parse (inner odd) (escape none body ++ (underscore :: toMarkdownV2 left)) =
          (parse (inner odd) (underscore :: toMarkdownV2 left)).map (body ++ ·) := by
      intro odd
      rw [← escape_of_running (running_inner odd), MarkdownV2.parse_escape rfl]
    rw [hemit, follows_cons_italic hitalic]
    constructor
    · intro odd
      have hmark := @MarkdownV2.parse_underscore (outer odd) (running_outer odd).1
        (escape none body ++ (underscore :: toMarkdownV2 left))
        (MarkdownV2.head?_escape_ne (by decide) (by decide) hbody _)
      rw [hmark, toggle_outer, hinside]
      exact (ih odd).map (and_congr_left' hclosed) body
    · intro odd
      have hparity : Even (followsOn (.italic mark body :: spans left) + odd.toNat) ↔
          Even (followsOn (spans left) + (!odd).toNat) := by
        have hone : followsOn (.italic mark body :: spans left) = 1 + followsOn (spans left) := by
          rw [followsOn, follows_cons_italic rfl]
          rfl
        rw [hone]
        cases odd <;> simp [Nat.even_add, parity_simps]
      rw [MarkdownV2.parse_underscores (running_inner odd), toggle_between, hinside]
      exact (ih !odd).map (and_congr hclosed hparity) body
  | char | fence | openFence | code | bold | link => cases hitalic

/-- Another piece in front. -/
theorem reads_other {s : Span} {left : Bytes} (hitalic : isItalic s = false)
    (htaken : Taken s left)
    (ih : ∀ odd, Reads (Closed (spans left) ∧ Even (follows (spans left) + odd.toNat))
      ((spans left).flatMap content) (parse (outer odd) (toMarkdownV2 left))) :
    (∀ odd, Reads (Closed (s :: spans left) ∧ Even (follows (s :: spans left) + odd.toNat))
      (content s ++ (spans left).flatMap content)
      (parse (outer odd) (emit s ++ toMarkdownV2 left))) ∧
    ∀ odd, Reads (Closed (s :: spans left) ∧ Even (followsOn (s :: spans left) + odd.toNat))
      (content s ++ (spans left).flatMap content)
      (parse (inner odd) (underscore :: (emit s ++ toMarkdownV2 left))) := by
  have houter : ∀ odd,
      Reads (Closed (s :: spans left) ∧ Even (follows (s :: spans left) + odd.toNat))
        (content s ++ (spans left).flatMap content)
        (parse (outer odd) (emit s ++ toMarkdownV2 left)) := by
    intro odd
    obtain ⟨hrun, hbold⟩ := running_outer odd
    cases hopen : isOpen s with
    | true =>
      have hleft : left = [] := by
        cases s with
        | openFence line body => exact htaken
        | char | fence | code | bold | italic | link => cases hopen
      have hnone : parse (outer odd) (emit s ++ toMarkdownV2 left) = none := by
        rw [hleft, toMarkdownV2, spans_nil, List.flatMap_nil, List.append_nil]
        exact parse_emit_open hrun hopen
      refine ⟨fun h => ?_, fun _ => hnone⟩
      exact absurd ((h.1 s List.mem_cons_self).symm.trans hopen) Bool.false_ne_true
    | false =>
      have hcode : ∀ body, s = .code body → body = [] → (toMarkdownV2 left).head? ≠ some tick := by
        rintro body rfl hempty htick
        exact htaken hempty (head?_toMarkdownV2 htick)
      rw [parse_emit hrun hbold hopen hitalic hcode, follows_cons_other hitalic]
      exact (ih odd).map (and_congr_left' (closed_cons hopen _)) _
  refine ⟨houter, fun odd => ?_⟩
  have hhead : (emit s ++ toMarkdownV2 left).head? ≠ some underscore := by
    rcases head?_emit s (toMarkdownV2 left) with ⟨-, h⟩ | ⟨h, -⟩
    · exact absurd (hitalic.symm.trans h) Bool.false_ne_true
    · exact h
  have hsame : followsOn (s :: spans left) = follows (s :: spans left) := by
    rw [followsOn, List.head?_cons, Option.any_some, hitalic]
    simp
  rw [MarkdownV2.parse_underscore (running_inner odd) hhead, toggle_inner, hsame]
  exact houter odd

/-- **When a text is read as what it says**, from running text and from the end of an italic
piece. -/
theorem reads_iff (text : Bytes) :
    (∀ odd, Reads (Closed (spans text) ∧ Even (follows (spans text) + odd.toNat))
      ((spans text).flatMap content) (parse (outer odd) (toMarkdownV2 text))) ∧
    ∀ odd, Reads (Closed (spans text) ∧ Even (followsOn (spans text) + odd.toNat))
      ((spans text).flatMap content) (parse (inner odd) (underscore :: toMarkdownV2 text)) := by
  induction text using spans.induct with
  | case1 =>
    have hnil : ∀ odd, Reads (Closed (spans []) ∧ Even (follows (spans []) + odd.toNat))
        ((spans []).flatMap content) (parse (outer odd) (toMarkdownV2 [])) := by
      intro odd
      rw [toMarkdownV2, spans_nil, List.flatMap_nil, List.flatMap_nil, MarkdownV2.parse_nil]
      cases odd
      · exact ⟨fun _ => rfl, fun h => absurd ⟨fun _ h => absurd h List.not_mem_nil, by decide⟩ h⟩
      · exact ⟨fun h => absurd h.2 (by decide), fun _ => rfl⟩
    refine ⟨hnil, fun odd => ?_⟩
    have hlast : toMarkdownV2 [] = [] := by rw [toMarkdownV2, spans_nil, List.flatMap_nil]
    have hmark := @MarkdownV2.parse_underscore (inner odd) (running_inner odd) [] (by decide)
    have hsame : followsOn (spans []) = follows (spans []) := by rw [spans_nil]; rfl
    have hthis := hnil odd
    rw [hlast] at hthis ⊢
    rw [hmark, toggle_inner, hsame]
    exact hthis
  | case2 c rest ih =>
    obtain ⟨ihOuter, ihInner⟩ := ih
    have htaken := taken_round c rest
    have hout : toMarkdownV2 (c :: rest) =
        emit (round c rest).1 ++ toMarkdownV2 (round c rest).2 := by
      rw [toMarkdownV2, spans_cons, List.flatMap_cons, toMarkdownV2]
    have hsaid : (spans (c :: rest)).flatMap content =
        content (round c rest).1 ++ (spans (round c rest).2).flatMap content := by
      rw [spans_cons, List.flatMap_cons]
    rw [hout, hsaid, spans_cons]
    generalize round c rest = taken at *
    obtain ⟨s, left⟩ := taken
    dsimp only at *
    cases hitalic : isItalic s with
    | true => exact reads_italic hitalic htaken ihInner
    | false => exact reads_other hitalic htaken ihOuter

/-- **The result is right exactly if the text is paired.** -/
theorem toMarkdownV2_right_iff (text : Bytes) : Right text (toMarkdownV2 text) ↔ Paired text := by
  obtain ⟨hright, hwrong⟩ := (reads_iff text).1 false
  constructor
  · intro h
    by_contra hpaired
    exact Option.some_ne_none _ (h.symm.trans (hwrong hpaired))
  · exact hright

theorem spans_fence : spans (ascii "```x") = [.openFence (ascii "x") none] := by
  have htext : ascii "```x" = tick :: [tick, tick, 0x78] := by decide
  have hround : round tick [tick, tick, 0x78] = (.openFence (ascii "x") none, []) := by decide
  rw [htext, spans_cons, hround, spans_nil]

theorem spans_italics :
    spans (ascii "_a__b_") =
      [.italic underscore (ascii "a"), .italic underscore (ascii "b")] := by
  have htext : ascii "_a__b_" =
      underscore :: [0x61, underscore, underscore, 0x62, underscore] := by decide
  have hfirst : round underscore [0x61, underscore, underscore, 0x62, underscore] =
      (.italic underscore (ascii "a"), underscore :: [0x62, underscore]) := by decide
  have hsecond : round underscore [0x62, underscore] =
      (.italic underscore (ascii "b"), []) := by decide
  rw [htext, spans_cons, hfirst, spans_cons, hsecond, spans_nil]

/-- A fence that stays open, and two italic pieces side by side, whose marks are read as one of
underlined text: neither result can be read at all. -/
theorem markdown_unread :
    (parse [] (toMarkdownV2 (ascii "```x")) = none ∧
      ¬ Right (ascii "```x") (toMarkdownV2 (ascii "```x"))) ∧
    parse [] (toMarkdownV2 (ascii "_a__b_")) = none ∧
      ¬ Right (ascii "_a__b_") (toMarkdownV2 (ascii "_a__b_")) := by
  have hfence : parse [] (toMarkdownV2 (ascii "```x")) = none := by
    refine ((reads_iff (ascii "```x")).1 false).2 fun h => ?_
    rw [spans_fence] at h
    cases h.1 _ List.mem_cons_self
  have hitalics : parse [] (toMarkdownV2 (ascii "_a__b_")) = none := by
    refine ((reads_iff (ascii "_a__b_")).1 false).2 fun h => ?_
    rw [spans_italics] at h
    exact absurd h.2 (by decide)
  exact ⟨⟨hfence, fun h => Option.some_ne_none _ (h.symm.trans hfence)⟩,
    hitalics, fun h => Option.some_ne_none _ (h.symm.trans hitalics)⟩

end Markdown
end Channels
end TigerClaw
