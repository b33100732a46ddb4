import Mathlib.Data.List.Basic
import Mathlib.Data.Rat.Floor
import TigerClaw.Basic
import TigerClaw.Library.ChainParser
import TigerClaw.Library.Digits

/-!
# The calculator

`src/cli/commands/live_runner.zig`: `runCalculate` and its `ExprParser`, over exact rationals.

* `parsePrimary`, `parseFactor`, `parseTerm`, `parseExpr`, `runCalculate`: the code.
* `Sentence`: the grammar with its values, grouped to the left; `repeated` lets a factor have more
  than one minus sign.
* `reads_primary`, `reads_factor`, `reads_expr`: what each of them reads.
* `runCalculate_eq_ok_iff`: the code reads the grammar with repeated minus signs.
* `doubled`, `calculate_iff`: it reads the grammar of its doc exactly where no factor has two.
-/

namespace TigerClaw
namespace Cli

namespace Calculate

open ChainParser (Parser Reads Blanks Chain chain skip)
open Digits (isDigit)

inductive ParseError where
  | unexpectedEnd
  | unmatchedParen
  | expectedNumber
  | invalidNumber
  | divisionByZero
  | trailingInput
  /-- Of the model alone. -/
  | outOfFuel
  deriving DecidableEq

def isBlank (c : UInt8) : Bool := c = 0x20 || c = 0x09

def numberChar (c : UInt8) : Bool := isDigit c || c = 0x2E

/-! ## Numbers -/

/-- The number that the digits spell. -/
def digitsValue (ds : Bytes) : ℕ := ds.foldl (fun n c => 10 * n + (c.toNat - 48)) 0

/-- `std.fmt.parseFloat` on digits and dots, as an exact number. -/
def parseFloat (text : Bytes) : Option ℚ :=
  let whole := text.takeWhile isDigit
  match text.dropWhile isDigit with
  | [] => if whole = [] then none else some (digitsValue whole)
  | _ :: frac =>
    if frac.all isDigit ∧ (whole ≠ [] ∨ frac ≠ []) then
      some (digitsValue (whole ++ frac) / 10 ^ frac.length)
    else none

/-! ## The parser -/

/-- `@mod`: the remainder has the sign of the divisor. -/
def floorMod (a b : ℚ) : ℚ := a - b * ⌊a / b⌋

def addOps (c : UInt8) : Option (ℚ → ℚ → Except ParseError ℚ) :=
  if c = 0x2B then some fun a b => .ok (a + b)
  else if c = 0x2D then some fun a b => .ok (a - b)
  else none

def mulOps (c : UInt8) : Option (ℚ → ℚ → Except ParseError ℚ) :=
  if c = 0x2A then some fun a b => .ok (a * b)
  else if c = 0x2F then some fun a b => if b = 0 then .error .divisionByZero else .ok (a / b)
  else if c = 0x25 then some fun a b => if b = 0 then .error .divisionByZero else .ok (floorMod a b)
  else none

abbrev ExprParser : Type := Parser UInt8 ℚ ParseError

def parsePrimary (parseExpr : ExprParser) : ExprParser := fun s =>
  match skip isBlank s with
  | [] => .error .unexpectedEnd
  | c :: rest =>
    if c = 0x28 then
      match parseExpr rest with
      | .error e => .error e
      | .ok (v, rest) =>
        match skip isBlank rest with
        | [] => .error .unmatchedParen
        | c :: rest => if c ≠ 0x29 then .error .unmatchedParen else .ok (v, rest)
    else
      let text := (c :: rest).takeWhile numberChar
      if text = [] then .error .expectedNumber
      else
        match parseFloat text with
        | none => .error .invalidNumber
        | some v => .ok (v, (c :: rest).dropWhile numberChar)

def parseFactor (primary : ExprParser) : ℕ → ExprParser
  | fuel, s =>
    match skip isBlank s with
    | [] => primary []
    | c :: rest =>
      if c = 0x2D then
        match fuel with
        | 0 => .error .outOfFuel
        | fuel + 1 =>
          match parseFactor primary fuel rest with
          | .error e => .error e
          | .ok (v, rest) => .ok (-v, rest)
      else primary (c :: rest)

def parseTerm (primary : ExprParser) : ExprParser :=
  chain isBlank (fun s => parseFactor primary s.length s) mulOps .outOfFuel

/-- With the depth of the parentheses that it goes into. -/
def parseExpr : ℕ → ExprParser
  | 0 => fun _ => .error .outOfFuel
  | depth + 1 => chain isBlank (parseTerm (parsePrimary (parseExpr depth))) addOps .outOfFuel

/-- The value of an expression. -/
def runCalculate (expression : Bytes) : Except ParseError ℚ :=
  match parseExpr (expression.length + 1) expression with
  | .error e => .error e
  | .ok (v, rest) => if skip isBlank rest ≠ [] then .error .trailingInput else .ok v

/-! ## The grammar -/

/-- The numbers: digits, perhaps with one dot. -/
inductive Number : Bytes → ℚ → Prop
  | whole {ds : Bytes} : ds ≠ [] → (∀ c ∈ ds, isDigit c = true) → Number ds (digitsValue ds)
  | fraction {ds frac : Bytes} : (∀ c ∈ ds, isDigit c = true) → (∀ c ∈ frac, isDigit c = true) →
      ds ≠ [] ∨ frac ≠ [] →
      Number (ds ++ 0x2E :: frac) (digitsValue (ds ++ frac) / 10 ^ frac.length)

inductive Category where
  | expr
  | term
  | factor
  | primary
  deriving DecidableEq

/-- The sentences and their values.  Blanks may stand in front of every token; a divisor is not
zero. -/
inductive Sentence (repeated : Bool) : Category → Bytes → ℚ → Prop
  | expr {c : Bytes} {v : ℚ} : Sentence repeated .term c v → Sentence repeated .expr c v
  | add {c bl t : Bytes} {a b : ℚ} : Sentence repeated .expr c a → Blanks isBlank bl →
      Sentence repeated .term t b → Sentence repeated .expr (c ++ (bl ++ 0x2B :: t)) (a + b)
  | sub {c bl t : Bytes} {a b : ℚ} : Sentence repeated .expr c a → Blanks isBlank bl →
      Sentence repeated .term t b → Sentence repeated .expr (c ++ (bl ++ 0x2D :: t)) (a - b)
  | term {c : Bytes} {v : ℚ} : Sentence repeated .factor c v → Sentence repeated .term c v
  | mul {c bl t : Bytes} {a b : ℚ} : Sentence repeated .term c a → Blanks isBlank bl →
      Sentence repeated .factor t b → Sentence repeated .term (c ++ (bl ++ 0x2A :: t)) (a * b)
  | div {c bl t : Bytes} {a b : ℚ} : Sentence repeated .term c a → Blanks isBlank bl →
      Sentence repeated .factor t b → b ≠ 0 →
      Sentence repeated .term (c ++ (bl ++ 0x2F :: t)) (a / b)
  | mod {c bl t : Bytes} {a b : ℚ} : Sentence repeated .term c a → Blanks isBlank bl →
      Sentence repeated .factor t b → b ≠ 0 →
      Sentence repeated .term (c ++ (bl ++ 0x25 :: t)) (floorMod a b)
  | factor {c : Bytes} {v : ℚ} : Sentence repeated .primary c v → Sentence repeated .factor c v
  | neg {bl c : Bytes} {v : ℚ} : Blanks isBlank bl → Sentence repeated .primary c v →
      Sentence repeated .factor (bl ++ 0x2D :: c) (-v)
  | negs {bl c : Bytes} {v : ℚ} : repeated = true → Blanks isBlank bl →
      Sentence repeated .factor c v → Sentence repeated .factor (bl ++ 0x2D :: c) (-v)
  | number {bl text : Bytes} {v : ℚ} : Blanks isBlank bl → Number text v →
      Sentence repeated .primary (bl ++ text) v
  | paren {bl e bl' : Bytes} {v : ℚ} : Blanks isBlank bl → Sentence repeated .expr e v →
      Blanks isBlank bl' → Sentence repeated .primary (bl ++ 0x28 :: (e ++ (bl' ++ [0x29]))) v

/-- A sentence, with the blanks behind it. -/
def Accepts (repeated : Bool) (s : Bytes) (v : ℚ) : Prop :=
  ∃ c bl, s = c ++ bl ∧ Blanks isBlank bl ∧ Sentence repeated .expr c v

/-! ## What a number is -/

theorem numberChar_of_isDigit {c : UInt8} (h : isDigit c = true) : numberChar c = true := by
  rw [numberChar, h, Bool.true_or]

theorem eq_dot {c : UInt8} (h : numberChar c = true) (hdigit : isDigit c = false) : c = 0x2E := by
  rw [numberChar, hdigit, Bool.false_or] at h
  exact of_decide_eq_true h

theorem Number.numberChar {text : Bytes} {v : ℚ} (h : Number text v) :
    ∀ c ∈ text, numberChar c = true := by
  intro c hc
  cases h with
  | whole _ hds => exact numberChar_of_isDigit (hds c hc)
  | fraction hds hfrac _ =>
    rcases List.mem_append.mp hc with hc | hc
    · exact numberChar_of_isDigit (hds c hc)
    · rcases List.mem_cons.mp hc with rfl | hc
      · rfl
      · exact numberChar_of_isDigit (hfrac c hc)

theorem Number.ne_nil {text : Bytes} {v : ℚ} (h : Number text v) : text ≠ [] := by
  cases h with
  | whole hne _ => exact hne
  | fraction _ _ _ => exact fun hnil => List.cons_ne_nil _ _ (List.append_eq_nil_iff.mp hnil).2

theorem parseFloat_whole {ds : Bytes} (hne : ds ≠ []) (hds : ∀ c ∈ ds, isDigit c = true) :
    parseFloat ds = some (digitsValue ds : ℚ) := by
  have htake : ds.takeWhile isDigit = ds := List.takeWhile_eq_self_iff.mpr hds
  have hdrop : ds.dropWhile isDigit = [] := List.dropWhile_eq_nil_iff.mpr hds
  simp only [parseFloat, htake, hdrop, if_neg hne]

theorem parseFloat_fraction {ds frac : Bytes} (hds : ∀ c ∈ ds, isDigit c = true) :
    parseFloat (ds ++ 0x2E :: frac) =
      if frac.all isDigit ∧ (ds ≠ [] ∨ frac ≠ []) then
        some ((digitsValue (ds ++ frac) : ℚ) / 10 ^ frac.length)
      else none := by
  have hdot : (isDigit 0x2E) = false := by decide
  have htake : (ds ++ 0x2E :: frac).takeWhile isDigit = ds := by
    rw [List.takeWhile_append_of_pos hds, List.takeWhile_cons_of_neg (by rw [hdot]; decide),
      List.append_nil]
  have hdrop : (ds ++ 0x2E :: frac).dropWhile isDigit = 0x2E :: frac := by
    rw [List.dropWhile_append_of_pos hds, List.dropWhile_cons_of_neg (by rw [hdot]; decide)]
  simp only [parseFloat, htake, hdrop]

/-- The digits in front, and what is behind them. -/
theorem exists_digits (text : Bytes) :
    ∃ ds tail, text = ds ++ tail ∧ (∀ c ∈ ds, isDigit c = true) ∧
      (tail.head?.all fun c => !isDigit c) = true := by
  refine ⟨text.takeWhile isDigit, text.dropWhile isDigit, List.takeWhile_append_dropWhile.symm,
    fun c => List.mem_takeWhile_imp, ?_⟩
  have hhead := List.head?_dropWhile_not isDigit text
  cases hdrop : text.dropWhile isDigit with
  | nil => rfl
  | cons c tail =>
    rw [hdrop] at hhead
    rw [List.head?_cons, Option.all_some, Bool.not_eq_true']
    exact hhead

/-- Digits and dots are read if they are a number. -/
theorem parseFloat_eq_some_iff {text : Bytes} (h : ∀ c ∈ text, numberChar c = true) {v : ℚ} :
    parseFloat text = some v ↔ Number text v := by
  refine ⟨fun hv => ?_, fun hv => ?_⟩
  · obtain ⟨ds, tail, rfl, hds, htail⟩ := exists_digits text
    cases tail with
    | nil =>
      rw [List.append_nil] at hv ⊢
      have hne : ds ≠ [] := by
        rintro rfl
        cases hv
      rw [parseFloat_whole hne hds] at hv
      cases hv
      exact .whole hne hds
    | cons c frac =>
      obtain rfl : c = 0x2E := eq_dot (h c (List.mem_append_right _ List.mem_cons_self))
        ((Bool.not_eq_true' _).mp htail)
      rw [parseFloat_fraction hds] at hv
      split at hv
      · next hfrac =>
        cases hv
        exact .fraction hds (List.all_eq_true.mp hfrac.1) hfrac.2
      · cases hv
  · cases hv with
    | whole hne hds => exact parseFloat_whole hne hds
    | fraction hds hfrac hne =>
      rw [parseFloat_fraction hds, if_pos ⟨List.all_eq_true.mpr hfrac, hne⟩]

/-! ## The grammar as chains -/

section Grammar

variable {repeated : Bool}

theorem addOps_eq_some {o : UInt8} {f : ℚ → ℚ → Except ParseError ℚ} (h : addOps o = some f) :
    (o = 0x2B ∧ f = fun a b => .ok (a + b)) ∨ (o = 0x2D ∧ f = fun a b => .ok (a - b)) := by
  rw [addOps] at h
  split_ifs at h with hadd hsub
  · exact .inl ⟨hadd, (Option.some.inj h).symm⟩
  · exact .inr ⟨hsub, (Option.some.inj h).symm⟩

theorem mulOps_eq_some {o : UInt8} {f : ℚ → ℚ → Except ParseError ℚ} (h : mulOps o = some f) :
    (o = 0x2A ∧ f = fun a b => .ok (a * b)) ∨
      (o = 0x2F ∧ f = fun a b => if b = 0 then .error .divisionByZero else .ok (a / b)) ∨
      (o = 0x25 ∧ f = fun a b => if b = 0 then .error .divisionByZero else .ok (floorMod a b)) := by
  rw [mulOps] at h
  split_ifs at h with hmul hdiv hmod
  · exact .inl ⟨hmul, (Option.some.inj h).symm⟩
  · exact .inr (.inl ⟨hdiv, (Option.some.inj h).symm⟩)
  · exact .inr (.inr ⟨hmod, (Option.some.inj h).symm⟩)

theorem ok_of_divisor {b u v : ℚ}
    (h : (if b = 0 then Except.error ParseError.divisionByZero else Except.ok u) = .ok v) :
    b ≠ 0 ∧ u = v := by
  split_ifs at h with hb
  exact ⟨hb, Except.ok.inj h⟩

theorem sentence_expr :
    Sentence repeated .expr = Chain isBlank addOps (Sentence repeated .term) := by
  funext c v
  refine propext ⟨fun h => ?_, fun h => ?_⟩
  · generalize hcat : Category.expr = cat at h
    induction h with
    | expr h => exact .one h
    | add _ hbl ht ih _ => exact .more (ih hcat) hbl rfl ht rfl
    | sub _ hbl ht ih _ => exact .more (ih hcat) hbl rfl ht rfl
    | _ => cases hcat
  · induction h with
    | one h => exact .expr h
    | more _ hbl ho ht hf ih =>
      obtain ⟨rfl, rfl⟩ | ⟨rfl, rfl⟩ := addOps_eq_some ho
      · cases hf
        exact .add ih hbl ht
      · cases hf
        exact .sub ih hbl ht

theorem sentence_term :
    Sentence repeated .term = Chain isBlank mulOps (Sentence repeated .factor) := by
  funext c v
  refine propext ⟨fun h => ?_, fun h => ?_⟩
  · generalize hcat : Category.term = cat at h
    induction h with
    | term h => exact .one h
    | mul _ hbl ht ih _ => exact .more (ih hcat) hbl rfl ht rfl
    | div _ hbl ht hb ih _ => exact .more (ih hcat) hbl rfl ht (if_neg hb)
    | mod _ hbl ht hb ih _ => exact .more (ih hcat) hbl rfl ht (if_neg hb)
    | _ => cases hcat
  · induction h with
    | one h => exact .term h
    | more _ hbl ho ht hf ih =>
      obtain ⟨rfl, rfl⟩ | ⟨rfl, rfl⟩ | ⟨rfl, rfl⟩ := mulOps_eq_some ho
      · cases hf
        exact .mul ih hbl ht
      · obtain ⟨hb, rfl⟩ := ok_of_divisor hf
        exact .div ih hbl ht hb
      · obtain ⟨hb, rfl⟩ := ok_of_divisor hf
        exact .mod ih hbl ht hb

/-- How a primary begins. -/
theorem Sentence.exists_head {c : Bytes} {v : ℚ} (h : Sentence repeated .primary c v) :
    ∃ bl x t, c = bl ++ x :: t ∧ Blanks isBlank bl ∧ Sentence repeated .primary (x :: t) v ∧
      (x = 0x28 ∨ numberChar x = true) := by
  cases h with
  | @number bl text _ hbl hnumber =>
    obtain ⟨x, t, rfl⟩ := List.exists_cons_of_ne_nil hnumber.ne_nil
    exact ⟨bl, x, t, rfl, hbl, .number ChainParser.blanks_nil hnumber,
      .inr (hnumber.numberChar x List.mem_cons_self)⟩
  | paren hbl he hbl' => exact ⟨_, _, _, rfl, hbl, .paren ChainParser.blanks_nil he hbl', .inl rfl⟩

theorem Sentence.blanks {c bl : Bytes} {v : ℚ} (hbl : Blanks isBlank bl)
    (h : Sentence repeated .primary c v) : Sentence repeated .primary (bl ++ c) v := by
  cases h with
  | number hbl' hnumber =>
    rw [← List.append_assoc]
    exact .number (ChainParser.blanks_append hbl hbl') hnumber
  | paren hbl' he hbl'' =>
    rw [← List.append_assoc]
    exact .paren (ChainParser.blanks_append hbl hbl') he hbl''

end Grammar

/-! ## What is read -/

section Read

variable {parse : ExprParser} {n : ℕ}

/-- What may stand behind a number, and so behind a primary and a factor. -/
def NumberEnds (rest : Bytes) : Prop := ∀ c r, rest = c :: r → numberChar c = false

def TermEnds (rest : Bytes) : Prop :=
  NumberEnds rest ∧ ∀ o r, skip isBlank rest = o :: r → mulOps o = none

def ExprEnds (rest : Bytes) : Prop :=
  TermEnds rest ∧ ∀ o r, skip isBlank rest = o :: r → addOps o = none

theorem not_blank_of_numberChar {c : UInt8} (h : numberChar c = true) : isBlank c = false := by
  by_contra hblank
  have hb : c = 0x20 ∨ c = 0x09 := by
    simpa only [isBlank, Bool.or_eq_true, decide_eq_true_eq, Bool.not_eq_false] using hblank
  rcases hb with rfl | rfl <;> exact absurd h (by decide)

theorem not_numberChar_of_isBlank {c : UInt8} (h : isBlank c = true) : numberChar c = false := by
  by_contra hnumber
  rw [not_blank_of_numberChar ((Bool.not_eq_false _).mp hnumber)] at h
  exact Bool.false_ne_true h

theorem numberEnds_blanks {bl t : Bytes} {o : UInt8} (hbl : Blanks isBlank bl)
    (ho : numberChar o = false) : NumberEnds (bl ++ o :: t) := by
  intro c r h
  cases bl with
  | nil =>
    cases h
    exact ho
  | cons b bl =>
    cases h
    exact not_numberChar_of_isBlank (hbl c List.mem_cons_self)

/-- A closing parenthesis ends an expression. -/
theorem exprEnds_paren {bl t : Bytes} (hbl : Blanks isBlank bl) : ExprEnds (bl ++ 0x29 :: t) := by
  have hskip : skip isBlank (bl ++ 0x29 :: t) = 0x29 :: t :=
    ChainParser.skip_append_cons hbl rfl t
  refine ⟨⟨numberEnds_blanks hbl rfl, fun o r h => ?_⟩, fun o r h => ?_⟩
  all_goals
    rw [hskip] at h
    cases h
    rfl

theorem exprEnds_blanks {bl : Bytes} (hbl : Blanks isBlank bl) : ExprEnds bl := by
  have hskip : skip isBlank bl = [] := List.dropWhile_eq_nil_iff.mpr hbl
  refine ⟨⟨?_, fun o r h => ?_⟩, fun o r h => ?_⟩
  · rintro c r rfl
    exact not_numberChar_of_isBlank (hbl c List.mem_cons_self)
  all_goals
    rw [hskip] at h
    cases h

theorem parsePrimary_paren {s r : Bytes} (h : skip isBlank s = 0x28 :: r) :
    parsePrimary parse s =
      match parse r with
      | .error e => .error e
      | .ok (v, rest) =>
        match skip isBlank rest with
        | [] => .error .unmatchedParen
        | c :: rest => if c ≠ 0x29 then .error .unmatchedParen else .ok (v, rest) := by
  rw [parsePrimary, h]
  dsimp only
  rw [if_pos rfl]

theorem parsePrimary_number {s r : Bytes} {c : UInt8} (h : skip isBlank s = c :: r)
    (hc : c ≠ 0x28) :
    parsePrimary parse s =
      if (c :: r).takeWhile numberChar = [] then .error .expectedNumber
      else
        match parseFloat ((c :: r).takeWhile numberChar) with
        | none => .error .invalidNumber
        | some v => .ok (v, (c :: r).dropWhile numberChar) := by
  rw [parsePrimary, h]
  dsimp only
  rw [if_neg hc]

/-- **How a primary is read**: parentheses around an expression, or a number. -/
theorem parsePrimary_cases {s rest : Bytes} {v : ℚ} (h : parsePrimary parse s = .ok (v, rest)) :
    (∃ r r', skip isBlank s = 0x28 :: r ∧ parse r = .ok (v, r') ∧
        skip isBlank r' = 0x29 :: rest) ∨
      ∃ text, skip isBlank s = text ++ rest ∧ Number text v := by
  cases hskip : skip isBlank s with
  | nil =>
    rw [parsePrimary, hskip] at h
    cases h
  | cons c r =>
    by_cases hc : c = 0x28
    · subst hc
      rw [parsePrimary_paren hskip] at h
      cases hparse : parse r with
      | error e =>
        rw [hparse] at h
        cases h
      | ok p =>
        obtain ⟨w, r'⟩ := p
        rw [hparse] at h
        dsimp only at h
        cases hclose : skip isBlank r' with
        | nil =>
          rw [hclose] at h
          cases h
        | cons d r'' =>
          rw [hclose] at h
          dsimp only at h
          split_ifs at h with hd
          cases h
          exact .inl ⟨r, r', rfl, hparse, (not_not.mp hd) ▸ hclose⟩
    · rw [parsePrimary_number hskip hc] at h
      split_ifs at h with htext
      cases hfloat : parseFloat ((c :: r).takeWhile numberChar) with
      | none =>
        rw [hfloat] at h
        cases h
      | some w =>
        rw [hfloat] at h
        cases h
        exact .inr ⟨_, List.takeWhile_append_dropWhile.symm,
          (parseFloat_eq_some_iff fun _ => List.mem_takeWhile_imp).mp hfloat⟩

/-- A primary is read if the expressions in its parentheses are. -/
theorem reads_primary
    (hparse : ∀ m < n, Reads isBlank parse (Sentence true .expr) ExprEnds .outOfFuel m) :
    Reads isBlank (parsePrimary parse) (Sentence true .primary) NumberEnds .outOfFuel n where
  sound s v rest hs h := by
    obtain ⟨bl, hbs, hbl⟩ := @ChainParser.exists_blanks _ isBlank s
    obtain ⟨r, r', hskip, hr, hclose⟩ | ⟨text, hskip, hnumber⟩ := parsePrimary_cases h
    · have hlength := @ChainParser.length_skip_le _ isBlank s
      rw [hskip, List.length_cons] at hlength
      obtain ⟨e, be, hre, hbe, he⟩ :=
        (hparse r.length (by omega)).sound r v r' (Nat.le_refl _) hr
      obtain ⟨bc, hbc, hblanks⟩ := @ChainParser.exists_blanks _ isBlank r'
      refine ⟨_, [], ?_, ChainParser.blanks_nil,
        .paren hbl he (ChainParser.blanks_append hbe hblanks)⟩
      rw [hbs, hskip, hre, hbc, hclose]
      simp only [List.append_assoc, List.cons_append, List.nil_append]
    · exact ⟨bl ++ text, [], by rw [hbs, hskip, List.append_assoc, List.nil_append],
        ChainParser.blanks_nil, .number hbl hnumber⟩
  complete c v rest hn hc hrest := by
    refine ⟨rest, ?_, List.suffix_rfl, rfl⟩
    cases hc with
    | @number bl text _ hbl hnumber =>
      obtain ⟨x, t, rfl⟩ := List.exists_cons_of_ne_nil hnumber.ne_nil
      have hx : numberChar x = true := hnumber.numberChar x List.mem_cons_self
      have hskip : skip isBlank (bl ++ x :: t ++ rest) = x :: (t ++ rest) := by
        rw [List.append_assoc, List.cons_append,
          ChainParser.skip_append_cons hbl (not_blank_of_numberChar hx)]
      have hne : x ≠ 0x28 := by
        rintro rfl
        exact absurd hx (by decide)
      have hstop : (rest.takeWhile numberChar) = [] ∧ rest.dropWhile numberChar = rest := by
        cases rest with
        | nil => exact ⟨rfl, rfl⟩
        | cons d rest =>
          have hd := hrest d rest rfl
          exact ⟨List.takeWhile_cons_of_neg (by rw [hd]; exact Bool.false_ne_true),
            List.dropWhile_cons_of_neg (by rw [hd]; exact Bool.false_ne_true)⟩
      have htake : (x :: (t ++ rest)).takeWhile numberChar = x :: t := by
        rw [← List.cons_append, List.takeWhile_append_of_pos hnumber.numberChar, hstop.1,
          List.append_nil]
      have hdrop : (x :: (t ++ rest)).dropWhile numberChar = rest := by
        rw [← List.cons_append, List.dropWhile_append_of_pos hnumber.numberChar, hstop.2]
      rw [parsePrimary_number hskip hne, htake, hdrop, if_neg (List.cons_ne_nil x t),
        (parseFloat_eq_some_iff hnumber.numberChar).mpr hnumber]
    | @paren bl e bl' _ hbl he hbl' =>
      have htext : bl ++ 0x28 :: (e ++ (bl' ++ [0x29])) ++ rest =
          bl ++ 0x28 :: (e ++ (bl' ++ 0x29 :: rest)) := by
        simp only [List.append_assoc, List.cons_append, List.nil_append]
      rw [htext] at hn ⊢
      have hshort : (e ++ (bl' ++ 0x29 :: rest)).length < n := by
        simp only [List.length_append, List.length_cons] at hn ⊢
        omega
      obtain ⟨r', hr, -, hclose⟩ := (hparse _ hshort).complete e v (bl' ++ 0x29 :: rest)
        (Nat.le_refl _) he (exprEnds_paren hbl')
      rw [ChainParser.skip_append_cons hbl' rfl] at hclose
      rw [parsePrimary_paren (ChainParser.skip_append_cons hbl rfl _), hr]
      dsimp only
      rw [hclose]
      exact if_neg (not_not.mpr rfl)
  total s hs := by
    cases hskip : skip isBlank s with
    | nil =>
      rw [parsePrimary, hskip]
      exact nofun
    | cons c r =>
      by_cases hc : c = 0x28
      · subst hc
        have hlength := @ChainParser.length_skip_le _ isBlank s
        rw [hskip, List.length_cons] at hlength
        have htotal := (hparse r.length (by omega)).total r (Nat.le_refl _)
        rw [parsePrimary_paren hskip]
        cases hr : parse r with
        | error e =>
          intro herror
          exact htotal (hr.trans (congrArg _ (Except.error.inj herror)))
        | ok p =>
          dsimp only
          cases skip isBlank p.2 with
          | nil => exact nofun
          | cons d r' =>
            dsimp only
            split_ifs <;> exact nofun
      · rw [parsePrimary_number hskip hc]
        split_ifs
        · exact nofun
        · cases parseFloat ((c :: r).takeWhile numberChar) <;> exact nofun

section Factor

variable {primary : ExprParser}

theorem parseFactor_minus {fuel : ℕ} {s r : Bytes} (h : skip isBlank s = 0x2D :: r) :
    parseFactor primary (fuel + 1) s =
      match parseFactor primary fuel r with
      | .error e => .error e
      | .ok (v, rest) => .ok (-v, rest) := by
  rw [parseFactor, h]
  dsimp only
  rw [if_pos rfl]

theorem parseFactor_primary {fuel : ℕ} {s : Bytes} (h : ∀ r, skip isBlank s ≠ 0x2D :: r) :
    parseFactor primary fuel s = primary (skip isBlank s) := by
  rw [parseFactor]
  cases hskip : skip isBlank s with
  | nil => rfl
  | cons c r =>
    dsimp only
    refine if_neg fun hc => h r ?_
    rw [hskip, hc]

/-- A primary is no minus sign. -/
theorem Sentence.parseFactor {c : Bytes} {v : ℚ} (h : Sentence true .primary c v) (rest : Bytes) :
    ∃ d, (∀ r, skip isBlank (c ++ rest) ≠ 0x2D :: r) ∧ skip isBlank (c ++ rest) = d ++ rest ∧
      d.length ≤ c.length ∧ Sentence true .primary d v := by
  obtain ⟨bl, x, t, rfl, hbl, hd, hx⟩ := h.exists_head
  have hblank : isBlank x = false := by
    rcases hx with rfl | hx
    · rfl
    · exact not_blank_of_numberChar hx
  have hskip : skip isBlank (bl ++ x :: t ++ rest) = x :: (t ++ rest) := by
    rw [List.append_assoc, List.cons_append, ChainParser.skip_append_cons hbl hblank]
  refine ⟨x :: t, fun r hr => ?_, hskip, by rw [List.length_append]; omega, hd⟩
  rw [hskip] at hr
  cases hr
  rcases hx with hx | hx <;> exact absurd hx (by decide)

/-- **How a factor is read**: a minus sign and a factor, or a primary. -/
theorem parseFactor_cases {fuel : ℕ} {s rest : Bytes} {v : ℚ}
    (h : parseFactor primary fuel s = .ok (v, rest)) :
    (∃ m r w, fuel = m + 1 ∧ skip isBlank s = 0x2D :: r ∧ v = -w ∧
        parseFactor primary m r = .ok (w, rest)) ∨
      primary (skip isBlank s) = .ok (v, rest) := by
  by_cases hminus : ∃ r, skip isBlank s = 0x2D :: r
  · obtain ⟨r, hskip⟩ := hminus
    cases fuel with
    | zero =>
      rw [parseFactor, hskip] at h
      cases h
    | succ m =>
      rw [parseFactor_minus hskip] at h
      cases hr : parseFactor primary m r with
      | error e =>
        rw [hr] at h
        cases h
      | ok p =>
        rw [hr] at h
        cases h
        exact .inl ⟨m, r, p.1, rfl, hskip, rfl, hr⟩
  · rw [parseFactor_primary (not_exists.mp hminus)] at h
    exact .inr h

section Reads

variable (hprimary : Reads isBlank primary (Sentence true .primary) NumberEnds .outOfFuel n)

include hprimary

theorem parseFactor_sound {fuel : ℕ} {s rest : Bytes} {v : ℚ} (hs : s.length ≤ n)
    (h : parseFactor primary fuel s = .ok (v, rest)) :
    ∃ c bl, s = c ++ (bl ++ rest) ∧ Blanks isBlank bl ∧ Sentence true .factor c v := by
  induction fuel using Nat.strongRecOn generalizing s v with
  | ind fuel ih =>
    obtain ⟨bl, hbs, hbl⟩ := @ChainParser.exists_blanks _ isBlank s
    have hlength := @ChainParser.length_skip_le _ isBlank s
    obtain ⟨m, r, w, rfl, hskip, rfl, hr⟩ | hp := parseFactor_cases h
    · rw [hskip, List.length_cons] at hlength
      obtain ⟨c, bl', hc, hbl', hsentence⟩ := ih m (Nat.lt_succ_self m) (by omega) hr
      refine ⟨bl ++ 0x2D :: c, bl', ?_, hbl', .negs rfl hbl hsentence⟩
      rw [List.append_assoc, List.cons_append, ← hc, ← hskip, ← hbs]
    · obtain ⟨c, bl', hc, hbl', hsentence⟩ := hprimary.sound _ v rest (by omega) hp
      exact ⟨bl ++ c, bl', by rw [List.append_assoc, ← hc, ← hbs], hbl',
        .factor (hsentence.blanks hbl)⟩

theorem parseFactor_of_primary {c rest : Bytes} {v : ℚ} (hn : (c ++ rest).length ≤ n)
    (hc : Sentence true .primary c v) (hrest : NumberEnds rest) (fuel : ℕ) :
    ∃ rest', parseFactor primary fuel (c ++ rest) = .ok (v, rest') ∧ rest' <:+ rest ∧
      skip isBlank rest' = skip isBlank rest := by
  obtain ⟨d, hminus, hskip, hlength, hd⟩ := hc.parseFactor rest
  rw [parseFactor_primary hminus, hskip]
  refine hprimary.complete d v rest ?_ hd hrest
  rw [List.length_append] at hn ⊢
  omega

theorem parseFactor_complete {c rest : Bytes} {v : ℚ} (hn : (c ++ rest).length ≤ n)
    (hc : Sentence true .factor c v) (hrest : NumberEnds rest) {fuel : ℕ}
    (hfuel : (c ++ rest).length ≤ fuel) :
    ∃ rest', parseFactor primary fuel (c ++ rest) = .ok (v, rest') ∧ rest' <:+ rest ∧
      skip isBlank rest' = skip isBlank rest := by
  induction fuel generalizing c v with
  | zero =>
    obtain ⟨rfl, -⟩ := List.append_eq_nil_iff.mp (List.length_eq_zero_iff.mp (Nat.le_zero.mp hfuel))
    generalize hnil : ([] : Bytes) = c at hc
    cases hc with
    | factor hc => exact hnil ▸ parseFactor_of_primary hprimary (hnil ▸ hn) hc hrest 0
    | neg => exact absurd hnil.symm (by simp)
    | negs => exact absurd hnil.symm (by simp)
  | succ fuel ih =>
    have hminus : ∀ (bl d : Bytes), Blanks isBlank bl → c = bl ++ 0x2D :: d →
        skip isBlank (c ++ rest) = 0x2D :: (d ++ rest) ∧
          (d ++ rest).length < (c ++ rest).length := by
      rintro bl d hbl rfl
      rw [List.append_assoc, List.cons_append]
      refine ⟨ChainParser.skip_append_cons hbl rfl _, ?_⟩
      simp only [List.length_append, List.length_cons]
      omega
    cases hc with
    | factor hc => exact parseFactor_of_primary hprimary hn hc hrest _
    | @neg bl d w hbl hd =>
      obtain ⟨hskip, hlength⟩ := hminus bl d hbl rfl
      obtain ⟨rest', hr, hrest'⟩ := ih (by omega) (.factor hd) (by omega)
      exact ⟨rest', by rw [parseFactor_minus hskip, hr], hrest'⟩
    | @negs bl d w _ hbl hd =>
      obtain ⟨hskip, hlength⟩ := hminus bl d hbl rfl
      obtain ⟨rest', hr, hrest'⟩ := ih (by omega) hd (by omega)
      exact ⟨rest', by rw [parseFactor_minus hskip, hr], hrest'⟩

theorem parseFactor_total {s : Bytes} (hs : s.length ≤ n) {fuel : ℕ} (hfuel : s.length ≤ fuel) :
    parseFactor primary fuel s ≠ .error .outOfFuel := by
  induction fuel generalizing s with
  | zero =>
    obtain rfl := List.length_eq_zero_iff.mp (Nat.le_zero.mp hfuel)
    exact hprimary.total [] (Nat.zero_le n)
  | succ fuel ih =>
    have hlength := @ChainParser.length_skip_le _ isBlank s
    by_cases hminus : ∃ r, skip isBlank s = 0x2D :: r
    · obtain ⟨r, hskip⟩ := hminus
      rw [hskip, List.length_cons] at hlength
      have htotal := @ih r (by omega) (by omega)
      rw [parseFactor_minus hskip]
      cases hr : parseFactor primary fuel r with
      | error e =>
        intro herror
        exact htotal (hr.trans (congrArg _ (Except.error.inj herror)))
      | ok p => exact nofun
    · rw [parseFactor_primary (not_exists.mp hminus)]
      exact hprimary.total _ (by omega)

theorem reads_factor :
    Reads isBlank (fun s => parseFactor primary s.length s) (Sentence true .factor) NumberEnds
      .outOfFuel n where
  sound _ _ _ hs h := parseFactor_sound hprimary hs h
  complete _ _ _ hn hc hrest := parseFactor_complete hprimary hn hc hrest (Nat.le_refl _)
  total _ hs := parseFactor_total hprimary hs (Nat.le_refl _)

theorem reads_term :
    Reads isBlank (parseTerm primary) (Sentence true .term) TermEnds .outOfFuel n := by
  have hop : ∀ o f, mulOps o = some f → numberChar o = false ∧ isBlank o = false := by
    intro o f ho
    obtain ⟨rfl, -⟩ | ⟨rfl, -⟩ | ⟨rfl, -⟩ := mulOps_eq_some ho <;> exact ⟨rfl, rfl⟩
  rw [sentence_term]
  refine (reads_factor hprimary).chain (fun o f bl t ho hbl => numberEnds_blanks hbl (hop o f ho).1)
    (fun o f ho => (hop o f ho).2) fun o f a b ho => ?_
  obtain ⟨-, rfl⟩ | ⟨-, rfl⟩ | ⟨-, rfl⟩ := mulOps_eq_some ho <;> dsimp only
  · exact nofun
  · split_ifs <;> exact nofun
  · split_ifs <;> exact nofun

end Reads

end Factor

theorem reads_chain
    (hparse : ∀ m < n, Reads isBlank parse (Sentence true .expr) ExprEnds .outOfFuel m) :
    Reads isBlank (chain isBlank (parseTerm (parsePrimary parse)) addOps .outOfFuel)
      (Sentence true .expr) ExprEnds .outOfFuel n := by
  have hop : ∀ o f, addOps o = some f →
      numberChar o = false ∧ isBlank o = false ∧ mulOps o = none := by
    intro o f ho
    obtain ⟨rfl, -⟩ | ⟨rfl, -⟩ := addOps_eq_some ho <;> exact ⟨rfl, rfl, rfl⟩
  rw [sentence_expr]
  refine (reads_term (reads_primary hparse)).chain (fun o f bl t ho hbl => ?_)
    (fun o f ho => (hop o f ho).2.1) fun o f a b ho => ?_
  · refine ⟨numberEnds_blanks hbl (hop o f ho).1, fun x r h => ?_⟩
    rw [ChainParser.skip_append_cons hbl (hop o f ho).2.1] at h
    cases h
    exact (hop o f ho).2.2
  · obtain ⟨-, rfl⟩ | ⟨-, rfl⟩ := addOps_eq_some ho <;> exact nofun

/-- **An expression is read**, with enough depth for its parentheses. -/
theorem reads_expr (depth : ℕ) :
    Reads isBlank (parseExpr (depth + 1)) (Sentence true .expr) ExprEnds .outOfFuel depth := by
  induction depth with
  | zero => exact reads_chain fun m hm => absurd hm (Nat.not_lt_zero m)
  | succ depth ih => exact reads_chain fun m hm => ih.mono (Nat.lt_succ_iff.mp hm)

/-- **The code reads the sentences with repeated minus signs**, and comes to an end. -/
theorem runCalculate_eq_ok_iff {s : Bytes} {v : ℚ} : runCalculate s = .ok v ↔ Accepts true s v := by
  have hreads := reads_expr s.length
  refine ⟨fun h => ?_, ?_⟩
  · rw [runCalculate] at h
    cases hexpr : parseExpr (s.length + 1) s with
    | error e =>
      rw [hexpr] at h
      cases h
    | ok p =>
      obtain ⟨w, rest⟩ := p
      rw [hexpr] at h
      dsimp only at h
      split_ifs at h with hrest
      cases h
      obtain ⟨c, bl, hc, hbl, hsentence⟩ := hreads.sound s v rest (Nat.le_refl _) hexpr
      obtain ⟨bl', hbl', hblanks⟩ := @ChainParser.exists_blanks _ isBlank rest
      rw [not_not.mp hrest, List.append_nil] at hbl'
      exact ⟨c, bl ++ rest, hc, ChainParser.blanks_append hbl (hbl' ▸ hblanks), hsentence⟩
  · rintro ⟨c, bl, rfl, hbl, hsentence⟩
    have hskip : skip isBlank bl = [] := List.dropWhile_eq_nil_iff.mpr hbl
    have hends : ExprEnds bl := exprEnds_blanks hbl
    obtain ⟨rest', hexpr, -, hrest'⟩ := hreads.complete c v bl (Nat.le_refl _) hsentence hends
    rw [runCalculate, hexpr]
    exact if_neg (not_not.mpr (hrest'.trans hskip))

/-- `7-2 -1`: the chains are grouped to the left. -/
example : runCalculate [0x37, 0x2D, 0x32, 0x20, 0x2D, 0x31] = .ok 4 := by decide +kernel

theorem runCalculate_ne_outOfFuel (s : Bytes) : runCalculate s ≠ .error .outOfFuel := by
  have htotal := (reads_expr s.length).total s (Nat.le_refl _)
  rw [runCalculate]
  cases hexpr : parseExpr (s.length + 1) s with
  | error e =>
    intro herror
    exact htotal (hexpr.trans (congrArg _ (Except.error.inj herror)))
  | ok p =>
    dsimp only
    split_ifs <;> exact nofun

end Read

/-! ## Two minus signs -/

/-- The text without its blanks. -/
def unblank (s : Bytes) : Bytes := s.filter fun c => !isBlank c

/-- What an operand may end with. -/
def closes (c : UInt8) : Bool := numberChar c || c = 0x29

/-- A factor with two minus signs: two of them where no operand is `closed`. -/
def doubled : Bool → Bytes → Bool
  | _, [] => false
  | closed, c :: t => (!closed && [0x2D, 0x2D].isPrefixOf (c :: t)) || doubled (closes c) t

theorem unblank_blanks {bl : Bytes} (h : Blanks isBlank bl) : unblank bl = [] :=
  List.filter_eq_nil_iff.mpr fun c hc => by rw [h c hc]; decide

theorem unblank_append (s t : Bytes) : unblank (s ++ t) = unblank s ++ unblank t :=
  List.filter_append s t

theorem unblank_cons {c : UInt8} (hc : isBlank c = false) (s : Bytes) :
    unblank (c :: s) = c :: unblank s :=
  List.filter_cons_of_pos (by rw [hc]; rfl)

theorem unblank_token {bl : Bytes} (h : Blanks isBlank bl) {c : UInt8} (hc : isBlank c = false)
    (s : Bytes) : unblank (bl ++ c :: s) = c :: unblank s := by
  rw [unblank_append, unblank_blanks h, unblank_cons hc, List.nil_append]

theorem unblank_number {text : Bytes} {v : ℚ} (h : Number text v) : unblank text = text :=
  List.filter_eq_self.mpr fun c hc => by
    rw [not_blank_of_numberChar (h.numberChar c hc)]
    rfl

theorem doubled_cons {closed : Bool} {c : UInt8} (h : c ≠ 0x2D) (t : Bytes) :
    doubled closed (c :: t) = doubled (closes c) t := by
  have hprefix : ([0x2D, 0x2D] : Bytes).isPrefixOf (c :: t) = false := by
    rw [List.isPrefixOf, beq_false_of_ne (Ne.symm h), Bool.false_and]
  rw [doubled, hprefix, Bool.and_false, Bool.false_or]

theorem doubled_closed (c : UInt8) (t : Bytes) : doubled true (c :: t) = doubled (closes c) t := by
  rw [doubled, Bool.not_true, Bool.false_and, Bool.false_or]

theorem doubled_number {text : Bytes} (h : ∀ c ∈ text, numberChar c = true) (closed : Bool) :
    doubled closed text = false := by
  induction text generalizing closed with
  | nil => rfl
  | cons c t ih =>
    have hc : c ≠ 0x2D := by
      rintro rfl
      exact absurd (h 0x2D List.mem_cons_self) (by decide)
    rw [doubled_cons hc]
    exact ih (fun d hd => h d (List.mem_cons_of_mem c hd)) _

/-- An operand that is closed hides its minus signs from what follows. -/
theorem doubled_append {x : UInt8} (hx : closes x = true) (pre t : Bytes) (closed : Bool) :
    doubled closed (pre ++ [x] ++ t) = (doubled closed (pre ++ [x]) || doubled true t) := by
  have hminus : x ≠ 0x2D := by
    rintro rfl
    exact absurd hx (by decide)
  induction pre generalizing closed with
  | nil =>
    rw [List.nil_append, List.singleton_append, doubled_cons hminus, doubled_cons hminus, hx]
    rfl
  | cons c pre ih =>
    have hprefix : ([0x2D, 0x2D] : Bytes).isPrefixOf (c :: (pre ++ [x] ++ t)) =
        ([0x2D, 0x2D] : Bytes).isPrefixOf (c :: (pre ++ [x])) := by
      cases pre <;> rfl
    rw [List.cons_append, List.cons_append, doubled, doubled, hprefix, ih, Bool.or_assoc]

theorem doubled_operator {x o : UInt8} (hx : closes x = true) (ho : closes o = false)
    (pre t : Bytes) (closed : Bool) :
    doubled closed (pre ++ [x] ++ o :: t) = (doubled closed (pre ++ [x]) || doubled false t) := by
  rw [doubled_append hx, doubled_closed, ho]

section Minus

variable {repeated : Bool} {cat : Category} {c : Bytes} {v : ℚ}

/-- A sentence ends with a number or with a parenthesis. -/
theorem Sentence.exists_last (h : Sentence repeated cat c v) :
    ∃ pre x, unblank c = pre ++ [x] ∧ closes x = true := by
  have hbehind : ∀ {a bl t : Bytes} {o : UInt8}, Blanks isBlank bl → isBlank o = false →
      (∃ pre x, unblank t = pre ++ [x] ∧ closes x = true) →
      ∃ pre x, unblank (a ++ (bl ++ o :: t)) = pre ++ [x] ∧ closes x = true := by
    rintro a bl t o hbl ho ⟨pre, x, ht, hx⟩
    refine ⟨unblank a ++ o :: pre, x, ?_, hx⟩
    rw [unblank_append, unblank_token hbl ho, ht, List.append_assoc, List.cons_append]
  induction h with
  | expr _ ih | term _ ih | factor _ ih => exact ih
  | add _ hbl _ _ ih | sub _ hbl _ _ ih | mul _ hbl _ _ ih => exact hbehind hbl rfl ih
  | div _ hbl _ _ _ ih | mod _ hbl _ _ _ ih => exact hbehind hbl rfl ih
  | neg hbl _ ih => exact @hbehind [] _ _ _ hbl rfl ih
  | negs _ hbl _ ih => exact @hbehind [] _ _ _ hbl rfl ih
  | number hbl hnumber =>
    obtain ⟨pre, x, htext⟩ := (List.eq_nil_or_concat' _).resolve_left hnumber.ne_nil
    refine ⟨pre, x, ?_, ?_⟩
    · rw [unblank_append, unblank_blanks hbl, unblank_number hnumber, htext, List.nil_append]
    · rw [closes, hnumber.numberChar x (htext ▸ List.mem_append_right _ List.mem_cons_self),
        Bool.true_or]
  | @paren bl e bl' _ hbl _ hbl' _ =>
    refine ⟨0x28 :: unblank e, 0x29, ?_, rfl⟩
    rw [unblank_token hbl rfl, unblank_append, unblank_token hbl' rfl]
    rfl

/-- Two operands with an operator between them have the double signs that the operands have. -/
theorem Sentence.doubled_append (h : Sentence repeated cat c v) {bl t : Bytes} {o : UInt8}
    (hbl : Blanks isBlank bl) (ho : isBlank o = false) (hclose : closes o = false) :
    doubled false (unblank (c ++ (bl ++ o :: t))) =
      (doubled false (unblank c) || doubled false (unblank t)) := by
  obtain ⟨pre, x, hc, hx⟩ := h.exists_last
  rw [unblank_append, unblank_token hbl ho, hc, doubled_operator hx hclose]

theorem doubled_paren {bl bl' : Bytes} (h : Sentence repeated cat c v) (hbl : Blanks isBlank bl)
    (hbl' : Blanks isBlank bl') :
    doubled false (unblank (bl ++ 0x28 :: (c ++ (bl' ++ [0x29])))) = doubled false (unblank c) := by
  obtain ⟨pre, x, hc, hx⟩ := h.exists_last
  have hopen : closes 0x28 = false := by decide
  have hclose : doubled true (unblank (bl' ++ [0x29])) = false := by
    rw [unblank_token hbl' rfl]
    rfl
  rw [unblank_token hbl rfl, doubled_cons (by decide), hopen, unblank_append, hc,
    Calculate.doubled_append hx, hclose, Bool.or_false]

/-- One minus sign in front of a primary. -/
theorem doubled_neg {bl : Bytes} (h : Sentence repeated .primary c v) (hbl : Blanks isBlank bl) :
    doubled false (unblank (bl ++ 0x2D :: c)) = doubled false (unblank c) := by
  obtain ⟨bl', x, t, rfl, hbl', -, hx⟩ := h.exists_head
  have hblank : isBlank x = false := hx.elim (fun h => h ▸ rfl) not_blank_of_numberChar
  have hminus : x ≠ 0x2D := by
    rintro rfl
    rcases hx with hx | hx <;> exact absurd hx (by decide)
  have hprefix : ([0x2D, 0x2D] : Bytes).isPrefixOf (0x2D :: x :: unblank t) = false := by
    rw [List.isPrefixOf, List.isPrefixOf, beq_false_of_ne (Ne.symm hminus), Bool.false_and,
      Bool.and_false]
  rw [unblank_token hbl rfl, unblank_token hbl' hblank, doubled, hprefix, Bool.and_false,
    Bool.false_or]
  rfl

/-- The sentences of the doc have no factor with two minus signs. -/
theorem Sentence.not_doubled (h : Sentence false cat c v) : doubled false (unblank c) = false := by
  induction h with
  | expr _ ih | term _ ih | factor _ ih => exact ih
  | add h hbl _ ih ih' | sub h hbl _ ih ih' | mul h hbl _ ih ih' =>
    rw [h.doubled_append hbl rfl (by decide), ih, ih']
    rfl
  | div h hbl _ _ ih ih' | mod h hbl _ _ ih ih' =>
    rw [h.doubled_append hbl rfl (by decide), ih, ih']
    rfl
  | neg hbl h ih => rw [doubled_neg h hbl, ih]
  | negs hrepeated => cases hrepeated
  | number hbl hnumber =>
    rw [unblank_append, unblank_blanks hbl, unblank_number hnumber, List.nil_append]
    exact doubled_number hnumber.numberChar false
  | paren hbl h hbl' ih => rw [doubled_paren h hbl hbl', ih]

/-- A sentence that has no factor with two minus signs is one of the doc. -/
theorem Sentence.of_not_doubled (h : Sentence true cat c v)
    (hdoubled : doubled false (unblank c) = false) : Sentence false cat c v := by
  induction h with
  | expr _ ih => exact .expr (ih hdoubled)
  | term _ ih => exact .term (ih hdoubled)
  | factor _ ih => exact .factor (ih hdoubled)
  | add h hbl _ ih ih' =>
    rw [h.doubled_append hbl rfl (by decide), Bool.or_eq_false_iff] at hdoubled
    exact .add (ih hdoubled.1) hbl (ih' hdoubled.2)
  | sub h hbl _ ih ih' =>
    rw [h.doubled_append hbl rfl (by decide), Bool.or_eq_false_iff] at hdoubled
    exact .sub (ih hdoubled.1) hbl (ih' hdoubled.2)
  | mul h hbl _ ih ih' =>
    rw [h.doubled_append hbl rfl (by decide), Bool.or_eq_false_iff] at hdoubled
    exact .mul (ih hdoubled.1) hbl (ih' hdoubled.2)
  | div h hbl _ hb ih ih' =>
    rw [h.doubled_append hbl rfl (by decide), Bool.or_eq_false_iff] at hdoubled
    exact .div (ih hdoubled.1) hbl (ih' hdoubled.2) hb
  | mod h hbl _ hb ih ih' =>
    rw [h.doubled_append hbl rfl (by decide), Bool.or_eq_false_iff] at hdoubled
    exact .mod (ih hdoubled.1) hbl (ih' hdoubled.2) hb
  | neg hbl h ih => exact .neg hbl (ih (doubled_neg h hbl ▸ hdoubled))
  | @negs bl c v _ hbl _ ih =>
    rw [unblank_token hbl rfl, doubled, Bool.or_eq_false_iff] at hdoubled
    -- The factor behind the sign has none of its own, or there would be two.
    cases ih hdoubled.2 with
    | factor h => exact .neg hbl h
    | neg hbl' h =>
      rw [unblank_token hbl' rfl] at hdoubled
      cases hdoubled.1
    | negs hrepeated => cases hrepeated
  | number hbl hnumber => exact .number hbl hnumber
  | paren hbl h hbl' ih => exact .paren hbl (ih (doubled_paren h hbl hbl' ▸ hdoubled)) hbl'

theorem Sentence.mono (h : Sentence false cat c v) : Sentence true cat c v := by
  induction h with
  | expr _ ih => exact .expr ih
  | term _ ih => exact .term ih
  | factor _ ih => exact .factor ih
  | add _ hbl _ ih ih' => exact .add ih hbl ih'
  | sub _ hbl _ ih ih' => exact .sub ih hbl ih'
  | mul _ hbl _ ih ih' => exact .mul ih hbl ih'
  | div _ hbl _ hb ih ih' => exact .div ih hbl ih' hb
  | mod _ hbl _ hb ih ih' => exact .mod ih hbl ih' hb
  | neg hbl _ ih => exact .neg hbl ih
  | negs hrepeated => cases hrepeated
  | number hbl hnumber => exact .number hbl hnumber
  | paren hbl _ hbl' ih => exact .paren hbl ih hbl'

theorem accepts_false_iff {s : Bytes} :
    Accepts false s v ↔ Accepts true s v ∧ doubled false (unblank s) = false := by
  refine ⟨?_, ?_⟩
  · rintro ⟨c, bl, rfl, hbl, h⟩
    refine ⟨⟨c, bl, rfl, hbl, h.mono⟩, ?_⟩
    rw [unblank_append, unblank_blanks hbl, List.append_nil]
    exact h.not_doubled
  · rintro ⟨⟨c, bl, rfl, hbl, h⟩, hdoubled⟩
    rw [unblank_append, unblank_blanks hbl, List.append_nil] at hdoubled
    exact ⟨c, bl, rfl, hbl, h.of_not_doubled hdoubled⟩

end Minus

/-- **The calculator reads the grammar of its doc, to the end**, except on the sentences that have
a factor with two minus signs: it takes those too. -/
theorem calculate_iff (s : Bytes) :
    ((∀ v, runCalculate s = .ok v ↔ Accepts false s v) ∧ runCalculate s ≠ .error .outOfFuel) ↔
      ¬((∃ v, Accepts true s v) ∧ doubled false (unblank s) = true) := by
  refine ⟨?_, fun h => ⟨fun v => ?_, runCalculate_ne_outOfFuel s⟩⟩
  · rintro ⟨hreads, -⟩ ⟨⟨v, hv⟩, hdoubled⟩
    have hfalse := (hreads v).mp (runCalculate_eq_ok_iff.mpr hv)
    rw [(accepts_false_iff.mp hfalse).2] at hdoubled
    exact Bool.false_ne_true hdoubled
  · rw [accepts_false_iff, runCalculate_eq_ok_iff]
    refine ⟨fun hv => ⟨hv, ?_⟩, fun hv => hv.1⟩
    exact (Bool.not_eq_true _).mp fun hdoubled => h ⟨⟨v, hv⟩, hdoubled⟩

/-- `--1` is read as one, and is no sentence of the doc. -/
theorem runCalculate_doubled :
    runCalculate [0x2D, 0x2D, 0x31] = .ok 1 ∧
      ¬∀ v, runCalculate [0x2D, 0x2D, 0x31] = .ok v ↔ Accepts false [0x2D, 0x2D, 0x31] v := by
  have hrun : runCalculate [0x2D, 0x2D, 0x31] = .ok 1 := by rfl
  refine ⟨hrun, fun h => ?_⟩
  exact absurd (accepts_false_iff.mp ((h 1).mp hrun)).2 (by decide)

/-- Behind an operand it is one operator and one sign. -/
example : doubled false (unblank [0x31, 0x2D, 0x20, 0x2D, 0x31]) = false := by decide

end Calculate

end Cli
end TigerClaw
