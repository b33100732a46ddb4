import TigerClaw.Library.Digits
import TigerClaw.Library.StepMachine

/-!
# The tokens of a JSON text

A scanner that reads one byte after another, for UTF-8 text without a byte order mark.  It decodes
the strings; numbers are kept as they are written.  Whether the tokens form a document is left to
the reader of the tokens.

* `Utf8.step`: the bytes of well-formed UTF-8.
* `Mode.step`, `scan`, `lex`: one byte, a text, and a whole text.
* `scan_append`: a text can be scanned in two parts.
* `step_brace`, `step_quote`: what a brace or a quote can do in any mode.
* `blank_of_scan_nil`: a text without a token is blank.
-/

namespace Json

open Digits (isDigit)

inductive Token where
  | objectBegin
  | objectEnd
  | arrayBegin
  | arrayEnd
  | colon
  | comma
  | string (s : List UInt8)
  | number (s : List UInt8)
  | bool (b : Bool)
  | null
  deriving DecidableEq

/-! ## UTF-8 -/

/-- Between characters, or what the next byte of a character has to rule out. -/
inductive Utf8 where
  | start
  | lastByte
  | secondToLastByte
  | secondToLastByteGuardAgainstOverlong
  | secondToLastByteGuardAgainstSurrogateHalf
  | thirdToLastByte
  | thirdToLastByteGuardAgainstOverlong
  | thirdToLastByteGuardAgainstTooLarge
  deriving DecidableEq

/-- The first byte of a character. -/
def Utf8.first (b : UInt8) : Option Utf8 :=
  if b < 0x80 then some .start
  else if b < 0xC2 then none
  else if b < 0xE0 then some .lastByte
  else if b = 0xE0 then some .secondToLastByteGuardAgainstOverlong
  else if b = 0xED then some .secondToLastByteGuardAgainstSurrogateHalf
  else if b < 0xF0 then some .secondToLastByte
  else if b = 0xF0 then some .thirdToLastByteGuardAgainstOverlong
  else if b < 0xF4 then some .thirdToLastByte
  else if b = 0xF4 then some .thirdToLastByteGuardAgainstTooLarge
  else none

/-- A byte between two bounds. -/
def Utf8.within (lo hi b : UInt8) (next : Utf8) : Option Utf8 :=
  if lo ≤ b ∧ b ≤ hi then some next else none

def Utf8.step : Utf8 → UInt8 → Option Utf8
  | .start, b => first b
  | .lastByte, b => within 0x80 0xBF b .start
  | .secondToLastByte, b => within 0x80 0xBF b .lastByte
  | .secondToLastByteGuardAgainstOverlong, b => within 0xA0 0xBF b .lastByte
  | .secondToLastByteGuardAgainstSurrogateHalf, b => within 0x80 0x9F b .lastByte
  | .thirdToLastByte, b => within 0x80 0xBF b .secondToLastByte
  | .thirdToLastByteGuardAgainstOverlong, b => within 0x90 0xBF b .secondToLastByte
  | .thirdToLastByteGuardAgainstTooLarge, b => within 0x80 0x8F b .secondToLastByte

/-- Well-formed UTF-8. -/
def utf8Valid (s : List UInt8) : Bool := StepMachine.run Utf8.step .start s == some .start

/-- The bytes of a code point. -/
def utf8Encode (code : ℕ) : List UInt8 :=
  if code < 0x80 then [UInt8.ofNat code]
  else if code < 0x800 then [UInt8.ofNat (0xC0 + code / 64), UInt8.ofNat (0x80 + code % 64)]
  else if code < 0x10000 then
    [UInt8.ofNat (0xE0 + code / 4096), UInt8.ofNat (0x80 + code / 64 % 64),
      UInt8.ofNat (0x80 + code % 64)]
  else
    [UInt8.ofNat (0xF0 + code / 262144), UInt8.ofNat (0x80 + code / 4096 % 64),
      UInt8.ofNat (0x80 + code / 64 % 64), UInt8.ofNat (0x80 + code % 64)]

/-! ## Modes -/

/-- Inside a string. -/
inductive Str where
  | text (u : Utf8)
  | backslash
  /-- After the `u` of an escape: the high surrogate before it, the digits read and their value. -/
  | unicode (high : Option ℕ) (digits : ℕ) (code : ℕ)
  | surrogateBackslash (high : ℕ)
  | surrogateU (high : ℕ)
  deriving DecidableEq

/-- Inside a number. -/
inductive Num where
  | minus
  | leadingZero
  | int
  | postDot
  | frac
  | postE
  | postESign
  | exp
  deriving DecidableEq

inductive Literal where
  | true
  | false
  | null
  deriving DecidableEq

def Literal.text : Literal → List UInt8
  | .true => [0x74, 0x72, 0x75, 0x65]
  | .false => [0x66, 0x61, 0x6C, 0x73, 0x65]
  | .null => [0x6E, 0x75, 0x6C, 0x6C]

def Literal.token : Literal → Token
  | .true => .bool Bool.true
  | .false => .bool Bool.false
  | .null => .null

/-- Where the scanner stands; `acc` is what it has read of a token. -/
inductive Mode where
  | gap
  | string (acc : List UInt8) (st : Str)
  | number (acc : List UInt8) (st : Num)
  | literal (l : Literal) (n : ℕ)
  deriving DecidableEq

def isBlank (b : UInt8) : Bool := b = 0x20 || b = 0x09 || b = 0x0A || b = 0x0D

/-- The bytes that are a token of their own. -/
def structural (b : UInt8) : Option Token :=
  if b = 0x7B then some .objectBegin
  else if b = 0x7D then some .objectEnd
  else if b = 0x5B then some .arrayBegin
  else if b = 0x5D then some .arrayEnd
  else if b = 0x3A then some .colon
  else if b = 0x2C then some .comma
  else none

/-- A byte between two tokens. -/
def gapStep (b : UInt8) : Option (List Token × Mode) :=
  if isBlank b then some ([], .gap)
  else
    match structural b with
    | some t => some ([t], .gap)
    | none =>
      if b = 0x22 then some ([], .string [] (.text .start))
      else if b = 0x2D then some ([], .number [b] .minus)
      else if b = 0x30 then some ([], .number [b] .leadingZero)
      else if isDigit b then some ([], .number [b] .int)
      else if b = 0x74 then some ([], .literal .true 1)
      else if b = 0x66 then some ([], .literal .false 1)
      else if b = 0x6E then some ([], .literal .null 1)
      else none

/-- The byte a two-character escape stands for. -/
def unescape (b : UInt8) : Option UInt8 :=
  if b = 0x22 ∨ b = 0x5C ∨ b = 0x2F then some b
  else if b = 0x62 then some 0x08
  else if b = 0x66 then some 0x0C
  else if b = 0x6E then some 0x0A
  else if b = 0x72 then some 0x0D
  else if b = 0x74 then some 0x09
  else none

def hexValue (b : UInt8) : Option ℕ :=
  if 0x30 ≤ b ∧ b ≤ 0x39 then some (b.toNat - 0x30)
  else if 0x61 ≤ b ∧ b ≤ 0x66 then some (b.toNat - 0x57)
  else if 0x41 ≤ b ∧ b ≤ 0x46 then some (b.toNat - 0x37)
  else none

/-- The end of a four-digit escape: a character, the first half of a pair, or the second. -/
def unicodeEnd (acc : List UInt8) (high : Option ℕ) (code : ℕ) : Option Mode :=
  match high with
  | none =>
    if 0xD800 ≤ code ∧ code ≤ 0xDBFF then some (.string acc (.surrogateBackslash code))
    else if 0xDC00 ≤ code ∧ code ≤ 0xDFFF then none
    else some (.string (acc ++ utf8Encode code) (.text .start))
  | some h =>
    if 0xDC00 ≤ code ∧ code ≤ 0xDFFF then
      let pair := 0x10000 + (h - 0xD800) * 0x400 + (code - 0xDC00)
      some (.string (acc ++ utf8Encode pair) (.text .start))
    else none

/-- A byte inside a string. -/
def stringStep (acc : List UInt8) (b : UInt8) : Str → Option (List Token × Mode)
  | .text u =>
    if u = .start ∧ b = 0x22 then some ([.string acc], .gap)
    else if u = .start ∧ b = 0x5C then some ([], .string acc .backslash)
    else if b < 0x20 then none
    else (u.step b).map fun u' => ([], .string (acc ++ [b]) (.text u'))
  | .backslash =>
    match unescape b with
    | some c => some ([], .string (acc ++ [c]) (.text .start))
    | none => if b = 0x75 then some ([], .string acc (.unicode none 0 0)) else none
  | .unicode high digits code =>
    (hexValue b).bind fun d =>
      let code := 16 * code + d
      if digits < 3 then some ([], .string acc (.unicode high (digits + 1) code))
      else (unicodeEnd acc high code).map fun mode => ([], mode)
  | .surrogateBackslash high => if b = 0x5C then some ([], .string acc (.surrogateU high)) else none
  | .surrogateU high =>
    if b = 0x75 then some ([], .string acc (.unicode (some high) 0 0)) else none

/-- A byte that goes on with a number. -/
def Num.step (b : UInt8) : Num → Option Num
  | .minus => if b = 0x30 then some .leadingZero else if isDigit b then some .int else none
  | .leadingZero =>
    if b = 0x2E then some .postDot else if b = 0x65 ∨ b = 0x45 then some .postE else none
  | .int =>
    if isDigit b then some .int
    else if b = 0x2E then some .postDot
    else if b = 0x65 ∨ b = 0x45 then some .postE
    else none
  | .postDot => if isDigit b then some .frac else none
  | .frac =>
    if isDigit b then some .frac else if b = 0x65 ∨ b = 0x45 then some .postE else none
  | .postE =>
    if isDigit b then some .exp else if b = 0x2B ∨ b = 0x2D then some .postESign else none
  | .postESign => if isDigit b then some .exp else none
  | .exp => if isDigit b then some .exp else none

/-- A number may end here. -/
def Num.complete : Num → Bool
  | .leadingZero | .int | .frac | .exp => Bool.true
  | .minus | .postDot | .postE | .postESign => Bool.false

/-- One byte: the tokens it completes, and the mode after it. -/
def Mode.step (mode : Mode) (b : UInt8) : Option (List Token × Mode) :=
  match mode with
  | .gap => gapStep b
  | .string acc st => stringStep acc b st
  | .number acc st =>
    match st.step b with
    | some st' => some ([], .number (acc ++ [b]) st')
    | none => if st.complete then (gapStep b).map fun r => (.number acc :: r.1, r.2) else none
  | .literal l n =>
    if l.text[n]? = some b then
      if n + 1 = l.text.length then some ([l.token], .gap) else some ([], .literal l (n + 1))
    else none

/-- What the end of the text completes. -/
def Mode.finish : Mode → Option (List Token)
  | .gap => some []
  | .number acc st => if st.complete then some [.number acc] else none
  | .string .. | .literal .. => none

/-- The tokens completed in a text, and the mode at its end. -/
def scan : Mode → List UInt8 → Option (List Token × Mode)
  | mode, [] => some ([], mode)
  | mode, b :: bs =>
    (mode.step b).bind fun r => (scan r.2 bs).map fun r' => (r.1 ++ r'.1, r'.2)

/-- The tokens of a whole text. -/
def lex (text : List UInt8) : Option (List Token) :=
  (scan .gap text).bind fun r => r.2.finish.map fun ts => r.1 ++ ts

/-! ## Scanning in parts -/

@[simp] theorem scan_nil (mode : Mode) : scan mode [] = some ([], mode) := rfl

theorem scan_cons_eq_some {mode mode' : Mode} {b : UInt8} {bs : List UInt8} {ts : List Token} :
    scan mode (b :: bs) = some (ts, mode') ↔
      ∃ ts₁ m ts₂, mode.step b = some (ts₁, m) ∧ scan m bs = some (ts₂, mode') ∧
        ts = ts₁ ++ ts₂ := by
  rw [scan, Option.bind_eq_some_iff]
  constructor
  · rintro ⟨⟨ts₁, m⟩, hstep, hscan⟩
    obtain ⟨⟨ts₂, m'⟩, hrest, heq⟩ := Option.map_eq_some_iff.mp hscan
    obtain ⟨rfl, rfl⟩ := Prod.mk.inj heq
    exact ⟨ts₁, m, ts₂, hstep, hrest, rfl⟩
  · rintro ⟨ts₁, m, ts₂, hstep, hscan, rfl⟩
    exact ⟨(ts₁, m), hstep, by rw [hscan]; rfl⟩

theorem scan_append (mode : Mode) (as bs : List UInt8) :
    scan mode (as ++ bs) =
      (scan mode as).bind fun r => (scan r.2 bs).map fun r' => (r.1 ++ r'.1, r'.2) := by
  induction as generalizing mode with
  | nil => simp
  | cons a as ih =>
    rw [List.cons_append, scan, scan]
    cases mode.step a with
    | none => rfl
    | some r =>
      simp only [Option.bind_some, ih]
      cases scan r.2 as with
      | none => rfl
      | some r' =>
        simp only [Option.bind_some, Option.map_some]
        cases scan r'.2 bs <;> simp

theorem scan_append_eq_some {mode mode' : Mode} {as bs : List UInt8} {ts : List Token}
    (h : scan mode (as ++ bs) = some (ts, mode')) :
    ∃ ts₁ m ts₂, scan mode as = some (ts₁, m) ∧ scan m bs = some (ts₂, mode') ∧
      ts = ts₁ ++ ts₂ := by
  rw [scan_append, Option.bind_eq_some_iff] at h
  obtain ⟨⟨ts₁, m⟩, has, h⟩ := h
  obtain ⟨⟨ts₂, m'⟩, hbs, heq⟩ := Option.map_eq_some_iff.mp h
  obtain ⟨rfl, rfl⟩ := Prod.mk.inj heq
  exact ⟨ts₁, m, ts₂, has, hbs, rfl⟩

/-! ## Braces, quotes and blanks -/

/-- **A brace begins an object, or is a character of a string.** -/
theorem step_brace {mode mode' : Mode} {ts : List Token} (h : mode.step 0x7B = some (ts, mode')) :
    Token.objectBegin ∈ ts ∨ ts = [] ∧ ∃ acc, mode' = .string acc (.text .start) := by
  cases mode with
  | gap =>
    obtain ⟨rfl, rfl⟩ : [Token.objectBegin] = ts ∧ Mode.gap = mode' :=
      Prod.mk.inj (Option.some.inj h)
    exact .inl List.mem_cons_self
  | string acc st =>
    right
    cases st with
    | text u =>
      -- the other states of a character wait for a byte that a brace is not
      cases u <;> simp [Mode.step, stringStep, Utf8.step, Utf8.first, Utf8.within] at h
      exact ⟨h.1, _, h.2.symm⟩
    | backslash => simp [Mode.step, stringStep, unescape] at h
    | unicode high digits code => simp [Mode.step, stringStep, hexValue] at h
    | surrogateBackslash high => simp [Mode.step, stringStep] at h
    | surrogateU high => simp [Mode.step, stringStep] at h
  | number acc st =>
    left
    cases st <;> simp [Mode.step, Num.step, Num.complete, isDigit, gapStep, isBlank, structural]
      at h <;> simp [← h.1]
  | literal l n =>
    have hmem : ∀ l : Literal, (0x7B : UInt8) ∉ l.text := by
      intro l
      cases l <;> decide
    rw [Mode.step] at h
    split at h
    · exact absurd (List.mem_of_getElem? ‹_›) (hmem l)
    · simp at h

/-- A quote ends the string it stands in. -/
theorem step_quote {mode' : Mode} {acc : List UInt8} {ts : List Token}
    (h : (Mode.string acc (.text .start)).step 0x22 = some (ts, mode')) : mode' = .gap := by
  obtain ⟨-, rfl⟩ := Prod.mk.inj (Option.some.inj h)
  rfl

/-- A step that completes no token and ends in a gap is a blank in a gap. -/
theorem blank_of_step_nil {mode : Mode} {b : UInt8} (h : mode.step b = some ([], .gap)) :
    mode = .gap ∧ isBlank b := by
  cases mode with
  | gap =>
    refine ⟨rfl, ?_⟩
    by_contra hblank
    rw [Mode.step, gapStep, if_neg hblank] at h
    split at h
    · simp at h
    · repeat' (split at h)
      all_goals simp at h
  | string acc st =>
    cases st with
    | text u =>
      simp only [Mode.step, stringStep] at h
      repeat' (split at h)
      all_goals simp at h
    | backslash =>
      simp only [Mode.step, stringStep] at h
      repeat' (split at h)
      all_goals simp at h
    | unicode high digits code =>
      simp only [Mode.step, stringStep, Option.bind_eq_some_iff] at h
      obtain ⟨d, -, h⟩ := h
      split at h
      · simp at h
      · simp only [unicodeEnd, Option.map_eq_some_iff] at h
        obtain ⟨m, hm, heq⟩ := h
        obtain rfl : m = .gap := congrArg Prod.snd heq
        repeat' (split at hm)
        all_goals simp at hm
    | surrogateBackslash high =>
      simp only [Mode.step, stringStep] at h
      split at h <;> simp at h
    | surrogateU high =>
      simp only [Mode.step, stringStep] at h
      split at h <;> simp at h
  | number acc st =>
    simp only [Mode.step] at h
    split at h
    · simp at h
    · split at h
      · obtain ⟨r, -, heq⟩ := Option.map_eq_some_iff.mp h
        simp at heq
      · simp at h
  | literal l n =>
    simp only [Mode.step] at h
    repeat' (split at h)
    all_goals simp at h

/-- **A text without a token is blank.** -/
theorem blank_of_scan_nil {mode : Mode} {text : List UInt8} (h : scan mode text = some ([], .gap)) :
    mode = .gap ∧ ∀ b ∈ text, isBlank b := by
  induction text generalizing mode with
  | nil => exact ⟨congrArg Prod.snd (Option.some.inj h), by simp⟩
  | cons b bs ih =>
    obtain ⟨ts₁, m, ts₂, hstep, hscan, hnil⟩ := scan_cons_eq_some.mp h
    obtain ⟨rfl, rfl⟩ := List.append_eq_nil_iff.mp hnil.symm
    obtain ⟨rfl, hbs⟩ := ih hscan
    obtain ⟨hmode, hb⟩ := blank_of_step_nil hstep
    exact ⟨hmode, by simpa [hb] using hbs⟩

end Json
