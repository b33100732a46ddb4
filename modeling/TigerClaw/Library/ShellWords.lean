import Mathlib.Data.List.Forall2

/-!
# The words of a shell command

How a shell cuts a line into the words of one simple command, with its quoting rules.  A line that
has anything else, an operator, an expansion, a pattern or a comment outside of quotes, is refused.

* `go`, `split`: the words of a line.
* `Reads`: a text that stands for a word, wherever it begins.
* `reads_of_plain`: text without special bytes stands for itself.
* `reads_quote`: text in single quotes, with every quote in it escaped, stands for itself.
* `split_line`: a line of such texts, with blanks between them, has their words.
-/

namespace ShellWords

/-- Inside what the next byte is. -/
inductive Mode where
  | bare
  | escape
  | single
  | double
  | doubleEscape

def blank : UInt8 := 0x20
def singleQuote : UInt8 := 0x27
def doubleQuote : UInt8 := 0x22
def backslash : UInt8 := 0x5C

/-- The bytes that mean something to the shell outside of quotes, at least in some places:
``| & ; < > ( ) $ ` * ? [ ] # ~ = % ! { }``, the newline and the zero byte. -/
def specials : List UInt8 :=
  [0x7C, 0x26, 0x3B, 0x3C, 0x3E, 0x28, 0x29, 0x24, 0x60, 0x2A, 0x3F, 0x5B, 0x5D, 0x23, 0x7E, 0x3D,
    0x25, 0x21, 0x7B, 0x7D, 0x0A, 0x00]

/-- A byte joins the word that is being read. -/
def push (word : Option (List UInt8)) (b : UInt8) : Option (List UInt8) :=
  some (word.getD [] ++ [b])

/-- The words from here on; `word` is the one that has begun. -/
def go : Mode → Option (List UInt8) → List UInt8 → Option (List (List UInt8))
  | .bare, word, [] => some word.toList
  | .bare, word, b :: rest =>
    if b = blank ∨ b = 0x09 then (go .bare none rest).map (word.toList ++ ·)
    else if b = singleQuote then go .single (some (word.getD [])) rest
    else if b = doubleQuote then go .double (some (word.getD [])) rest
    else if b = backslash then go .escape word rest
    else if specials.contains b then none
    else go .bare (push word b) rest
  -- A newline behind a backslash goes away together with it.
  | .escape, word, b :: rest =>
    if b = 0x0A then go .bare word rest else go .bare (push word b) rest
  | .single, word, b :: rest =>
    if b = singleQuote then go .bare word rest else go .single (push word b) rest
  | .double, word, b :: rest =>
    if b = doubleQuote then go .bare word rest
    else if b = backslash then go .doubleEscape word rest
    else if b = 0x24 ∨ b = 0x60 then none
    else go .double (push word b) rest
  | .doubleEscape, word, b :: rest =>
    if b = 0x0A then go .double word rest
    else if b = 0x24 ∨ b = 0x60 ∨ b = doubleQuote ∨ b = backslash then go .double (push word b) rest
    else go .double (push (push word backslash) b) rest
  | _, _, [] => none

/-- The words of a line, if it is one simple command without expansions. -/
def split (line : List UInt8) : Option (List (List UInt8)) := go .bare none line

/-! ## Texts that stand for a word -/

/-- The text stands for the word, also as the rest of one that has begun. -/
def Reads (text word : List UInt8) : Prop :=
  ∀ begun rest, go .bare begun (text ++ rest) = go .bare (some (begun.getD [] ++ word)) rest

/-- A byte that the shell takes as it is. -/
def plain (b : UInt8) : Bool :=
  b != blank && b != 0x09 && b != singleQuote && b != doubleQuote && b != backslash &&
    !specials.contains b

theorem go_plain {b : UInt8} (h : plain b = true) (word : Option (List UInt8))
    (rest : List UInt8) : go .bare word (b :: rest) = go .bare (push word b) rest := by
  simp only [plain, Bool.and_eq_true, bne_iff_ne, Bool.not_eq_true'] at h
  obtain ⟨⟨⟨⟨⟨hblank, htab⟩, hsingle⟩, hdouble⟩, hbackslash⟩, hspecial⟩ := h
  rw [go, if_neg (not_or.mpr ⟨hblank, htab⟩), if_neg hsingle, if_neg hdouble, if_neg hbackslash,
    hspecial, if_neg Bool.false_ne_true]

/-- **Text without special bytes stands for itself.** -/
theorem reads_of_plain {text : List UInt8} (hne : text ≠ []) (h : text.all plain = true) :
    Reads text text := by
  induction text with
  | nil => exact absurd rfl hne
  | cons b text ih =>
    rw [List.all_cons, Bool.and_eq_true] at h
    intro begun rest
    rw [List.cons_append, go_plain h.1]
    cases text with
    | nil => rfl
    | cons c text =>
      rw [ih (List.cons_ne_nil c text) h.2, push, Option.getD_some, List.append_assoc,
        List.singleton_append]

/-- What is written for a byte between single quotes. -/
def quoteByte (b : UInt8) : List UInt8 :=
  if b = singleQuote then [singleQuote, backslash, singleQuote, singleQuote] else [b]

/-- A text between single quotes. -/
def quote (text : List UInt8) : List UInt8 :=
  singleQuote :: (text.flatMap quoteByte ++ [singleQuote])

/-- Between the quotes a byte is read as it was written. -/
theorem go_quoteByte (b : UInt8) (word rest : List UInt8) :
    go .single (some word) (quoteByte b ++ rest) = go .single (some (word ++ [b])) rest := by
  unfold quoteByte
  split
  · rename_i hb
    subst hb
    rfl
  · rename_i hb
    rw [List.singleton_append, go, if_neg hb]
    rfl

theorem go_quoted (text word rest : List UInt8) :
    go .single (some word) (text.flatMap quoteByte ++ rest) =
      go .single (some (word ++ text)) rest := by
  induction text generalizing word with
  | nil => rw [List.flatMap_nil, List.nil_append, List.append_nil]
  | cons b text ih =>
    rw [List.flatMap_cons, List.append_assoc, go_quoteByte, ih, List.append_assoc,
      List.singleton_append]

/-- **Quoted text stands for itself**, whatever it is. -/
theorem reads_quote (text : List UInt8) : Reads (quote text) text := by
  intro begun rest
  have hopen : go .bare begun (quote text ++ rest) =
      go .single (some (begun.getD [])) (text.flatMap quoteByte ++ ([singleQuote] ++ rest)) := by
    rw [quote, List.cons_append, List.append_assoc]
    rfl
  rw [hopen, go_quoted]
  rfl

/-- **A line of texts has their words.** -/
theorem split_line {text word : List UInt8} {texts words : List (List UInt8)}
    (hfirst : Reads text word) (h : List.Forall₂ Reads texts words) :
    split (text ++ texts.flatMap fun t => blank :: t) = some (word :: words) := by
  have hgo : ∀ (word : List UInt8), go .bare (some word) (texts.flatMap fun t => blank :: t) =
      some (word :: words) := by
    induction h with
    | nil => exact fun word => rfl
    | @cons t w texts words ht _ ih =>
      intro word
      rw [List.flatMap_cons, List.cons_append, go, if_pos (Or.inl rfl), ht, Option.getD_none,
        List.nil_append, ih]
      rfl
  rw [split, hfirst, Option.getD_none, List.nil_append, hgo]

end ShellWords
