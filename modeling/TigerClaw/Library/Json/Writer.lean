import TigerClaw.Library.Json.Lexer

/-!
# Writing tokens

The minified text of a list of tokens, and its way back through the scanner.

* `Token.write`, `write`: the text of a token and of a list of tokens.
* `Token.Writable`, `Separated`: strings in UTF-8, numbers that are numbers, and no number next to
  something that would run into it.
* `scan_write`: under these two conditions the scanner reads back what was written.
* `scan_write_eq_none`: a string that is not UTF-8 is written, but not read back.
* `writable_decimalInt`: the decimal digits of an integer are a number.
* `control_notMem_write`: control characters are escaped, so no newline is written.
-/

namespace Json

open Digits (isDigit hexDigit hexPad)

/-- A byte of a string.  Quotes, backslashes and control characters are escaped. -/
def escape (b : UInt8) : List UInt8 :=
  if b = 0x5C then [0x5C, 0x5C]
  else if b = 0x22 then [0x5C, 0x22]
  else if b = 0x08 then [0x5C, 0x62]
  else if b = 0x0C then [0x5C, 0x66]
  else if b = 0x0A then [0x5C, 0x6E]
  else if b = 0x0D then [0x5C, 0x72]
  else if b = 0x09 then [0x5C, 0x74]
  else if b < 0x20 then [0x5C, 0x75] ++ hexPad 4 b.toNat
  else [b]

def Token.write : Token → List UInt8
  | .objectBegin => [0x7B]
  | .objectEnd => [0x7D]
  | .arrayBegin => [0x5B]
  | .arrayEnd => [0x5D]
  | .colon => [0x3A]
  | .comma => [0x2C]
  | .string s => [0x22] ++ s.flatMap escape ++ [0x22]
  | .number s => s
  | .bool true => Literal.true.text
  | .bool false => Literal.false.text
  | .null => Literal.null.text

def write (ts : List Token) : List UInt8 := ts.flatMap Token.write

theorem write_cons (t : Token) (ts : List Token) : write (t :: ts) = t.write ++ write ts :=
  List.flatMap_cons ..

/-! ## Strings -/

theorem hexValue_hexDigit {d : ℕ} (h : d < 16) : hexValue (hexDigit d) = some d := by
  have hall : ∀ d < 16, hexValue (hexDigit d) = some d := by decide
  exact hall d h

/-- ASCII stands between characters. -/
theorem Utf8.step_ascii {u u' : Utf8} {b : UInt8} (hb : b < 0x80) (h : u.step b = some u') :
    u = .start ∧ u' = .start := by
  have hwithin : ∀ (lo hi : UInt8) (next : Utf8), 0x80 ≤ lo → within lo hi b next = none := by
    intro lo hi next hlo
    refine if_neg fun hle => ?_
    have hle := hle.1
    rw [UInt8.le_iff_toNat_le] at hlo hle
    rw [UInt8.lt_iff_toNat_lt] at hb
    omega
  cases u with
  | start =>
    rw [Utf8.step, Utf8.first, if_pos hb] at h
    exact ⟨rfl, (Option.some.inj h).symm⟩
  | _ =>
    rw [Utf8.step, hwithin] at h
    · simp at h
    · decide

/-- The six characters of a `\u` escape of a control character. -/
theorem scan_unicode {b : UInt8} (hb : b < 0x20) (acc : List UInt8) :
    scan (.string acc (.text .start)) ([0x5C, 0x75] ++ hexPad 4 b.toNat) =
      some ([], .string (acc ++ [b]) (.text .start)) := by
  have hlt : b.toNat < 32 := UInt8.lt_iff_toNat_lt.mp hb
  have hhex : hexPad 4 b.toNat =
      [0x30, 0x30, hexDigit (b.toNat / 16), hexDigit (b.toNat % 16)] := by
    have h1 : b.toNat / 16 / 16 = 0 := by omega
    have h2 : b.toNat / 16 % 16 = b.toNat / 16 := by omega
    simp [hexPad, h1, h2, hexDigit]
  have hcode : 16 * (b.toNat / 16) + b.toNat % 16 = b.toNat := Nat.div_add_mod _ _
  have hbyte : utf8Encode b.toNat = [b] := by
    rw [utf8Encode, if_pos (by omega)]
    simp
  have hend : unicodeEnd acc none b.toNat = some (.string (acc ++ [b]) (.text .start)) := by
    rw [unicodeEnd, if_neg (by omega), if_neg (by omega), hbyte]
  have hzero : hexValue 0x30 = some 0 := by decide
  simp [scan, Mode.step, stringStep, unescape, hhex, hzero, hcode, hend,
    hexValue_hexDigit (show b.toNat / 16 < 16 by omega),
    hexValue_hexDigit (show b.toNat % 16 < 16 by omega)]

/-- A byte of a string is read back from its escape. -/
theorem scan_escape {u u' : Utf8} {b : UInt8} (h : u.step b = some u') (acc : List UInt8) :
    scan (.string acc (.text u)) (escape b) = some ([], .string (acc ++ [b]) (.text u')) := by
  by_cases hesc : b < 0x20 ∨ b = 0x22 ∨ b = 0x5C
  · have hascii : b < 0x80 := by
      rcases hesc with hlt | rfl | rfl
      · rw [UInt8.lt_iff_toNat_lt] at hlt ⊢
        exact lt_trans hlt (by decide)
      · decide
      · decide
    obtain ⟨rfl, rfl⟩ := Utf8.step_ascii hascii h
    rw [escape]
    split_ifs with h1 h2 h3 h4 h5 h6 h7 h8
    · subst h1
      rfl
    · subst h2
      rfl
    · subst h3
      rfl
    · subst h4
      rfl
    · subst h5
      rfl
    · subst h6
      rfl
    · subst h7
      rfl
    · exact scan_unicode h8 acc
    · rcases hesc with hlt | hq | hb
      · exact absurd hlt h8
      · exact absurd hq h2
      · exact absurd hb h1
  · rw [not_or, not_or] at hesc
    obtain ⟨hctl, hquote, hback⟩ := hesc
    have hne : ∀ c : UInt8, c < 0x20 → b ≠ c := by
      rintro c hc rfl
      exact hctl hc
    have hplain : escape b = [b] := by
      simp [escape, hctl, hquote, hback, hne 0x08 (by decide), hne 0x0C (by decide),
        hne 0x0A (by decide), hne 0x0D (by decide), hne 0x09 (by decide)]
    simp [hplain, scan, Mode.step, stringStep, hquote, hback, hctl, h]

theorem scan_flatMap_escape {s : List UInt8} {u u' : Utf8}
    (h : StepMachine.run Utf8.step u s = some u') (acc : List UInt8) :
    scan (.string acc (.text u)) (s.flatMap escape) =
      some ([], .string (acc ++ s) (.text u')) := by
  induction s generalizing u acc with
  | nil =>
    obtain rfl := Option.some.inj h
    simp
  | cons b s ih =>
    obtain ⟨m, hstep, hrun⟩ := StepMachine.run_cons_eq_some h
    rw [List.flatMap_cons, scan_append, scan_escape hstep, Option.bind_some, ih hrun]
    simp

/-! ## Tokens -/

def Token.isNumber : Token → Bool
  | .number _ => true
  | _ => false

def Token.isStructural : Token → Bool
  | .objectBegin | .objectEnd | .arrayBegin | .arrayEnd | .colon | .comma => true
  | _ => false

/-- A token that can be written: strings in UTF-8, numbers that read as one. -/
def Token.Writable : Token → Prop
  | .string s => utf8Valid s = true
  | .number s => ∃ st : Num, st.complete = true ∧ scan .gap s = some ([], .number s st)
  | _ => True

/-- Every number is followed by a structural token. -/
def Separated : List Token → Prop
  | [] => True
  | t :: ts => (t.isNumber → ∃ s, ts.head? = some s ∧ s.isStructural) ∧ Separated ts

/-- Any other token is read on its own. -/
theorem scan_token {t : Token} (hw : t.Writable) (hn : ¬ t.isNumber) :
    scan .gap t.write = some ([t], .gap) := by
  cases t with
  | string s =>
    have hrun : StepMachine.run Utf8.step .start s = some .start := by
      simpa [Token.Writable, utf8Valid] using hw
    have hquote : scan .gap [0x22] = some ([], .string [] (.text .start)) := rfl
    rw [Token.write, List.append_assoc, scan_append, hquote, Option.bind_some, scan_append,
      scan_flatMap_escape hrun]
    rfl
  | number s => exact absurd rfl hn
  | bool b => cases b <;> rfl
  | _ => rfl

theorem write_of_isStructural {t : Token} (h : t.isStructural) :
    ∃ b, t.write = [b] ∧ gapStep b = some ([t], .gap) ∧ ∀ st : Num, st.step b = none := by
  cases t <;> simp [Token.isStructural] at h
  all_goals
    refine ⟨_, rfl, rfl, fun st => ?_⟩
    cases st <;> rfl

/-- **The scanner reads back what was written.** -/
theorem scan_write {ts : List Token} (hw : ∀ t ∈ ts, t.Writable) (hsep : Separated ts) :
    scan .gap (write ts) = some (ts, .gap) := by
  induction ts with
  | nil => rfl
  | cons t ts ih =>
    obtain ⟨hnext, hsep⟩ := hsep
    have hrest := ih (fun t ht => hw t (List.mem_cons_of_mem _ ht)) hsep
    rw [write_cons, scan_append]
    by_cases hn : t.isNumber
    · -- the number is still open when the structural token after it ends it
      obtain ⟨s, hhead, hs⟩ := hnext hn
      obtain ⟨ts, rfl⟩ : ∃ us, ts = s :: us := by
        cases ts with
        | nil => simp at hhead
        | cons a us =>
          obtain rfl := Option.some.inj hhead
          exact ⟨us, rfl⟩
      cases t <;> simp [Token.isNumber] at hn
      case number digits =>
        obtain ⟨st, hcomplete, hscan⟩ := hw _ List.mem_cons_self
        obtain ⟨b, hwrite, hgap, hstop⟩ := write_of_isStructural hs
        have hend : (Mode.number digits st).step b = some ([.number digits, s], .gap) := by
          simp [Mode.step, hstop, hcomplete, hgap]
        rw [write_cons, hwrite, List.singleton_append, scan, Mode.step, hgap] at hrest
        rw [Token.write, hscan, Option.bind_some, write_cons, hwrite, List.singleton_append, scan,
          hend]
        simp only [Option.bind_some] at hrest ⊢
        obtain ⟨⟨us, m⟩, hr, heq⟩ := Option.map_eq_some_iff.mp hrest
        obtain ⟨hts, rfl⟩ := Prod.mk.inj heq
        obtain rfl : us = ts := (List.cons.inj hts).2
        rw [hr]
        rfl
    · rw [scan_token (hw t List.mem_cons_self) hn, Option.bind_some, hrest]
      rfl

/-! ## Strings that are not UTF-8 -/

/-- A byte that does not go on with the character. -/
theorem scan_cons_eq_none {u : Utf8} {b : UInt8} (h : u.step b = none) (acc bs : List UInt8) :
    scan (.string acc (.text u)) (b :: bs) = none := by
  have hascii : ∀ c : UInt8, c < 0x80 → ¬ (u = .start ∧ b = c) := by
    rintro c hc ⟨rfl, rfl⟩
    rw [Utf8.step, Utf8.first, if_pos hc] at h
    simp at h
  have hstep : stringStep acc b (.text u) = none := by
    rw [stringStep, if_neg (hascii 0x22 (by decide)), if_neg (hascii 0x5C (by decide)), h]
    split <;> rfl
  rw [scan, Mode.step, hstep, Option.bind_none]

theorem escape_eq_self_or (b : UInt8) :
    escape b = [b] ∨ b < 0x80 ∧ ∃ rest, escape b = 0x5C :: rest := by
  rw [escape]
  split_ifs with h1 h2 h3 h4 h5 h6 h7 h8
  rotate_left 7
  · refine .inr ⟨?_, _, rfl⟩
    rw [UInt8.lt_iff_toNat_lt] at h8 ⊢
    exact lt_trans h8 (by decide)
  · exact .inl rfl
  all_goals
    subst b
    exact .inr ⟨by decide, _, rfl⟩

theorem scan_escape_eq_none {u : Utf8} {b : UInt8} (h : u.step b = none) (acc bs : List UInt8) :
    scan (.string acc (.text u)) (escape b ++ bs) = none := by
  rcases escape_eq_self_or b with heq | ⟨hb, rest, heq⟩
  · rw [heq]
    exact scan_cons_eq_none h acc bs
  · -- between characters any ASCII byte may come, so one is open, and a backslash is no part of it
    rw [heq]
    refine scan_cons_eq_none ?_ acc (rest ++ bs)
    cases u with
    | start =>
      rw [Utf8.step, Utf8.first, if_pos hb] at h
      simp at h
    | _ => rfl

theorem scan_flatMap_escape_eq_none {s : List UInt8} {u : Utf8}
    (h : StepMachine.run Utf8.step u s = none) (acc bs : List UInt8) :
    scan (.string acc (.text u)) (s.flatMap escape ++ bs) = none := by
  induction s generalizing u acc with
  | nil => simp at h
  | cons b s ih =>
    rw [List.flatMap_cons, List.append_assoc]
    cases hstep : u.step b with
    | none => exact scan_escape_eq_none hstep acc _
    | some u' =>
      rw [StepMachine.run_cons, hstep, Option.bind_some] at h
      rw [scan_append, scan_escape hstep, Option.bind_some]
      dsimp only
      rw [ih h, Option.map_none]

/-- A string that is not UTF-8 cannot be read back. -/
theorem scan_string_eq_none {s : List UInt8} (h : utf8Valid s = false) :
    scan .gap (Token.string s).write = none := by
  have hquote : scan .gap [0x22] = some ([], .string [] (.text .start)) := rfl
  rw [Token.write, List.append_assoc, scan_append, hquote, Option.bind_some]
  dsimp only
  cases hrun : StepMachine.run Utf8.step .start s with
  | none => rw [scan_flatMap_escape_eq_none hrun, Option.map_none]
  | some u =>
    -- the closing quote comes in the middle of a character
    have hu : u.step 0x22 = none := by
      rw [utf8Valid, hrun] at h
      cases u with
      | start => simp at h
      | _ => rfl
    rw [scan_append, scan_flatMap_escape hrun, Option.bind_some]
    dsimp only
    rw [scan_cons_eq_none hu, Option.map_none, Option.map_none]

/-- **What is written with a string that is not UTF-8 cannot be read back.** -/
theorem scan_write_eq_none {ts : List Token} (hn : ∀ t ∈ ts, ¬ t.isNumber) {s : List UInt8}
    (hs : .string s ∈ ts) (h : utf8Valid s = false) : scan .gap (write ts) = none := by
  induction ts with
  | nil => simp at hs
  | cons t ts ih =>
    rw [write_cons, scan_append]
    by_cases hw : t.Writable
    · have hne : Token.string s ≠ t := by
        rintro rfl
        rw [Token.Writable, h] at hw
        cases hw
      have hmem : Token.string s ∈ ts := (List.mem_cons.mp hs).resolve_left hne
      have hrest := ih (fun t ht => hn t (List.mem_cons_of_mem _ ht)) hmem
      rw [scan_token hw (hn t List.mem_cons_self), Option.bind_some, hrest, Option.map_none]
    · cases t with
      | string s' =>
        rw [scan_string_eq_none (Bool.eq_false_iff.mpr hw), Option.bind_none]
      | number digits => exact absurd rfl (hn _ List.mem_cons_self)
      | _ => exact absurd trivial hw

/-! ## Decimal numbers -/

theorem scan_digits {ds : List UInt8} (h : ∀ b ∈ ds, isDigit b = true) (acc : List UInt8) :
    scan (.number acc .int) ds = some ([], .number (acc ++ ds) .int) := by
  induction ds generalizing acc with
  | nil => simp
  | cons b ds ih =>
    have hb : isDigit b = true := h b List.mem_cons_self
    have hstep : (Mode.number acc .int).step b = some ([], .number (acc ++ [b]) .int) := by
      simp [Mode.step, Num.step, hb]
    rw [scan, hstep, Option.bind_some, ih fun c hc => h c (List.mem_cons_of_mem _ hc)]
    simp

/-- The digits of a positive number, after its sign if it has one. -/
theorem scan_decimal {n : ℕ} (hn : 0 < n) :
    scan .gap (Digits.decimal n) = some ([], .number (Digits.decimal n) .int) ∧
      scan (.number [0x2D] .minus) (Digits.decimal n) =
        some ([], .number (0x2D :: Digits.decimal n) .int) := by
  obtain ⟨d, ds, heq, hd, hpos⟩ := Digits.decimal_eq_cons n
  have hds : ∀ b ∈ ds, isDigit b = true := fun b hb =>
    Digits.isDigit_of_mem_decimal (n := n) (heq ▸ List.mem_cons_of_mem _ hb)
  have hfirst : ∀ d < 10, 0 < d →
      Mode.gap.step (Digits.digit d) = some ([], .number [Digits.digit d] .int) ∧
        (Mode.number [0x2D] .minus).step (Digits.digit d) =
          some ([], .number [0x2D, Digits.digit d] .int) := by decide
  obtain ⟨hgap, hminus⟩ := hfirst d hd (hpos hn)
  rw [heq]
  constructor
  · rw [scan, hgap, Option.bind_some, scan_digits hds]
    rfl
  · rw [scan, hminus, Option.bind_some, scan_digits hds]
    rfl

theorem writable_decimalInt (n : ℤ) : (Token.number (Digits.decimalInt n)).Writable := by
  cases n with
  | ofNat n =>
    rcases Nat.eq_zero_or_pos n with rfl | hn
    · exact ⟨.leadingZero, rfl, by simp [Digits.decimalInt, Digits.decimal]; rfl⟩
    · exact ⟨.int, rfl, (scan_decimal hn).1⟩
  | negSucc n =>
    refine ⟨.int, rfl, ?_⟩
    have hminus : Mode.gap.step 0x2D = some ([], .number [0x2D] .minus) := rfl
    rw [Digits.decimalInt, scan, hminus, Option.bind_some, (scan_decimal (Nat.succ_pos n)).2]
    rfl

/-! ## Control characters -/

theorem control_notMem_escape {b c : UInt8} (hc : c < 0x20) : c ∉ escape b := by
  have hhex : ∀ d < 16, ¬ hexDigit d < 0x20 := by decide
  have hpad : ∀ w n, c ∉ hexPad w n := by
    intro w
    induction w with
    | zero => simp [hexPad]
    | succ w ih =>
      intro n hmem
      rw [hexPad, List.mem_append, List.mem_singleton] at hmem
      rcases hmem with hmem | rfl
      · exact ih _ hmem
      · exact hhex _ (Nat.mod_lt _ (by omega)) hc
  have hne : ∀ a : UInt8, ¬ a < 0x20 → c ≠ a := by
    rintro a ha rfl
    exact ha hc
  intro hmem
  rw [escape] at hmem
  split_ifs at hmem with h1 h2 h3 h4 h5 h6 h7 h8
  rotate_left 7
  · rcases List.mem_append.mp hmem with hmem | hmem
    · simp [hne 0x5C (by decide), hne 0x75 (by decide)] at hmem
    · exact hpad _ _ hmem
  · rw [List.mem_singleton] at hmem
    exact h8 (hmem ▸ hc)
  all_goals
    simp [hne 0x5C (by decide), hne 0x22 (by decide), hne 0x62 (by decide), hne 0x66 (by decide),
      hne 0x6E (by decide), hne 0x72 (by decide), hne 0x74 (by decide)] at hmem

/-- **No control character is written**, unless a number has one. -/
theorem control_notMem_write {c : UInt8} (hc : c < 0x20) {ts : List Token}
    (hnumber : ∀ s, .number s ∈ ts → c ∉ s) : c ∉ write ts := by
  have hne : ∀ a : UInt8, ¬ a < 0x20 → c ≠ a := by
    rintro a ha rfl
    exact ha hc
  intro hmem
  obtain ⟨t, ht, hmem⟩ := List.mem_flatMap.mp hmem
  cases t with
  | string s =>
    simp only [Token.write, List.mem_append, List.mem_singleton, List.mem_flatMap] at hmem
    rcases hmem with (rfl | ⟨b, -, hmem⟩) | rfl
    · exact absurd hc (by decide)
    · exact control_notMem_escape hc hmem
    · exact absurd hc (by decide)
  | number s => exact hnumber s ht hmem
  | bool b =>
    cases b <;> simp only [Token.write, Literal.text, List.mem_cons, List.not_mem_nil, or_false]
      at hmem
    · rcases hmem with rfl | rfl | rfl | rfl | rfl <;> exact absurd hc (by decide)
    · rcases hmem with rfl | rfl | rfl | rfl <;> exact absurd hc (by decide)
  | null =>
    simp only [Token.write, Literal.text, List.mem_cons, List.not_mem_nil, or_false] at hmem
    rcases hmem with rfl | rfl | rfl | rfl <;> exact absurd hc (by decide)
  | _ =>
    rw [Token.write, List.mem_singleton] at hmem
    exact hne _ (by decide) hmem

theorem control_notMem_decimalInt {c : UInt8} (hc : c < 0x20) (n : ℤ) :
    c ∉ Digits.decimalInt n := by
  intro hmem
  rcases Digits.isDigit_or_minus_of_mem_decimalInt hmem with h | rfl
  · simp only [isDigit, Bool.and_eq_true, decide_eq_true_eq, UInt8.le_iff_toNat_le] at h
    rw [UInt8.lt_iff_toNat_lt] at hc
    exact absurd (lt_of_le_of_lt h.1 hc) (by decide)
  · exact absurd hc (by decide)

end Json
