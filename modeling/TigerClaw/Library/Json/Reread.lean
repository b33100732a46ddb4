import TigerClaw.Library.Json.Strict

/-!
# What is read can be written

The scanner hands out strings in UTF-8 and numbers that are numbers, so a value that was read has a
text, which is read as the same value.

* `utf8Valid_utf8Encode`: the bytes of a code point are UTF-8.
* `Mode.Sound`, `writable_of_lex`: what the scanner reads can be written.
* `Tree.Legible`, `legible_of_parse`: the same of a value.
* `parse_write_tokens`: the round trip of any value that can be written.
-/

namespace Json

open StepMachine (run run_append run_cons run_cons_eq_some)

/-! ## Code points -/

section

variable {k : ℕ} (hk : k < 256)

include hk

theorem ofNat_lt_iff (c : UInt8) : UInt8.ofNat k < c ↔ k < c.toNat := by
  rw [UInt8.lt_iff_toNat_lt, UInt8.toNat_ofNat_of_lt' hk]

theorem ofNat_le_iff (c : UInt8) : UInt8.ofNat k ≤ c ↔ k ≤ c.toNat := by
  rw [UInt8.le_iff_toNat_le, UInt8.toNat_ofNat_of_lt' hk]

theorem le_ofNat_iff (c : UInt8) : c ≤ UInt8.ofNat k ↔ c.toNat ≤ k := by
  rw [UInt8.le_iff_toNat_le, UInt8.toNat_ofNat_of_lt' hk]

theorem ofNat_eq_iff (c : UInt8) : UInt8.ofNat k = c ↔ k = c.toNat := by
  rw [← UInt8.toNat_inj, UInt8.toNat_ofNat_of_lt' hk]

end

/-- A byte that goes on with a character. -/
theorem within_ofNat {lo hi : UInt8} {k : ℕ} (hk : k < 256) (hlo : lo.toNat ≤ k)
    (hhi : k ≤ hi.toNat) (next : Utf8) :
    Utf8.within lo hi (UInt8.ofNat k) next = some next := by
  rw [Utf8.within, if_pos ⟨(le_ofNat_iff hk lo).mpr hlo, (ofNat_le_iff hk hi).mpr hhi⟩]

theorem first_ofNat {k : ℕ} (hk : k < 256) :
    Utf8.first (UInt8.ofNat k) =
      if k < 0x80 then some .start
      else if k < 0xC2 then none
      else if k < 0xE0 then some .lastByte
      else if k = 0xE0 then some .secondToLastByteGuardAgainstOverlong
      else if k = 0xED then some .secondToLastByteGuardAgainstSurrogateHalf
      else if k < 0xF0 then some .secondToLastByte
      else if k = 0xF0 then some .thirdToLastByteGuardAgainstOverlong
      else if k < 0xF4 then some .thirdToLastByte
      else if k = 0xF4 then some .thirdToLastByteGuardAgainstTooLarge
      else none := by
  simp only [Utf8.first, ofNat_lt_iff hk, ofNat_eq_iff hk]
  rfl

/-- A code point that is no surrogate. -/
def IsScalarValue (code : ℕ) : Prop := code < 0x110000 ∧ ¬ (0xD800 ≤ code ∧ code ≤ 0xDFFF)

/-- **The bytes of a code point are UTF-8.** -/
theorem run_utf8Encode {code : ℕ} (h : IsScalarValue code) :
    run Utf8.step .start (utf8Encode code) = some .start := by
  obtain ⟨hlt, hsurrogate⟩ := h
  rw [utf8Encode]
  split_ifs with h1 h2 h3
  · rw [StepMachine.run_singleton, Utf8.step, first_ofNat (by omega), if_pos h1]
  · have hfirst : Utf8.first (UInt8.ofNat (0xC0 + code / 64)) = some .lastByte := by
      rw [first_ofNat (by omega), if_neg (by omega), if_neg (by omega), if_pos (by omega)]
    rw [run_cons, Utf8.step, hfirst, Option.bind_some, StepMachine.run_singleton, Utf8.step,
      within_ofNat (by omega) (by simp) (by simp; omega)]
  · have hlast : run Utf8.step .lastByte [UInt8.ofNat (0x80 + code % 64)] = some .start := by
      rw [StepMachine.run_singleton, Utf8.step, within_ofNat (by omega) (by simp) (by simp; omega)]
    have hsecond : ∃ u, Utf8.first (UInt8.ofNat (0xE0 + code / 4096)) = some u ∧
        u.step (UInt8.ofNat (0x80 + code / 64 % 64)) = some .lastByte := by
      rw [first_ofNat (by omega), if_neg (by omega), if_neg (by omega), if_neg (by omega)]
      split_ifs with h4 h5 h6
      · refine ⟨_, rfl, ?_⟩
        rw [Utf8.step, within_ofNat (by omega) (by simp; omega) (by simp; omega)]
      · refine ⟨_, rfl, ?_⟩
        rw [Utf8.step, within_ofNat (by omega) (by simp) (by simp; omega)]
      · refine ⟨_, rfl, ?_⟩
        rw [Utf8.step, within_ofNat (by omega) (by simp) (by simp; omega)]
      all_goals omega
    obtain ⟨u, hu, hstep⟩ := hsecond
    rw [run_cons, Utf8.step, hu, Option.bind_some, run_cons, hstep, Option.bind_some, hlast]
  · have hlast : run Utf8.step .secondToLastByte
        [UInt8.ofNat (0x80 + code / 64 % 64), UInt8.ofNat (0x80 + code % 64)] = some .start := by
      rw [run_cons, Utf8.step, within_ofNat (by omega) (by simp) (by simp; omega),
        Option.bind_some, StepMachine.run_singleton, Utf8.step,
        within_ofNat (by omega) (by simp) (by simp; omega)]
    have hsecond : ∃ u, Utf8.first (UInt8.ofNat (0xF0 + code / 262144)) = some u ∧
        u.step (UInt8.ofNat (0x80 + code / 4096 % 64)) = some .secondToLastByte := by
      rw [first_ofNat (by omega), if_neg (by omega), if_neg (by omega), if_neg (by omega),
        if_neg (by omega), if_neg (by omega), if_neg (by omega)]
      split_ifs with h4 h5 h6
      · refine ⟨_, rfl, ?_⟩
        rw [Utf8.step, within_ofNat (by omega) (by simp; omega) (by simp; omega)]
      · refine ⟨_, rfl, ?_⟩
        rw [Utf8.step, within_ofNat (by omega) (by simp) (by simp; omega)]
      · refine ⟨_, rfl, ?_⟩
        rw [Utf8.step, within_ofNat (by omega) (by simp) (by simp; omega)]
      all_goals omega
    obtain ⟨u, hu, hstep⟩ := hsecond
    rw [run_cons, Utf8.step, hu, Option.bind_some, run_cons, hstep, Option.bind_some, hlast]

/-! ## Scanning -/

/-- A first half of a surrogate pair. -/
def IsHigh (h : ℕ) : Prop := 0xD800 ≤ h ∧ h ≤ 0xDBFF

/-- What has been read of a string is UTF-8, as far as it goes. -/
def Str.Sound (acc : List UInt8) : Str → Prop
  | .text u => run Utf8.step .start acc = some u
  | .backslash => run Utf8.step .start acc = some .start
  | .unicode high digits code =>
    run Utf8.step .start acc = some .start ∧ digits < 4 ∧ code < 16 ^ digits ∧
      ∀ h ∈ high, IsHigh h
  | .surrogateBackslash high | .surrogateU high =>
    run Utf8.step .start acc = some .start ∧ IsHigh high

/-- What has been read of a token can be written. -/
def Mode.Sound : Mode → Prop
  | .gap | .literal .. => True
  | .string acc st => st.Sound acc
  | .number acc st => scan .gap acc = some ([], .number acc st)

theorem run_append_ascii {acc : List UInt8} {c : UInt8}
    (h : run Utf8.step .start acc = some .start) (hc : c < 0x80) :
    run Utf8.step .start (acc ++ [c]) = some .start := by
  rw [run_append, h, Option.bind_some, StepMachine.run_singleton, Utf8.step, Utf8.first, if_pos hc]

theorem unescape_ascii {b c : UInt8} (h : unescape b = some c) : c < 0x80 := by
  rw [unescape] at h
  split_ifs at h with hself
  · obtain rfl := Option.some.inj h
    rcases hself with rfl | rfl | rfl <;> decide
  all_goals
    obtain rfl := Option.some.inj h
    decide

theorem hexValue_lt {b : UInt8} {d : ℕ} (h : hexValue b = some d) : d < 16 := by
  rw [hexValue] at h
  simp only [UInt8.le_iff_toNat_le] at h
  split_ifs at h with h1 h2 h3
  all_goals
    obtain rfl := Option.some.inj h
    simp at *
    omega

theorem sound_unicodeEnd {acc : List UInt8} {high : Option ℕ} {code : ℕ} {mode : Mode}
    (hacc : run Utf8.step .start acc = some .start) (hhigh : ∀ h ∈ high, IsHigh h)
    (hcode : code < 0x10000) (h : unicodeEnd acc high code = some mode) : mode.Sound := by
  have hencode : ∀ {n : ℕ}, IsScalarValue n →
      Mode.Sound (.string (acc ++ utf8Encode n) (.text .start)) := by
    intro n hn
    show run Utf8.step .start (acc ++ utf8Encode n) = some .start
    rw [run_append, hacc, Option.bind_some, run_utf8Encode hn]
  cases high with
  | none =>
    rw [unicodeEnd] at h
    split_ifs at h with h1 h2
    · obtain rfl := Option.some.inj h
      exact ⟨hacc, h1⟩
    · obtain rfl := Option.some.inj h
      refine hencode ⟨by omega, ?_⟩
      omega
  | some high =>
    obtain ⟨hlo, hhi⟩ := hhigh high rfl
    rw [unicodeEnd] at h
    split_ifs at h with h1
    obtain rfl := Option.some.inj h
    refine hencode ⟨by omega, ?_⟩
    omega

theorem sound_stringStep {acc : List UInt8} {st : Str} {b : UInt8} {ts : List Token} {mode : Mode}
    (hst : st.Sound acc) (h : stringStep acc b st = some (ts, mode)) :
    (∀ t ∈ ts, t.Writable) ∧ mode.Sound := by
  cases st with
  | text u =>
    rw [stringStep] at h
    split_ifs at h with h1 h2 h3
    · obtain ⟨rfl, rfl⟩ := Prod.mk.inj (Option.some.inj h)
      refine ⟨?_, trivial⟩
      rw [List.forall_mem_singleton]
      show utf8Valid acc = true
      rw [utf8Valid, hst, h1.1]
      rfl
    · obtain ⟨rfl, rfl⟩ := Prod.mk.inj (Option.some.inj h)
      refine ⟨by simp, ?_⟩
      show run Utf8.step .start acc = some .start
      rw [hst, h2.1]
    · obtain ⟨u', hstep, heq⟩ := Option.map_eq_some_iff.mp h
      obtain ⟨rfl, rfl⟩ := Prod.mk.inj heq
      refine ⟨by simp, ?_⟩
      show run Utf8.step .start (acc ++ [b]) = some u'
      rw [run_append, hst, Option.bind_some, StepMachine.run_singleton, hstep]
  | backslash =>
    rw [stringStep] at h
    split at h
    · rename_i c hc
      obtain ⟨rfl, rfl⟩ := Prod.mk.inj (Option.some.inj h)
      exact ⟨by simp, run_append_ascii hst (unescape_ascii hc)⟩
    · split_ifs at h
      obtain ⟨rfl, rfl⟩ := Prod.mk.inj (Option.some.inj h)
      exact ⟨by simp, hst, by omega, by simp, by simp⟩
  | unicode high digits code =>
    obtain ⟨hacc, hdigits, hcode, hhigh⟩ := hst
    rw [stringStep] at h
    obtain ⟨d, hd, h⟩ := Option.bind_eq_some_iff.mp h
    have hlt := hexValue_lt hd
    have hnext : 16 * code + d < 16 ^ (digits + 1) := by
      rw [Nat.pow_succ]
      omega
    dsimp only at h
    split_ifs at h with hmore
    · obtain ⟨rfl, rfl⟩ := Prod.mk.inj (Option.some.inj h)
      exact ⟨by simp, hacc, by omega, hnext, hhigh⟩
    · obtain ⟨mode', hend, heq⟩ := Option.map_eq_some_iff.mp h
      obtain ⟨rfl, rfl⟩ := Prod.mk.inj heq
      obtain rfl : digits = 3 := by omega
      exact ⟨by simp, sound_unicodeEnd hacc hhigh hnext hend⟩
  | surrogateBackslash high =>
    rw [stringStep] at h
    split_ifs at h
    obtain ⟨rfl, rfl⟩ := Prod.mk.inj (Option.some.inj h)
    exact ⟨by simp, hst⟩
  | surrogateU high =>
    rw [stringStep] at h
    split_ifs at h
    obtain ⟨rfl, rfl⟩ := Prod.mk.inj (Option.some.inj h)
    refine ⟨by simp, hst.1, by omega, by simp, ?_⟩
    rintro h' h''
    obtain rfl := Option.some.inj h''
    exact hst.2

theorem writable_of_structural {b : UInt8} {t : Token} (h : structural b = some t) :
    t.Writable := by
  rw [structural] at h
  split_ifs at h
  all_goals
    obtain rfl := Option.some.inj h
    trivial

theorem sound_gapStep {b : UInt8} {ts : List Token} {mode : Mode}
    (h : gapStep b = some (ts, mode)) : (∀ t ∈ ts, t.Writable) ∧ mode.Sound := by
  have hnumber : ∀ st, gapStep b = some ([], .number [b] st) → Mode.Sound (.number [b] st) := by
    intro st hst
    show scan .gap [b] = _
    rw [scan, Mode.step, hst]
    rfl
  have h' := h
  rw [gapStep] at h
  by_cases hblank : isBlank b
  · rw [if_pos hblank] at h
    obtain ⟨rfl, rfl⟩ := Prod.mk.inj (Option.some.inj h)
    exact ⟨by simp, trivial⟩
  · rw [if_neg hblank] at h
    cases hstructural : structural b with
    | some t =>
      rw [hstructural] at h
      obtain ⟨rfl, rfl⟩ := Prod.mk.inj (Option.some.inj h)
      exact ⟨List.forall_mem_singleton.mpr (writable_of_structural hstructural), trivial⟩
    | none =>
      rw [hstructural] at h
      dsimp only at h
      split_ifs at h
      all_goals
        obtain ⟨rfl, rfl⟩ := Prod.mk.inj (Option.some.inj h)
      · exact ⟨by simp, rfl⟩
      · exact ⟨by simp, hnumber _ h'⟩
      · exact ⟨by simp, hnumber _ h'⟩
      · exact ⟨by simp, hnumber _ h'⟩
      · exact ⟨by simp, trivial⟩
      · exact ⟨by simp, trivial⟩
      · exact ⟨by simp, trivial⟩

theorem writable_of_complete {acc : List UInt8} {st : Num} (h : Mode.Sound (.number acc st))
    (hst : st.complete = true) : (Token.number acc).Writable := ⟨st, hst, h⟩

theorem writable_literal (l : Literal) : l.token.Writable := by
  cases l <;> trivial

theorem sound_step {mode mode' : Mode} {b : UInt8} {ts : List Token} (hmode : mode.Sound)
    (h : mode.step b = some (ts, mode')) : (∀ t ∈ ts, t.Writable) ∧ mode'.Sound := by
  cases mode with
  | gap => exact sound_gapStep h
  | string acc st => exact sound_stringStep hmode h
  | number acc st =>
    have hstep := h
    rw [Mode.step] at h
    split at h
    · obtain ⟨rfl, rfl⟩ := Prod.mk.inj (Option.some.inj h)
      refine ⟨by simp, ?_⟩
      show scan .gap (acc ++ [b]) = _
      rw [scan_append, hmode, Option.bind_some, scan, hstep]
      rfl
    · split_ifs at h with hcomplete
      obtain ⟨⟨ts', mode''⟩, hgap, heq⟩ := Option.map_eq_some_iff.mp h
      obtain ⟨rfl, rfl⟩ := Prod.mk.inj heq
      obtain ⟨hts, hsound⟩ := sound_gapStep hgap
      exact ⟨List.forall_mem_cons.mpr ⟨writable_of_complete hmode hcomplete, hts⟩, hsound⟩
  | literal l n =>
    rw [Mode.step] at h
    split_ifs at h
    · obtain ⟨rfl, rfl⟩ := Prod.mk.inj (Option.some.inj h)
      exact ⟨List.forall_mem_singleton.mpr (writable_literal l), trivial⟩
    · obtain ⟨rfl, rfl⟩ := Prod.mk.inj (Option.some.inj h)
      exact ⟨by simp, trivial⟩

theorem sound_scan {mode mode' : Mode} {text : List UInt8} {ts : List Token} (hmode : mode.Sound)
    (h : scan mode text = some (ts, mode')) : (∀ t ∈ ts, t.Writable) ∧ mode'.Sound := by
  induction text generalizing mode ts with
  | nil =>
    obtain ⟨rfl, rfl⟩ := Prod.mk.inj (Option.some.inj h)
    exact ⟨by simp, hmode⟩
  | cons b bs ih =>
    obtain ⟨ts₁, m, ts₂, hstep, hscan, rfl⟩ := scan_cons_eq_some.mp h
    obtain ⟨hts₁, hm⟩ := sound_step hmode hstep
    obtain ⟨hts₂, hmode'⟩ := ih hm hscan
    exact ⟨List.forall_mem_append.mpr ⟨hts₁, hts₂⟩, hmode'⟩

/-- **What is read can be written.** -/
theorem writable_of_lex {text : List UInt8} {ts : List Token} (h : lex text = some ts) :
    ∀ t ∈ ts, t.Writable := by
  rw [lex, Option.bind_eq_some_iff] at h
  obtain ⟨⟨ts₁, mode⟩, hscan, hfinish⟩ := h
  obtain ⟨fin, hfin, rfl⟩ := Option.map_eq_some_iff.mp hfinish
  obtain ⟨hts₁, hmode⟩ := sound_scan (show Mode.Sound .gap from trivial) hscan
  refine List.forall_mem_append.mpr ⟨hts₁, ?_⟩
  cases mode with
  | gap =>
    obtain rfl := Option.some.inj hfin
    simp
  | number acc st =>
    rw [Mode.finish] at hfin
    split_ifs at hfin with hcomplete
    obtain rfl := Option.some.inj hfin
    exact List.forall_mem_singleton.mpr (writable_of_complete hmode hcomplete)
  | string acc st => cases hfin
  | literal l n => cases hfin

theorem step_comma_string (acc : List UInt8) (st : Str) (ts : List Token) :
    (Mode.string acc st).step 0x2C ≠ some (ts, .gap) := by
  cases st with
  | text u =>
    rw [Mode.step, stringStep, if_neg (by simp), if_neg (by simp), if_neg (by decide)]
    cases u.step 0x2C <;> simp
  | _ => simp [Mode.step, stringStep, unescape, hexValue]

theorem step_comma_literal (l : Literal) (n : ℕ) (ts : List Token) :
    (Mode.literal l n).step 0x2C ≠ some (ts, .gap) := by
  have hnot : (0x2C : UInt8) ∉ l.text := by cases l <;> decide
  rw [Mode.step, if_neg fun h => hnot (List.mem_of_getElem? h)]
  simp

/-- Tokens that may stand before a comma are read back on their own. -/
theorem lex_write {ts : List Token} (hw : ∀ t ∈ ts, t.Writable)
    (hsep : Separated (ts ++ [.comma])) : lex (write ts) = some ts := by
  have hall : ∀ t ∈ ts ++ [.comma], t.Writable :=
    List.forall_mem_append.mpr ⟨hw, List.forall_mem_singleton.mpr trivial⟩
  have hscan := scan_write hall hsep
  have htext : write (ts ++ [.comma]) = write ts ++ [0x2C] := by simp [write, Token.write]
  rw [htext] at hscan
  obtain ⟨ts₁, mode, tail, hts₁, hcomma, happend⟩ := scan_append_eq_some hscan
  obtain ⟨tail, m, rest, hstep, hrest, rfl⟩ := scan_cons_eq_some.mp hcomma
  obtain ⟨rfl, rfl⟩ := Prod.mk.inj (Option.some.inj hrest)
  rw [List.append_nil] at happend
  rw [lex, hts₁, Option.bind_some]
  cases mode with
  | gap =>
    obtain ⟨rfl, -⟩ := Prod.mk.inj (Option.some.inj hstep)
    obtain rfl := List.append_cancel_right happend
    simp [Mode.finish]
  | number acc st =>
    have hstop : st.step 0x2C = none := by cases st <;> rfl
    rw [Mode.step, hstop] at hstep
    dsimp only at hstep
    split_ifs at hstep with hcomplete
    obtain ⟨rfl, -⟩ := Prod.mk.inj (Option.some.inj hstep)
    have hcancel : ts ++ [.comma] = (ts₁ ++ [.number acc]) ++ [.comma] := by
      rw [happend, List.append_assoc]
      rfl
    have hlast : ts = ts₁ ++ [.number acc] := List.append_cancel_right hcancel
    simp [Mode.finish, hcomplete, hlast]
  | string acc st => exact absurd hstep (step_comma_string acc st tail)
  | literal l n => exact absurd hstep (step_comma_literal l n tail)

namespace Tree

/-! ## Values -/

/-- A property of values that passes from the parts to the whole. -/
@[elab_as_elim]
theorem forall_tree {P : Tree → Prop} (null : P .null) (bool : ∀ b, P (.bool b))
    (number : ∀ s, P (.number s)) (string : ∀ s, P (.string s))
    (array : ∀ elems, (∀ v ∈ elems, P v) → P (.array elems))
    (object : ∀ fields, (∀ field ∈ fields, P field.2) → P (.object fields)) : ∀ v, P v :=
  @Tree.rec P (fun elems => ∀ v ∈ elems, P v) (fun fields => ∀ field ∈ fields, P field.2)
    (fun field => P field.2) null bool number string array object
    (by simp) (fun _ _ hv helems => List.forall_mem_cons.mpr ⟨hv, helems⟩)
    (by simp) (fun _ _ hfield hfields => List.forall_mem_cons.mpr ⟨hfield, hfields⟩)
    (fun _ _ hv => hv)

/-- The strings of the value are UTF-8, and its numbers are numbers. -/
def Legible (v : Tree) : Prop := ∀ t ∈ v.tokens, t.Writable

theorem legible_moreElemTokens {elems : List Tree} :
    (∀ t ∈ moreElemTokens elems, t.Writable) ↔ ∀ v ∈ elems, v.Legible := by
  induction elems with
  | nil => simp [moreElemTokens]
  | cons v elems ih =>
    rw [moreElemTokens, List.forall_mem_cons, List.forall_mem_append, ih, List.forall_mem_cons,
      and_iff_right (a := Token.Writable .comma) trivial]
    rfl

theorem legible_moreMemberTokens {fields : List (List UInt8 × Tree)} :
    (∀ t ∈ moreMemberTokens fields, t.Writable) ↔
      ∀ field ∈ fields, utf8Valid field.1 = true ∧ field.2.Legible := by
  induction fields with
  | nil => simp [moreMemberTokens]
  | cons field fields ih =>
    rw [moreMemberTokens, List.forall_mem_cons, List.forall_mem_cons, List.forall_mem_cons,
      List.forall_mem_append, ih, List.forall_mem_cons,
      and_iff_right (a := Token.Writable .comma) trivial,
      and_iff_right (a := Token.Writable .colon) trivial, ← and_assoc]
    rfl

theorem legible_array {elems : List Tree} :
    Legible (.array elems) ↔ ∀ v ∈ elems, v.Legible := by
  have htokens : (∀ t ∈ elemTokens elems, t.Writable) ↔
      ∀ t ∈ moreElemTokens elems, t.Writable := by
    cases elems with
    | nil => rfl
    | cons v elems =>
      rw [elemTokens, moreElemTokens, List.forall_mem_cons,
        and_iff_right (a := Token.Writable .comma) trivial]
  rw [← legible_moreElemTokens, ← htokens, Legible, tokens, List.forall_mem_cons,
    List.forall_mem_append, List.forall_mem_singleton,
    and_iff_right (a := Token.Writable .arrayBegin) trivial,
    and_iff_left (b := Token.Writable .arrayEnd) trivial]

theorem legible_object {fields : List (List UInt8 × Tree)} :
    Legible (.object fields) ↔
      ∀ field ∈ fields, utf8Valid field.1 = true ∧ field.2.Legible := by
  have htokens : (∀ t ∈ memberTokens fields, t.Writable) ↔
      ∀ t ∈ moreMemberTokens fields, t.Writable := by
    cases fields with
    | nil => rfl
    | cons field fields =>
      rw [memberTokens, moreMemberTokens, List.forall_mem_cons (a := Token.comma),
        and_iff_right (a := Token.Writable .comma) trivial]
  rw [← legible_moreMemberTokens, ← htokens, Legible, tokens, List.forall_mem_cons,
    List.forall_mem_append, List.forall_mem_singleton,
    and_iff_right (a := Token.Writable .objectBegin) trivial,
    and_iff_left (b := Token.Writable .objectEnd) trivial]

/-! ## What is read -/

def Frame.Legible : Frame → Prop
  | .array elems => Tree.Legible (.array elems)
  | .object fields name => Tree.Legible (.object fields) ∧ utf8Valid name = true

def Due.Legible : Due → Prop
  | .value | .elemOrEnd | .keyOrEnd => True
  | .afterElem elems => Tree.Legible (.array elems)
  | .key fields | .afterField fields => Tree.Legible (.object fields)
  | .colon fields name => Tree.Legible (.object fields) ∧ utf8Valid name = true
  | .nothing v => v.Legible

def LegibleStack (s : Stack) : Prop := (∀ frame ∈ s.1, frame.Legible) ∧ s.2.Legible

theorem legible_scalar {t : Token} {v : Tree} (hv : v.tokens = [t]) (ht : t.Writable) :
    v.Legible := by
  rw [Legible, hv, List.forall_mem_singleton]
  exact ht

theorem legible_array_nil : Legible (.array []) := legible_array.mpr (by simp)

theorem legible_object_nil : Legible (.object []) := legible_object.mpr (by simp)

theorem legible_complete {stack : List Frame} {v : Tree} {s : Stack}
    (hstack : ∀ frame ∈ stack, frame.Legible) (hv : v.Legible)
    (h : complete false stack v = some s) : LegibleStack s := by
  cases stack with
  | nil =>
    obtain rfl := Option.some.inj h
    exact ⟨by simp, hv⟩
  | cons frame stack =>
    obtain ⟨hframe, hrest⟩ := List.forall_mem_cons.mp hstack
    cases frame with
    | array elems =>
      obtain rfl := Option.some.inj h
      refine ⟨hrest, legible_array.mpr (List.forall_mem_append.mpr ⟨?_, ?_⟩)⟩
      · exact legible_array.mp hframe
      · exact List.forall_mem_singleton.mpr hv
    | object fields name =>
      rw [complete_object] at h
      obtain rfl := Option.some.inj h
      refine ⟨hrest, legible_object.mpr (List.forall_mem_append.mpr ⟨?_, ?_⟩)⟩
      · exact legible_object.mp hframe.1
      · exact List.forall_mem_singleton.mpr ⟨hframe.2, hv⟩

theorem legible_beginValue {stack : List Frame} {t : Token} {s : Stack}
    (hstack : ∀ frame ∈ stack, frame.Legible) (ht : t.Writable)
    (h : beginValue false stack t = some s) : LegibleStack s := by
  cases t with
  | null => exact legible_complete hstack (legible_scalar (by rw [tokens]) ht) h
  | bool b => exact legible_complete hstack (legible_scalar (by rw [tokens]) ht) h
  | number n => exact legible_complete hstack (legible_scalar (by rw [tokens]) ht) h
  | string n => exact legible_complete hstack (legible_scalar (by rw [tokens]) ht) h
  | arrayBegin =>
    obtain rfl := Option.some.inj h
    exact ⟨hstack, trivial⟩
  | objectBegin =>
    obtain rfl := Option.some.inj h
    exact ⟨hstack, trivial⟩
  | _ => cases h

theorem legible_step {s s' : Stack} {t : Token} (hs : LegibleStack s) (ht : t.Writable)
    (h : step false s t = some s') : LegibleStack s' := by
  obtain ⟨stack, due⟩ := s
  obtain ⟨hstack, hdue⟩ := hs
  cases due with
  | value => exact legible_beginValue hstack ht h
  | elemOrEnd =>
    by_cases hend : t = .arrayEnd
    · subst hend
      exact legible_complete hstack legible_array_nil h
    · rw [step_elemOrEnd hend] at h
      have hopen : ∀ frame ∈ Frame.array [] :: stack, frame.Legible :=
        List.forall_mem_cons.mpr ⟨legible_array_nil, hstack⟩
      exact legible_beginValue hopen ht h
  | afterElem elems =>
    cases t with
    | comma =>
      obtain rfl := Option.some.inj h
      exact ⟨List.forall_mem_cons.mpr ⟨hdue, hstack⟩, trivial⟩
    | arrayEnd => exact legible_complete hstack hdue h
    | _ => simp [step] at h
  | keyOrEnd =>
    cases t with
    | objectEnd => exact legible_complete hstack legible_object_nil h
    | string name =>
      obtain rfl := Option.some.inj h
      exact ⟨hstack, legible_object_nil, ht⟩
    | _ => simp [step] at h
  | key fields =>
    cases t with
    | string name =>
      obtain rfl := Option.some.inj h
      exact ⟨hstack, hdue, ht⟩
    | _ => simp [step] at h
  | colon fields name =>
    cases t with
    | colon =>
      obtain rfl := Option.some.inj h
      exact ⟨List.forall_mem_cons.mpr ⟨hdue, hstack⟩, trivial⟩
    | _ => simp [step] at h
  | afterField fields =>
    cases t with
    | comma =>
      obtain rfl := Option.some.inj h
      exact ⟨hstack, hdue⟩
    | objectEnd => exact legible_complete hstack hdue h
    | _ => simp [step] at h
  | nothing v => simp [step] at h

theorem legible_run {s s' : Stack} {ts : List Token} (hs : LegibleStack s)
    (hts : ∀ t ∈ ts, t.Writable) (h : run (step false) s ts = some s') : LegibleStack s' := by
  induction ts generalizing s with
  | nil =>
    obtain rfl := Option.some.inj h
    exact hs
  | cons t ts ih =>
    obtain ⟨s₁, hstep, hrun⟩ := run_cons_eq_some h
    obtain ⟨ht, hts⟩ := List.forall_mem_cons.mp hts
    exact ih (legible_step hs ht hstep) hts hrun

/-- **What is read is legible.** -/
theorem legible_of_parse {text : List UInt8} {v : Tree} (h : parse false text = some v) :
    v.Legible := by
  obtain ⟨ts, hlex, hread⟩ := Option.bind_eq_some_iff.mp h
  have hbegin : LegibleStack ([], .value) := ⟨by simp, trivial⟩
  exact (legible_run hbegin (writable_of_lex hlex) (read_eq_some.mp hread)).2

/-- **A legible value is read as itself.** -/
theorem parse_write_tokens {v : Tree} (h : v.Legible) :
    parse false (write v.tokens) = some v := by
  have hcomma : Separated [.comma] :=
    separated_cons_of_not_isNumber (by simp [Token.isNumber]) trivial
  rw [parse, lex_write h (separated_tokens v rfl hcomma), Option.bind_some, read_tokens]

theorem write_tokens_inj {v w : Tree} (hv : v.Legible) (hw : w.Legible) :
    write v.tokens = write w.tokens ↔ v = w := by
  constructor
  · intro h
    have hread := parse_write_tokens hw
    rw [← h, parse_write_tokens hv] at hread
    exact Option.some.inj hread
  · rintro rfl
    rfl

end Tree
end Json
