import TigerClaw.Library.Json.Access
import TigerClaw.Library.Json.Document

/-!
# Values of a known type

How bytes and integers are put into a document, and how a reader that knows which type is due takes
them out again.

* `ofBytes`, `bytes?`: a string, or an array of numbers where the bytes are not UTF-8.
* `ofInt`, `int?`: a number.  `floatInt` reads those that are not written like an integer.
* `optional?`: null or a value.
* `once`: a field that must not be there twice; `required`, `fieldOr`: one that must be there, one
  that has a default.
* `list?`: an array, element by element.
* `Tame`: the values built from these, which can be written and hold no control character.

`std.json.Stringify` with `.whitespace = .indent_2` puts every element and every field on a line of
its own.  The scanner skips the blanks, so that an indented document is read as itself.

* `spaced`: tokens with blanks in front of each; `scan_spaced`: what is scanned are the tokens.
* `layout`, `writeIndented`: the tokens of a document with the blanks in front of them.
* `parse_writeIndented`: the round trip of an object; `parse_take_writeIndented`: a part of the text
  is not read.
-/

namespace Json
namespace Tree

/-! ## Writing -/

def ofInt (n : ℤ) : Tree := .number (Digits.decimalInt n)

def ofBytes (s : List UInt8) : Tree :=
  if utf8Valid s then .string s else .array (s.map fun b => ofInt b.toNat)

def ofOptional : Option Tree → Tree
  | none => .null
  | some v => v

/-! ## Reading -/

section

variable (floatInt : List UInt8 → Option ℤ)

/-- An integer from `lo` to `hi`: a number, or a string that holds one. -/
def int? (lo hi : ℤ) : Tree → Option ℤ
  | .number s | .string s =>
    (if isNumberFormattedLikeAnInteger s then Digits.parseInt s else floatInt s).filter fun n =>
      decide (lo ≤ n) && decide (n ≤ hi)
  | _ => none

def byte? (v : Tree) : Option UInt8 := (v.int? floatInt 0 255).map fun n => UInt8.ofNat n.toNat

def bytes? : Tree → Option (List UInt8)
  | .string s => some s
  | .array elems => elems.mapM (byte? floatInt)
  | _ => none

end

/-- Null is nothing. -/
def optional? {α : Type} (read : Tree → Option α) : Tree → Option (Option α)
  | .null => some none
  | v => (read v).map some

/-- A field that must not be there twice. -/
def once (fields : List (List UInt8 × Tree)) (name : List UInt8) : Option (Option Tree) :=
  match fields.filter fun field => field.1 == name with
  | [] => some none
  | [field] => some (some field.2)
  | _ => none

/-- A field that must be there once. -/
def required (fields : List (List UInt8 × Tree)) (name : List UInt8) : Option Tree :=
  (once fields name).join

/-- A field that may be missing. -/
def fieldOr {α : Type} (fields : List (List UInt8 × Tree)) (name : List UInt8) (default : α)
    (read : Tree → Option α) : Option α :=
  (once fields name).bind fun v => v.elim (some default) read

/-- The tag of an enumeration. -/
def tag? {α : Type} (ofTag : List UInt8 → Option α) : Tree → Option α
  | .string s => ofTag s
  | _ => none

def members? : Tree → Option (List (List UInt8 × Tree))
  | .object fields => some fields
  | _ => none

def list? {α : Type} (read : Tree → Option α) : Tree → Option (List α)
  | .array elems => elems.mapM read
  | _ => none

/-! ## What is written is read -/

theorem isNumberFormattedLikeAnInteger_decimalInt (n : ℤ) :
    isNumberFormattedLikeAnInteger (Digits.decimalInt n) = true := by
  rw [isNumberFormattedLikeAnInteger, Bool.and_eq_true, decide_eq_true_eq, Bool.not_eq_true',
    List.any_eq_false]
  refine ⟨Digits.decimalInt_ne_minusZero n, fun b hb hpoint => ?_⟩
  simp only [Bool.or_eq_true, decide_eq_true_eq] at hpoint
  have hdigit := Digits.isDigit_or_minus_of_mem_decimalInt hb
  rcases hpoint with (rfl | rfl) | rfl <;> exact absurd hdigit (by decide)

section

variable {floatInt : List UInt8 → Option ℤ}

theorem int?_ofInt {lo hi n : ℤ} (hlo : lo ≤ n) (hhi : n ≤ hi) :
    (ofInt n).int? floatInt lo hi = some n := by
  rw [ofInt, int?, if_pos (isNumberFormattedLikeAnInteger_decimalInt n),
    Digits.parseInt_decimalInt, Option.filter_some, if_pos]
  rw [decide_eq_true hlo, decide_eq_true hhi, Bool.and_self]

theorem byte?_ofInt (b : UInt8) : (ofInt b.toNat).byte? floatInt = some b := by
  have hlt := b.toNat_lt
  rw [byte?, int?_ofInt (by omega) (by omega), Option.map_some, Int.toNat_natCast,
    UInt8.ofNat_toNat]

theorem mapM_byte? (s : List UInt8) :
    (s.map fun b => ofInt b.toNat).mapM (byte? floatInt) = some s := by
  induction s with
  | nil => rfl
  | cons b s ih =>
    rw [List.map_cons, List.mapM_cons, byte?_ofInt, ih]
    rfl

@[simp] theorem bytes?_ofBytes (s : List UInt8) : (ofBytes s).bytes? floatInt = some s := by
  rw [ofBytes]
  split
  · rfl
  · exact mapM_byte? s

theorem optional?_bytes?_ofOptional (s : Option (List UInt8)) :
    (ofOptional (s.map ofBytes)).optional? (bytes? floatInt) = some s := by
  cases s with
  | none => rfl
  | some s =>
    have hread : (ofBytes s).bytes? floatInt = some s := bytes?_ofBytes s
    rw [Option.map_some, ofOptional]
    by_cases hutf8 : utf8Valid s
    · rw [ofBytes, if_pos hutf8]
      rfl
    · rw [ofBytes, if_neg hutf8] at hread ⊢
      rw [optional?, hread, Option.map_some]
      simp

end

variable {α : Type} {fields : List (List UInt8 × Tree)} {name : List UInt8} {v : Tree}

theorem fieldOr_of_once (h : once fields name = some (some v)) (default : α)
    (read : Tree → Option α) : fieldOr fields name default read = read v := by
  rw [fieldOr, h]
  rfl

theorem required_of_once (h : once fields name = some (some v)) :
    required fields name = some v := by
  rw [required, h]
  rfl

theorem list?_map {f : α → Tree} {read : Tree → Option α} {l : List α}
    (h : ∀ a ∈ l, read (f a) = some a) : list? read (.array (l.map f)) = some l := by
  rw [list?]
  induction l with
  | nil => rfl
  | cons a l ih =>
    rw [List.map_cons, List.mapM_cons, h a List.mem_cons_self,
      ih fun b hb => h b (List.mem_cons_of_mem _ hb)]
    rfl

/-! ## What can be written -/

end Tree

/-- Strings in UTF-8, and integers. -/
def Token.Tame : Token → Prop
  | .string s => utf8Valid s = true
  | .number s => ∃ n, s = Digits.decimalInt n
  | _ => True

theorem Token.Tame.writable {t : Token} (h : t.Tame) : t.Writable := by
  cases t with
  | string s => exact h
  | number s =>
    obtain ⟨n, rfl⟩ := h
    exact writable_decimalInt n
  | _ => trivial

namespace Tree

/-- A document of strings in UTF-8 and integers. -/
def Tame (v : Tree) : Prop := ∀ t ∈ v.tokens, t.Tame

theorem tame_null : Tame .null := by
  intro t ht
  obtain rfl := List.mem_singleton.mp ht
  trivial

theorem tame_bool (b : Bool) : Tame (.bool b) := by
  intro t ht
  obtain rfl := List.mem_singleton.mp ht
  trivial

theorem tame_string {s : List UInt8} (h : utf8Valid s = true) : Tame (.string s) := by
  intro t ht
  obtain rfl := List.mem_singleton.mp ht
  exact h

theorem tame_ofInt (n : ℤ) : (ofInt n).Tame := by
  intro t ht
  obtain rfl := List.mem_singleton.mp ht
  exact ⟨n, rfl⟩

theorem tame_moreElemTokens {elems : List Tree} (h : ∀ v ∈ elems, v.Tame) :
    ∀ t ∈ moreElemTokens elems, t.Tame := by
  induction elems with
  | nil =>
    intro t ht
    rw [moreElemTokens] at ht
    exact absurd ht List.not_mem_nil
  | cons v elems ih =>
    intro t ht
    rw [moreElemTokens, List.mem_cons, List.mem_append] at ht
    rcases ht with rfl | ht | ht
    · trivial
    · exact h v List.mem_cons_self t ht
    · exact ih (fun w hw => h w (List.mem_cons_of_mem _ hw)) t ht

theorem tame_array {elems : List Tree} (h : ∀ v ∈ elems, v.Tame) : Tame (.array elems) := by
  intro t ht
  rw [tokens, List.mem_cons, List.mem_append, List.mem_singleton] at ht
  rcases ht with rfl | ht | rfl
  · trivial
  · refine tame_moreElemTokens h t ?_
    cases elems with
    | nil => exact ht
    | cons v elems =>
      rw [moreElemTokens]
      exact List.mem_cons_of_mem _ ht
  · trivial

theorem tame_moreMemberTokens {fields : List (List UInt8 × Tree)}
    (h : ∀ field ∈ fields, utf8Valid field.1 = true ∧ field.2.Tame) :
    ∀ t ∈ moreMemberTokens fields, t.Tame := by
  induction fields with
  | nil =>
    intro t ht
    rw [moreMemberTokens] at ht
    exact absurd ht List.not_mem_nil
  | cons field fields ih =>
    intro t ht
    obtain ⟨name, v⟩ := field
    rw [moreMemberTokens, List.mem_cons, List.mem_cons, List.mem_cons, List.mem_append] at ht
    rcases ht with rfl | rfl | rfl | ht | ht
    · trivial
    · exact (h _ List.mem_cons_self).1
    · trivial
    · exact (h _ List.mem_cons_self).2 t ht
    · exact ih (fun f hf => h f (List.mem_cons_of_mem _ hf)) t ht

theorem tame_object {fields : List (List UInt8 × Tree)}
    (h : ∀ field ∈ fields, utf8Valid field.1 = true ∧ field.2.Tame) : Tame (.object fields) := by
  intro t ht
  rw [tokens, List.mem_cons, List.mem_append, List.mem_singleton] at ht
  rcases ht with rfl | ht | rfl
  · trivial
  · refine tame_moreMemberTokens h t ?_
    cases fields with
    | nil => exact ht
    | cons field fields =>
      obtain ⟨name, v⟩ := field
      rw [moreMemberTokens]
      exact List.mem_cons_of_mem _ ht
  · trivial

theorem tame_ofBytes (s : List UInt8) : (ofBytes s).Tame := by
  rw [ofBytes]
  split
  · intro t ht
    obtain rfl := List.mem_singleton.mp ht
    assumption
  · refine tame_array fun v hv => ?_
    obtain ⟨b, -, rfl⟩ := List.mem_map.mp hv
    exact tame_ofInt _

theorem tame_ofOptional {v : Option Tree} (h : ∀ w, v = some w → w.Tame) : (ofOptional v).Tame := by
  cases v with
  | none => exact tame_null
  | some w => exact h w rfl

/-- **A tame object is read as itself**, and its text holds no control character. -/
theorem Tame.parse_write {fields : List (List UInt8 × Tree)} (h : Tame (.object fields)) :
    parse false (write (tokens (.object fields))) = some (.object fields) :=
  parse_write_object fun t ht => (h t ht).writable

theorem Tame.control_notMem {v : Tree} (h : v.Tame) {c : UInt8} (hc : c < 0x20) :
    c ∉ write v.tokens := by
  refine control_notMem_write hc fun s hs => ?_
  obtain ⟨n, rfl⟩ := h _ hs
  exact control_notMem_decimalInt hc n

end Tree
end Json

/-! ## Indented documents -/

namespace Json

/-- Tokens, each behind its blanks. -/
def spaced (ts : List (List UInt8 × Token)) : List UInt8 := ts.flatMap fun p => p.1 ++ p.2.write

theorem spaced_cons (blanks : List UInt8) (t : Token) (ts : List (List UInt8 × Token)) :
    spaced ((blanks, t) :: ts) = blanks ++ (t.write ++ spaced ts) := by
  rw [spaced, List.flatMap_cons, List.append_assoc]
  rfl

theorem scan_blanks {blanks : List UInt8} (h : ∀ b ∈ blanks, isBlank b = true) :
    scan .gap blanks = some ([], .gap) := by
  induction blanks with
  | nil => rfl
  | cons b blanks ih =>
    have hb : Mode.gap.step b = some ([], .gap) := by
      rw [Mode.step, gapStep, if_pos (h b List.mem_cons_self)]
    rw [scan, hb, Option.bind_some, ih fun c hc => h c (List.mem_cons_of_mem _ hc)]
    rfl

theorem Num.step_of_isBlank {b : UInt8} (h : isBlank b = true) (st : Num) : st.step b = none := by
  simp only [isBlank, Bool.or_eq_true, decide_eq_true_eq] at h
  rcases h with ((rfl | rfl) | rfl) | rfl <;> cases st <;> rfl

/-- A number ends where a byte does not go on with it. -/
theorem scan_number_end {acc bs : List UInt8} {st : Num} {b : UInt8} (hstop : st.step b = none)
    (hcomplete : st.complete = true) :
    scan (.number acc st) (b :: bs) =
      (scan .gap (b :: bs)).map fun r => (.number acc :: r.1, r.2) := by
  rw [scan, scan, Mode.step, Mode.step, hstop]
  simp only [hcomplete, if_true]
  cases gapStep b with
  | none => rfl
  | some r =>
    simp only [Option.map_some, Option.bind_some]
    cases scan r.2 bs <;> rfl

/-- **The scanner reads the tokens**, whatever blanks are in front of them. -/
theorem scan_spaced {ts : List (List UInt8 × Token)}
    (hblank : ∀ p ∈ ts, ∀ b ∈ p.1, isBlank b = true) (hw : ∀ p ∈ ts, p.2.Writable)
    (hsep : Separated (ts.map Prod.snd)) :
    scan .gap (spaced ts) = some (ts.map Prod.snd, .gap) := by
  induction ts with
  | nil => rfl
  | cons p ts ih =>
    obtain ⟨blanks, t⟩ := p
    obtain ⟨hnext, hsep⟩ := hsep
    have hrest := ih (fun q hq => hblank q (List.mem_cons_of_mem _ hq))
      (fun q hq => hw q (List.mem_cons_of_mem _ hq)) hsep
    rw [spaced_cons, scan_append, scan_blanks (hblank _ List.mem_cons_self), Option.bind_some,
      scan_append]
    by_cases hn : t.isNumber
    · -- the number is open until the blank or the punctuation behind it
      obtain ⟨s, hhead, hs⟩ := hnext hn
      obtain ⟨b, bs, htext, hstop⟩ :
          ∃ b bs, spaced ts = b :: bs ∧ ∀ st : Num, st.step b = none := by
        cases ts with
        | nil => simp at hhead
        | cons q ts =>
          obtain ⟨blanks', t'⟩ := q
          obtain rfl : t' = s := Option.some.inj hhead
          cases blanks' with
          | nil =>
            obtain ⟨b, hwrite, -, hstop⟩ := write_of_isStructural hs
            exact ⟨b, spaced ts, by rw [spaced_cons, hwrite]; rfl, hstop⟩
          | cons b blanks' =>
            exact ⟨b, blanks' ++ (t'.write ++ spaced ts), by rw [spaced_cons, List.cons_append],
              Num.step_of_isBlank (hblank _ (List.mem_cons_of_mem _ List.mem_cons_self) b
                List.mem_cons_self)⟩
      cases t <;> simp [Token.isNumber] at hn
      case number digits =>
        obtain ⟨st, hcomplete, hscan⟩ := hw _ List.mem_cons_self
        rw [htext] at hrest
        rw [Token.write, hscan, Option.bind_some, htext, scan_number_end (hstop st) hcomplete,
          hrest]
        rfl
    · rw [scan_token (hw _ List.mem_cons_self) hn, Option.bind_some, hrest]
      rfl

namespace Tree

/-! ## Layout -/

/-- A new line, indented by two blanks for each level. -/
def newline (level : ℕ) : List UInt8 := 0x0A :: List.replicate (2 * level) 0x20

mutual

/-- The tokens of a value with the blanks in front of them. -/
def layout (lead : List UInt8) (level : ℕ) : Tree → List (List UInt8 × Token)
  | .null => [(lead, .null)]
  | .bool b => [(lead, .bool b)]
  | .number s => [(lead, .number s)]
  | .string s => [(lead, .string s)]
  | .array elems =>
    (lead, .arrayBegin) :: (elemLayout (level + 1) elems ++
      [(if elems.isEmpty then [] else newline level, .arrayEnd)])
  | .object fields =>
    (lead, .objectBegin) :: (memberLayout (level + 1) fields ++
      [(if fields.isEmpty then [] else newline level, .objectEnd)])

def elemLayout (level : ℕ) : List Tree → List (List UInt8 × Token)
  | [] => []
  | v :: elems => v.layout (newline level) level ++ moreElemLayout level elems

def moreElemLayout (level : ℕ) : List Tree → List (List UInt8 × Token)
  | [] => []
  | v :: elems => ([], .comma) :: (v.layout (newline level) level ++ moreElemLayout level elems)

def memberLayout (level : ℕ) : List (List UInt8 × Tree) → List (List UInt8 × Token)
  | [] => []
  | (name, v) :: fields =>
    (newline level, .string name) :: ([], .colon) :: (v.layout [0x20] level ++
      moreMemberLayout level fields)

def moreMemberLayout (level : ℕ) : List (List UInt8 × Tree) → List (List UInt8 × Token)
  | [] => []
  | (name, v) :: fields =>
    ([], .comma) :: (newline level, .string name) :: ([], .colon) :: (v.layout [0x20] level ++
      moreMemberLayout level fields)

end

/-- `std.json.Stringify.valueAlloc` with `.whitespace = .indent_2`. -/
def writeIndented (v : Tree) : List UInt8 := spaced (v.layout [] 0)

mutual

theorem map_snd_layout (v : Tree) (lead : List UInt8) (level : ℕ) :
    (v.layout lead level).map Prod.snd = v.tokens := by
  cases v with
  | null => rfl
  | bool b => rfl
  | number s => rfl
  | string s => rfl
  | array elems =>
    rw [layout, tokens, List.map_cons, List.map_append, map_snd_elemLayout elems]
    rfl
  | object fields =>
    rw [layout, tokens, List.map_cons, List.map_append, map_snd_memberLayout fields]
    rfl

theorem map_snd_elemLayout (elems : List Tree) (level : ℕ) :
    (elemLayout level elems).map Prod.snd = elemTokens elems := by
  cases elems with
  | nil => rfl
  | cons v elems =>
    rw [elemLayout, elemTokens, List.map_append, map_snd_layout v, map_snd_moreElemLayout elems]

theorem map_snd_moreElemLayout (elems : List Tree) (level : ℕ) :
    (moreElemLayout level elems).map Prod.snd = moreElemTokens elems := by
  cases elems with
  | nil => rfl
  | cons v elems =>
    rw [moreElemLayout, moreElemTokens, List.map_cons, List.map_append, map_snd_layout v,
      map_snd_moreElemLayout elems]

theorem map_snd_memberLayout (fields : List (List UInt8 × Tree)) (level : ℕ) :
    (memberLayout level fields).map Prod.snd = memberTokens fields := by
  cases fields with
  | nil => rfl
  | cons field fields =>
    obtain ⟨name, v⟩ := field
    rw [memberLayout, memberTokens, List.map_cons, List.map_cons, List.map_append,
      map_snd_layout v, map_snd_moreMemberLayout fields]

theorem map_snd_moreMemberLayout (fields : List (List UInt8 × Tree)) (level : ℕ) :
    (moreMemberLayout level fields).map Prod.snd = moreMemberTokens fields := by
  cases fields with
  | nil => rfl
  | cons field fields =>
    obtain ⟨name, v⟩ := field
    rw [moreMemberLayout, moreMemberTokens, List.map_cons, List.map_cons, List.map_cons,
      List.map_append, map_snd_layout v, map_snd_moreMemberLayout fields]

end

/-- There is nothing but blanks in front of the tokens. -/
def Blank (ts : List (List UInt8 × Token)) : Prop := ∀ p ∈ ts, ∀ b ∈ p.1, isBlank b = true

theorem blank_nil : Blank [] := by
  simp [Blank]

theorem blank_cons {blanks : List UInt8} {t : Token} {ts : List (List UInt8 × Token)}
    (hblanks : ∀ b ∈ blanks, isBlank b = true) (hts : Blank ts) : Blank ((blanks, t) :: ts) := by
  intro p hp
  rcases List.mem_cons.mp hp with rfl | hp
  · exact hblanks
  · exact hts p hp

theorem blank_append {ts us : List (List UInt8 × Token)} (hts : Blank ts) (hus : Blank us) :
    Blank (ts ++ us) := by
  intro p hp
  rcases List.mem_append.mp hp with hp | hp
  · exact hts p hp
  · exact hus p hp

theorem isBlank_newline (level : ℕ) : ∀ b ∈ newline level, isBlank b = true := by
  intro b hb
  rcases List.mem_cons.mp hb with rfl | hb
  · rfl
  · rw [List.eq_of_mem_replicate hb]
    rfl

theorem isBlank_ite_newline (empty : Bool) (level : ℕ) :
    ∀ b ∈ (if empty then [] else newline level), isBlank b = true := by
  cases empty with
  | true => simp
  | false => exact isBlank_newline level

mutual

theorem blank_layout (v : Tree) {lead : List UInt8} (hlead : ∀ b ∈ lead, isBlank b = true)
    (level : ℕ) : Blank (v.layout lead level) := by
  cases v with
  | null => exact blank_cons hlead blank_nil
  | bool b => exact blank_cons hlead blank_nil
  | number s => exact blank_cons hlead blank_nil
  | string s => exact blank_cons hlead blank_nil
  | array elems =>
    rw [layout]
    exact blank_cons hlead (blank_append (blank_elemLayout elems (level + 1))
      (blank_cons (isBlank_ite_newline _ level) blank_nil))
  | object fields =>
    rw [layout]
    exact blank_cons hlead (blank_append (blank_memberLayout fields (level + 1))
      (blank_cons (isBlank_ite_newline _ level) blank_nil))

theorem blank_elemLayout (elems : List Tree) (level : ℕ) : Blank (elemLayout level elems) := by
  cases elems with
  | nil => exact blank_nil
  | cons v elems =>
    rw [elemLayout]
    exact blank_append (blank_layout v (isBlank_newline level) level)
      (blank_moreElemLayout elems level)

theorem blank_moreElemLayout (elems : List Tree) (level : ℕ) :
    Blank (moreElemLayout level elems) := by
  cases elems with
  | nil => exact blank_nil
  | cons v elems =>
    rw [moreElemLayout]
    exact blank_cons (by simp) (blank_append (blank_layout v (isBlank_newline level) level)
      (blank_moreElemLayout elems level))

theorem blank_memberLayout (fields : List (List UInt8 × Tree)) (level : ℕ) :
    Blank (memberLayout level fields) := by
  cases fields with
  | nil => exact blank_nil
  | cons field fields =>
    obtain ⟨name, v⟩ := field
    rw [memberLayout]
    exact blank_cons (isBlank_newline level) (blank_cons (by simp)
      (blank_append (blank_layout v (by simp; rfl) level) (blank_moreMemberLayout fields level)))

theorem blank_moreMemberLayout (fields : List (List UInt8 × Tree)) (level : ℕ) :
    Blank (moreMemberLayout level fields) := by
  cases fields with
  | nil => exact blank_nil
  | cons field fields =>
    obtain ⟨name, v⟩ := field
    rw [moreMemberLayout]
    exact blank_cons (by simp) (blank_cons (isBlank_newline level) (blank_cons (by simp)
      (blank_append (blank_layout v (by simp; rfl) level) (blank_moreMemberLayout fields level))))

end

theorem spaced_append (ts ts' : List (List UInt8 × Token)) :
    spaced (ts ++ ts') = spaced ts ++ spaced ts' := List.flatMap_append

/-- An indented object stands between its braces. -/
theorem writeIndented_object (fields : List (List UInt8 × Tree)) :
    ∃ mid, writeIndented (.object fields) = 0x7B :: (mid ++ [0x7D]) := by
  let blanks : List UInt8 := if fields.isEmpty then [] else newline 0
  refine ⟨spaced (memberLayout 1 fields) ++ blanks, ?_⟩
  rw [writeIndented, layout, spaced_cons, spaced_append, List.append_assoc]
  show [] ++ ([0x7B] ++ (_ ++ (blanks ++ [0x7D] ++ []))) = _
  simp

section

variable {fields : List (List UInt8 × Tree)}

theorem scan_writeIndented (hw : ∀ t ∈ tokens (.object fields), t.Writable) :
    scan .gap (writeIndented (.object fields)) = some (tokens (.object fields), .gap) := by
  have hsnd := map_snd_layout (.object fields) [] 0
  rw [← hsnd]
  refine scan_spaced (blank_layout _ (by simp) 0) (fun p hp => hw p.2 ?_) ?_
  · rw [← hsnd]
    exact List.mem_map_of_mem hp
  · rw [hsnd]
    exact separated_object fields

/-- **An indented object is read as itself**, if its strings and numbers can be written. -/
theorem parse_writeIndented (hw : ∀ t ∈ tokens (.object fields), t.Writable) :
    parse false (writeIndented (.object fields)) = some (.object fields) := by
  rw [parse, lex, scan_writeIndented hw]
  simpa [Mode.finish] using read_tokens (.object fields)

/-- An indented object that is cut short is not read. -/
theorem parse_take_writeIndented (hw : ∀ t ∈ tokens (.object fields), t.Writable) {n : ℕ}
    (hn : n < (writeIndented (.object fields)).length) :
    parse false ((writeIndented (.object fields)).take n) = none := by
  obtain ⟨mid, htext⟩ := writeIndented_object fields
  have hsplit := List.take_append_drop n (writeIndented (.object fields))
  have hscan := scan_writeIndented hw
  rw [← hsplit] at hscan
  refine parse_torn hscan (read_tokens (.object fields)) (hsplit.trans htext) ⟨0x7D, ?_, by decide⟩
  -- the brace at the end is missing
  rw [htext, ← List.cons_append] at hn ⊢
  rw [List.length_append, List.length_singleton] at hn
  rw [List.drop_append_of_le_length (by omega)]
  exact List.mem_append_right _ List.mem_cons_self

end

end Tree
end Json
