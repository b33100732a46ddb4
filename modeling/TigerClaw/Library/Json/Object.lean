import TigerClaw.Library.Json.Writer

/-!
# Flat objects

An object whose values are scalars or arrays of scalars, read token by token into a value that the
caller builds up: `set` takes a field name and its value, and refuses what it does not know, does
not want twice or cannot use.

* `readStep`, `readObject`: the reader.
* `objectTokens`, `readObject_objectTokens`: an object as it is written, and its way back.
* `objectBegin_notMem`, `eq_nil_of_run_done`: there is one brace at each end of what is read, and
  none between them.
* `decode_torn`, `decode_glued`: a text cut short, or run into the text of another object, is not
  read.
-/

namespace Json

universe u

variable {ρ : Type u} (set : ρ → List UInt8 → List Token → Option ρ)

/-- Where the reader stands, with the name of the field it reads, and with the tokens of its array
so far. -/
inductive Position where
  | start
  | keyOrEnd
  | key
  | colon (name : List UInt8)
  | value (name : List UInt8)
  | elemOrEnd (name : List UInt8) (elems : List Token)
  | elem (name : List UInt8) (elems : List Token)
  | afterElem (name : List UInt8) (elems : List Token)
  | afterValue
  | done
  deriving DecidableEq

def Token.isScalar : Token → Bool
  | .string _ | .number _ | .bool _ | .null => true
  | _ => false

theorem Token.isScalar_string (s : List UInt8) : (Token.string s).isScalar = true := rfl

theorem Token.isScalar_number (s : List UInt8) : (Token.number s).isScalar = true := rfl

theorem Token.isScalar_bool (b : Bool) : (Token.bool b).isScalar = true := rfl

theorem Token.isScalar_null : Token.null.isScalar = true := rfl

/-- One token.  The value of a field is handed to `set` as its tokens, brackets included. -/
def readStep (s : ρ × Position) (t : Token) : Option (ρ × Position) :=
  match s.2, t with
  | .start, .objectBegin => some (s.1, .keyOrEnd)
  | .keyOrEnd, .objectEnd => some (s.1, .done)
  | .keyOrEnd, .string name => some (s.1, .colon name)
  | .key, .string name => some (s.1, .colon name)
  | .colon name, .colon => some (s.1, .value name)
  | .value name, .arrayBegin => some (s.1, .elemOrEnd name [])
  | .value name, t =>
    if t.isScalar then (set s.1 name [t]).map fun r => (r, .afterValue) else none
  | .elemOrEnd name elems, .arrayEnd =>
    (set s.1 name ([.arrayBegin] ++ elems ++ [.arrayEnd])).map fun r => (r, .afterValue)
  | .elemOrEnd name elems, t =>
    if t.isScalar then some (s.1, .afterElem name (elems ++ [t])) else none
  | .elem name elems, t =>
    if t.isScalar then some (s.1, .afterElem name (elems ++ [t])) else none
  | .afterElem name elems, .comma => some (s.1, .elem name elems)
  | .afterElem name elems, .arrayEnd =>
    (set s.1 name ([.arrayBegin] ++ elems ++ [.arrayEnd])).map fun r => (r, .afterValue)
  | .afterValue, .comma => some (s.1, .key)
  | .afterValue, .objectEnd => some (s.1, .done)
  | _, _ => none

/-- Read an object that is the whole of the text. -/
def readObject (init : ρ) (ts : List Token) : Option ρ :=
  match StepMachine.run (readStep set) (init, .start) ts with
  | some (r, .done) => some r
  | _ => none

/-- Read the text of an object. -/
def decode (init : ρ) (text : List UInt8) : Option ρ := (lex text).bind (readObject set init)

/-! ## Writing and reading -/

/-- The tokens of a value: a scalar, or an array of scalars. -/
inductive Value where
  | scalar (t : Token) (h : t.isScalar = true)
  | array (ts : List Token) (h : ∀ t ∈ ts, t.isScalar = true)

/-- The value as `set` is given it. -/
def Value.content : Value → List Token
  | .scalar t _ => [t]
  | .array ts _ => [.arrayBegin] ++ ts ++ [.arrayEnd]

@[simp] theorem Value.content_scalar (t : Token) (h : t.isScalar = true) :
    (Value.scalar t h).content = [t] := rfl

def commaSeparated : List (List Token) → List Token
  | [] => []
  | [ts] => ts
  | ts :: ts' :: tss => ts ++ .comma :: commaSeparated (ts' :: tss)

/-- The value as it is written. -/
def Value.tokens : Value → List Token
  | .scalar t _ => [t]
  | .array ts _ => [.arrayBegin] ++ commaSeparated (ts.map fun t => [t]) ++ [.arrayEnd]

def fieldTokens (field : List UInt8 × Value) : List Token :=
  [.string field.1, .colon] ++ field.2.tokens

/-- The tokens of an object with these fields, in order. -/
def objectTokens (fields : List (List UInt8 × Value)) : List Token :=
  [.objectBegin] ++ commaSeparated (fields.map fieldTokens) ++ [.objectEnd]

variable {set}

open StepMachine (run run_append run_cons run_cons_eq_some run_append_eq_some)

/-- The elements of an array, from where one is due. -/
theorem run_elems {r : ρ} {name : List UInt8} {elems ts : List Token} {t : Token} {pos : Position}
    (hpos : pos = .elemOrEnd name elems ∨ pos = .elem name elems)
    (h : ∀ t' ∈ t :: ts, t'.isScalar = true) :
    run (readStep set) (r, pos) (commaSeparated ((t :: ts).map fun t => [t])) =
      some (r, .afterElem name (elems ++ t :: ts)) := by
  have hfirst : readStep set (r, pos) t = some (r, .afterElem name (elems ++ [t])) := by
    have ht := h t List.mem_cons_self
    rcases hpos with rfl | rfl <;> cases t <;> simp [Token.isScalar] at ht <;> rfl
  induction ts generalizing t elems pos with
  | nil => simp [commaSeparated, hfirst]
  | cons t' ts ih =>
    have ht' := h t' (by simp)
    have hnext : readStep set (r, .elem name (elems ++ [t])) t' =
        some (r, .afterElem name (elems ++ [t] ++ [t'])) := if_pos ht'
    have hcomma : readStep set (r, .afterElem name (elems ++ [t])) .comma =
        some (r, .elem name (elems ++ [t])) := rfl
    have hrest := ih (.inr rfl) (fun a ha => h a (List.mem_cons_of_mem _ ha)) hnext
    simp only [List.map_cons, commaSeparated, List.singleton_append, run_cons, hfirst,
      Option.bind_some, hcomma]
    simpa using hrest

/-- A value is read as its content. -/
theorem run_value (r : ρ) (name : List UInt8) (v : Value) :
    run (readStep set) (r, .value name) v.tokens =
      (set r name v.content).map fun r => (r, .afterValue) := by
  cases v with
  | scalar t h =>
    rw [Value.tokens, StepMachine.run_singleton, Value.content]
    cases t <;> simp [Token.isScalar] at h <;> rfl
  | array ts h =>
    have hbegin : readStep set (r, .value name) .arrayBegin = some (r, .elemOrEnd name []) := rfl
    rw [Value.tokens, Value.content, List.append_assoc, List.singleton_append, run_cons, hbegin,
      Option.bind_some]
    cases ts with
    | nil => exact StepMachine.run_singleton (readStep set) (r, .elemOrEnd name []) .arrayEnd
    | cons t ts =>
      rw [run_append, run_elems (.inl rfl) h, Option.bind_some, StepMachine.run_singleton]
      rfl

/-- The fields that the reader collects. -/
def setFields (set : ρ → List UInt8 → List Token → Option ρ) (r : ρ)
    (fields : List (List UInt8 × Value)) : Option ρ :=
  fields.foldlM (fun r field => set r field.1 field.2.content) r

theorem run_field {r : ρ} {pos : Position} (hpos : pos = .keyOrEnd ∨ pos = .key)
    (field : List UInt8 × Value) :
    run (readStep set) (r, pos) (fieldTokens field) =
      (set r field.1 field.2.content).map fun r => (r, .afterValue) := by
  have hkey : readStep set (r, pos) (.string field.1) = some (r, .colon field.1) := by
    rcases hpos with rfl | rfl <;> rfl
  have hcolon : readStep set (r, .colon field.1) .colon = some (r, .value field.1) := rfl
  rw [fieldTokens, List.cons_append, run_cons, hkey, Option.bind_some, List.singleton_append,
    run_cons, hcolon, Option.bind_some, run_value]

theorem run_fields {r : ρ} {pos : Position} (hpos : pos = .keyOrEnd ∨ pos = .key)
    (field : List UInt8 × Value) (fields : List (List UInt8 × Value)) :
    run (readStep set) (r, pos) (commaSeparated ((field :: fields).map fieldTokens)) =
      (setFields set r (field :: fields)).map fun r => (r, .afterValue) := by
  induction fields generalizing field r pos with
  | nil =>
    rw [List.map_singleton, commaSeparated, run_field hpos, setFields]
    cases h : set r field.1 field.2.content <;> simp [h]
  | cons field' fields ih =>
    rw [List.map_cons, List.map_cons, commaSeparated, run_append, run_field hpos, setFields,
      List.foldlM_cons]
    cases set r field.1 field.2.content with
    | none => rfl
    | some r' =>
      have hcomma : readStep set (r', .afterValue) .comma = some (r', .key) := rfl
      rw [Option.map_some, Option.bind_some, run_cons, hcomma, Option.bind_some]
      exact ih (.inr rfl) field'

/-- **An object that is written is read field by field.** -/
theorem readObject_objectTokens (init : ρ) (fields : List (List UInt8 × Value)) :
    readObject set init (objectTokens fields) = setFields set init fields := by
  have hbegin : readStep set (init, .start) .objectBegin = some (init, .keyOrEnd) := rfl
  rw [readObject, objectTokens, List.append_assoc, List.singleton_append, run_cons, hbegin,
    Option.bind_some]
  cases fields with
  | nil => rfl
  | cons field fields =>
    rw [run_append, run_fields (.inl rfl)]
    cases setFields set init (field :: fields) with
    | none => rfl
    | some r => rfl

/-! ## The text of an object -/

theorem separated_cons_of_not_isNumber {t : Token} {ts : List Token} (ht : ¬ t.isNumber)
    (hts : Separated ts) : Separated (t :: ts) :=
  ⟨fun h => absurd h ht, hts⟩

theorem separated_elems {ts us : List Token} {s : Token} (hs : s.isStructural)
    (hus : Separated (s :: us)) :
    Separated (commaSeparated (ts.map fun t => [t]) ++ s :: us) := by
  induction ts with
  | nil => exact hus
  | cons t ts ih =>
    cases ts with
    | nil => exact ⟨fun _ => ⟨s, rfl, hs⟩, hus⟩
    | cons t' ts =>
      exact ⟨fun _ => ⟨.comma, rfl, rfl⟩,
        separated_cons_of_not_isNumber (by simp [Token.isNumber]) ih⟩

theorem separated_value (v : Value) {us : List Token} {s : Token} (hs : s.isStructural)
    (hus : Separated (s :: us)) : Separated (v.tokens ++ s :: us) := by
  cases v with
  | scalar t h => exact ⟨fun _ => ⟨s, rfl, hs⟩, hus⟩
  | array ts h =>
    rw [Value.tokens, List.append_assoc, List.append_assoc]
    refine separated_cons_of_not_isNumber (by simp [Token.isNumber]) ?_
    exact separated_elems rfl (separated_cons_of_not_isNumber (by simp [Token.isNumber]) hus)

theorem separated_fields (fields : List (List UInt8 × Value)) {us : List Token} {s : Token}
    (hs : s.isStructural) (hus : Separated (s :: us)) :
    Separated (commaSeparated (fields.map fieldTokens) ++ s :: us) := by
  have hfield : ∀ (field : List UInt8 × Value) {us : List Token} {s : Token}, s.isStructural →
      Separated (s :: us) → Separated (fieldTokens field ++ s :: us) := by
    intro field us s hs hus
    exact separated_cons_of_not_isNumber (by simp [Token.isNumber])
      (separated_cons_of_not_isNumber (by simp [Token.isNumber]) (separated_value field.2 hs hus))
  induction fields with
  | nil => exact hus
  | cons field fields ih =>
    cases fields with
    | nil => exact hfield field hs hus
    | cons field' fields =>
      rw [List.map_cons, List.map_cons, commaSeparated, List.append_assoc]
      exact hfield field rfl (separated_cons_of_not_isNumber (by simp [Token.isNumber]) ih)

theorem separated_objectTokens (fields : List (List UInt8 × Value)) :
    Separated (objectTokens fields) := by
  rw [objectTokens, List.append_assoc]
  refine separated_cons_of_not_isNumber (by simp [Token.isNumber]) ?_
  exact separated_fields fields rfl
    (separated_cons_of_not_isNumber (by simp [Token.isNumber]) trivial)

theorem mem_commaSeparated_of_mem {t : Token} {tss : List (List Token)} {ts : List Token}
    (hts : ts ∈ tss) (ht : t ∈ ts) : t ∈ commaSeparated tss := by
  induction tss with
  | nil => simp at hts
  | cons us tss ih =>
    cases tss with
    | nil =>
      obtain rfl := List.mem_singleton.mp hts
      exact ht
    | cons us' tss =>
      rw [commaSeparated, List.mem_append]
      rcases List.mem_cons.mp hts with rfl | hts
      · exact .inl ht
      · exact .inr (List.mem_cons_of_mem _ (ih hts))

theorem mem_commaSeparated {t : Token} {tss : List (List Token)} (h : t ∈ commaSeparated tss) :
    t = .comma ∨ ∃ ts ∈ tss, t ∈ ts := by
  induction tss with
  | nil => simp [commaSeparated] at h
  | cons ts tss ih =>
    cases tss with
    | nil => exact .inr ⟨ts, List.mem_cons_self, h⟩
    | cons ts' tss =>
      rw [commaSeparated, List.mem_append, List.mem_cons] at h
      rcases h with h | rfl | h
      · exact .inr ⟨ts, List.mem_cons_self, h⟩
      · exact .inl rfl
      · exact (ih h).imp id fun ⟨us, hus, ht⟩ => ⟨us, List.mem_cons_of_mem _ hus, ht⟩

/-- What is in an object besides punctuation. -/
theorem mem_objectTokens {t : Token} {fields : List (List UInt8 × Value)}
    (h : t ∈ objectTokens fields) :
    t.isStructural ∨ ∃ field ∈ fields, t = .string field.1 ∨ t ∈ field.2.content := by
  simp only [objectTokens, List.mem_append, List.mem_singleton] at h
  rcases h with (rfl | h) | rfl
  · exact .inl rfl
  · rcases mem_commaSeparated h with rfl | ⟨ts, hts, ht⟩
    · exact .inl rfl
    · obtain ⟨field, hfield, rfl⟩ := List.mem_map.mp hts
      simp only [fieldTokens, List.mem_append, List.mem_cons, List.not_mem_nil, or_false] at ht
      rcases ht with (rfl | rfl) | ht
      · exact .inr ⟨field, hfield, .inl rfl⟩
      · exact .inl rfl
      · rcases field with ⟨name, _ | ⟨ts, hts⟩⟩
        · exact .inr ⟨_, hfield, .inr ht⟩
        · simp only [Value.tokens, List.mem_append, List.mem_singleton] at ht
          rcases ht with (rfl | ht) | rfl
          · exact .inl rfl
          · rcases mem_commaSeparated ht with rfl | ⟨us, hus, ht⟩
            · exact .inl rfl
            · obtain ⟨t', ht', rfl⟩ := List.mem_map.mp hus
              obtain rfl := List.mem_singleton.mp ht
              exact .inr ⟨_, hfield, .inr (by simp [Value.content, ht'])⟩
          · exact .inl rfl
  · exact .inl rfl

/-- The text of an object can be scanned, if its strings and numbers can be written. -/
theorem scan_objectTokens {fields : List (List UInt8 × Value)}
    (hw : ∀ field ∈ fields, utf8Valid field.1 = true ∧ ∀ t ∈ field.2.content, t.Writable) :
    scan .gap (write (objectTokens fields)) = some (objectTokens fields, .gap) := by
  refine scan_write (fun t ht => ?_) (separated_objectTokens fields)
  rcases mem_objectTokens ht with hs | ⟨field, hfield, rfl | ht⟩
  · cases t <;> simp [Token.isStructural] at hs <;> trivial
  · exact (hw field hfield).1
  · exact (hw field hfield).2 t ht

/-- **The text of an object is read field by field.** -/
theorem decode_write (init : ρ) {fields : List (List UInt8 × Value)}
    (hw : ∀ field ∈ fields, utf8Valid field.1 = true ∧ ∀ t ∈ field.2.content, t.Writable) :
    decode set init (write (objectTokens fields)) = setFields set init fields := by
  rw [decode, lex, scan_objectTokens hw]
  simpa [Mode.finish] using readObject_objectTokens init fields

/-! ## Braces -/

/-- Only the beginning is left, and by an opening brace; only the end is entered by a closing
one. -/
theorem readStep_spec {s s' : ρ × Position} {t : Token} (h : readStep set s t = some s') :
    s'.2 ≠ .start ∧ (t = .objectBegin → s.2 = .start) ∧ (s'.2 = .done → t = .objectEnd) ∧
      s.2 ≠ .done := by
  obtain ⟨r, pos⟩ := s
  cases pos <;> cases t <;> simp [readStep, Token.isScalar] at h
  all_goals first
    | subst h; simp
    | (obtain ⟨r', -, rfl⟩ := h; simp)

theorem objectBegin_notMem {s s' : ρ × Position} {ts : List Token}
    (h : run (readStep set) s ts = some s') (hs : s.2 ≠ .start) : Token.objectBegin ∉ ts := by
  induction ts generalizing s with
  | nil => simp
  | cons t ts ih =>
    obtain ⟨m, hstep, hrun⟩ := run_cons_eq_some h
    obtain ⟨hm, hbegin, -⟩ := readStep_spec hstep
    rw [List.mem_cons, not_or]
    exact ⟨fun ht => hs (hbegin ht.symm), ih hrun hm⟩

theorem readObject_eq_some {init r : ρ} {ts : List Token} :
    readObject set init ts = some r ↔
      run (readStep set) (init, .start) ts = some (r, .done) := by
  rw [readObject]
  split
  · simp [*]
  · rename_i hne
    simp only [reduceCtorEq, false_iff]
    exact hne r

/-- After the closing brace there is nothing. -/
theorem eq_nil_of_run_done {r : ρ} {s : ρ × Position} {ts : List Token}
    (h : run (readStep set) (r, .done) ts = some s) : ts = [] := by
  cases ts with
  | nil => rfl
  | cons t ts =>
    obtain ⟨m, hstep, -⟩ := run_cons_eq_some h
    exact absurd rfl (readStep_spec hstep).2.2.2

/-! ## Torn texts -/

/-- **A text cut short is not read.**  `ts` are the tokens of the whole text, which is read and
does not end in a blank. -/
theorem decode_torn {init r : ρ} {p s : List UInt8} {ts : List Token}
    (hscan : scan .gap (p ++ s) = some (ts, .gap)) (hread : readObject set init ts = some r)
    (hlast : ∃ b ∈ s, isBlank b = false) : decode set init p = none := by
  obtain ⟨tp, m, tail, hp, hs, rfl⟩ := scan_append_eq_some hscan
  rw [decode, lex, hp, Option.bind_some, Option.bind_eq_none_iff]
  intro ts' hts'
  obtain ⟨fin, hfin, rfl⟩ := Option.map_eq_some_iff.mp hts'
  rw [Option.eq_none_iff_forall_ne_some]
  intro r' hr'
  rw [readObject_eq_some] at hr'
  obtain ⟨s₁, htp, hrest⟩ := run_append_eq_some hr'
  cases m with
  | gap =>
    -- the closing brace has been read, so the tokens of the rest cannot be
    obtain rfl := Option.some.inj hfin
    obtain rfl := Option.some.inj hrest
    rw [readObject_eq_some, run_append, htp, Option.bind_some] at hread
    obtain rfl := eq_nil_of_run_done hread
    obtain ⟨b, hb, hblank⟩ := hlast
    rw [(blank_of_scan_nil hs).2 b hb] at hblank
    exact absurd hblank (by decide)
  | number acc st =>
    rw [Mode.finish] at hfin
    split at hfin
    · obtain rfl := Option.some.inj hfin
      rw [StepMachine.run_singleton] at hrest
      exact absurd ((readStep_spec hrest).2.2.1 rfl) (by simp)
    · simp at hfin
  | string acc st => simp [Mode.finish] at hfin
  | literal l n => simp [Mode.finish] at hfin

/-- **A text run into the text of another object is not read.**  `p` has opened an object; what
follows opens another one, whose first field name begins with a byte `c` that begins no token. -/
theorem decode_glued {init : ρ} {p rest : List UInt8} {tp : List Token} {m : Mode} {c : UInt8}
    (hp : scan .gap p = some (.objectBegin :: tp, m)) (hc : gapStep c = none) :
    decode set init (p ++ 0x7B :: 0x22 :: c :: rest) = none := by
  rw [Option.eq_none_iff_forall_ne_some]
  intro r hr
  obtain ⟨ts, hlex, hread⟩ := Option.bind_eq_some_iff.mp hr
  obtain ⟨⟨ts', m'⟩, hscan, hfin⟩ := Option.bind_eq_some_iff.mp hlex
  obtain ⟨fin, -, rfl⟩ := Option.map_eq_some_iff.mp hfin
  obtain ⟨tp', m₀, tail, hp', hrest, rfl⟩ := scan_append_eq_some hscan
  obtain ⟨rfl, rfl⟩ := Prod.mk.inj (Option.some.inj (hp.symm.trans hp'))
  obtain ⟨t₁, m₁, tail, hbrace, hrest, rfl⟩ := scan_cons_eq_some.mp hrest
  rcases step_brace hbrace with hbegin | ⟨-, acc, rfl⟩
  · -- a second opening brace
    rw [readObject_eq_some, List.append_assoc, List.cons_append] at hread
    obtain ⟨s, hstep, hrun⟩ := run_cons_eq_some hread
    exact objectBegin_notMem hrun (readStep_spec hstep).1 (by simp [hbegin])
  · -- inside a string, which the quote after the brace ends
    obtain ⟨t₂, m₂, tail, hquote, hrest, -⟩ := scan_cons_eq_some.mp hrest
    obtain rfl := step_quote hquote
    obtain ⟨t₃, m₃, -, hstep, -⟩ := scan_cons_eq_some.mp hrest
    rw [Mode.step, hc] at hstep
    simp at hstep

end Json
