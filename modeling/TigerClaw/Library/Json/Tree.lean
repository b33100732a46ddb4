import TigerClaw.Library.Json.Object

/-!
# JSON values of any depth

A reader for whole documents, with a stack of the arrays and objects that are open.  Anything
behind the value is refused, and so is, by a strict reader, an object with a repeated field name.

* `Tree.step`, `Tree.parse`: one token, and a text.
* `parse_write`: an object of strings is read as its fields.
* `parse_write_eq_none`: unless one of the strings is not UTF-8.
* `parse_torn`: the text of an object cut short is no document.
-/

namespace Json

inductive Tree where
  | null
  | bool (b : Bool)
  | number (s : List UInt8)
  | string (s : List UInt8)
  | array (elems : List Tree)
  | object (fields : List (List UInt8 × Tree))

namespace Tree

/-- An array or an object that is open around the value that is being read: what it has so far, and
the name under which the value goes. -/
inductive Frame where
  | array (elems : List Tree)
  | object (fields : List (List UInt8 × Tree)) (name : List UInt8)

/-- What is due next, with what the innermost array or object has so far. -/
inductive Due where
  | value
  | elemOrEnd
  | afterElem (elems : List Tree)
  | keyOrEnd
  | key (fields : List (List UInt8 × Tree))
  | colon (fields : List (List UInt8 × Tree)) (name : List UInt8)
  | afterField (fields : List (List UInt8 × Tree))
  | nothing (result : Tree)

/-- The open arrays and objects, innermost first, and what is due. -/
abbrev Stack : Type := List Frame × Due

section

-- whether a repeated field name is refused
variable (strict : Bool)

/-- A value is complete. -/
def complete (stack : List Frame) (v : Tree) : Option Stack :=
  match stack with
  | [] => some ([], .nothing v)
  | .array elems :: stack => some (stack, .afterElem (elems ++ [v]))
  | .object fields name :: stack =>
    if strict ∧ name ∈ fields.map Prod.fst then none
    else some (stack, .afterField (fields ++ [(name, v)]))

/-- A token where a value is due. -/
def beginValue (stack : List Frame) : Token → Option Stack
  | .null => complete strict stack .null
  | .bool b => complete strict stack (.bool b)
  | .number s => complete strict stack (.number s)
  | .string s => complete strict stack (.string s)
  | .arrayBegin => some (stack, .elemOrEnd)
  | .objectBegin => some (stack, .keyOrEnd)
  | _ => none

def step (s : Stack) (t : Token) : Option Stack :=
  match s.2, t with
  | .value, t => beginValue strict s.1 t
  | .elemOrEnd, .arrayEnd => complete strict s.1 (.array [])
  | .elemOrEnd, t => beginValue strict (.array [] :: s.1) t
  | .afterElem elems, .comma => some (.array elems :: s.1, .value)
  | .afterElem elems, .arrayEnd => complete strict s.1 (.array elems)
  | .keyOrEnd, .objectEnd => complete strict s.1 (.object [])
  | .keyOrEnd, .string name => some (s.1, .colon [] name)
  | .key fields, .string name => some (s.1, .colon fields name)
  | .colon fields name, .colon => some (.object fields name :: s.1, .value)
  | .afterField fields, .comma => some (s.1, .key fields)
  | .afterField fields, .objectEnd => complete strict s.1 (.object fields)
  | _, _ => none

/-- The document that the tokens are. -/
def read (ts : List Token) : Option Tree :=
  match StepMachine.run (step strict) ([], .value) ts with
  | some ([], .nothing v) => some v
  | _ => none

/-- The document that the text is. -/
def parse (text : List UInt8) : Option Tree := (lex text).bind (read strict)

end

/-- A field of an object. -/
def get (fields : List (List UInt8 × Tree)) (name : List UInt8) : Option Tree := fields.lookup name

end Tree

/-! ## An object of strings -/

open StepMachine (run run_append run_cons run_cons_eq_some run_append_eq_some)

/-- The tokens of an object whose values are strings. -/
def stringObject (fields : List (List UInt8 × List UInt8)) : List Token :=
  objectTokens (fields.map fun field =>
    (field.1, .scalar (.string field.2) (Token.isScalar_string field.2)))

theorem number_notMem_stringObject (s : List UInt8) (fields : List (List UInt8 × List UInt8)) :
    Token.number s ∉ stringObject fields := by
  intro hmem
  rcases mem_objectTokens hmem with hs | ⟨field, hfield, hname | hvalue⟩
  · cases hs
  · cases hname
  · obtain ⟨f, -, rfl⟩ := List.mem_map.mp hfield
    simp at hvalue

theorem mem_stringObject {fields : List (List UInt8 × List UInt8)}
    {field : List UInt8 × List UInt8} (h : field ∈ fields) :
    Token.string field.2 ∈ stringObject fields := by
  have hmem : Token.string field.2 ∈
      fieldTokens (field.1, .scalar (.string field.2) (Token.isScalar_string field.2)) := by
    simp [fieldTokens, Value.tokens]
  rw [stringObject, objectTokens, List.mem_append, List.mem_append]
  refine .inl (.inr (mem_commaSeparated_of_mem (List.mem_map_of_mem ?_) hmem))
  exact List.mem_map.mpr ⟨field, h, rfl⟩

namespace Tree

variable {strict : Bool}

theorem run_stringField {stack : List Frame} {due : Due} {fields : List (List UInt8 × Tree)}
    (hdue : due = .keyOrEnd ∧ fields = [] ∨ due = .key fields) {name s : List UInt8}
    (hnew : name ∉ fields.map Prod.fst) :
    run (step strict) (stack, due)
        (fieldTokens (name, .scalar (.string s) (Token.isScalar_string s))) =
      some (stack, .afterField (fields ++ [(name, .string s)])) := by
  have hkey : step strict (stack, due) (.string name) = some (stack, .colon fields name) := by
    rcases hdue with ⟨rfl, rfl⟩ | rfl <;> rfl
  have hcolon : step strict (stack, .colon fields name) .colon =
      some (.object fields name :: stack, .value) := rfl
  have hvalue : step strict (.object fields name :: stack, .value) (.string s) =
      some (stack, .afterField (fields ++ [(name, .string s)])) :=
    if_neg fun h => hnew h.2
  show run (step strict) (stack, due) [.string name, .colon, .string s] = _
  rw [run_cons, hkey, Option.bind_some, run_cons, hcolon, Option.bind_some,
    StepMachine.run_singleton, hvalue]

theorem run_stringFields {stack : List Frame} {due : Due} {before : List (List UInt8 × Tree)}
    (hdue : due = .keyOrEnd ∧ before = [] ∨ due = .key before)
    (field : List UInt8 × List UInt8) (fields : List (List UInt8 × List UInt8))
    (hnew : (before.map Prod.fst ++ (field :: fields).map Prod.fst).Nodup) :
    run (step strict) (stack, due)
        (commaSeparated (((field :: fields).map fun f =>
          (f.1, Value.scalar (.string f.2) (Token.isScalar_string f.2))).map fieldTokens)) =
      some (stack, .afterField (before ++ (field :: fields).map fun f => (f.1, .string f.2))) := by
  induction fields generalizing field before due with
  | nil =>
    have hfresh : field.1 ∉ before.map Prod.fst := fun hmem =>
      (List.nodup_append.mp hnew).2.2 _ hmem _ (by simp) rfl
    exact run_stringField hdue hfresh
  | cons field' fields ih =>
    have hfresh : field.1 ∉ before.map Prod.fst := fun hmem =>
      (List.nodup_append.mp hnew).2.2 _ hmem _ (by simp) rfl
    have hcomma : step strict (stack, .afterField (before ++ [(field.1, .string field.2)])) .comma =
        some (stack, .key (before ++ [(field.1, .string field.2)])) := rfl
    have hkey : Due.key (before ++ [(field.1, .string field.2)]) = .keyOrEnd ∧
          before ++ [(field.1, .string field.2)] = [] ∨
        Due.key (before ++ [(field.1, .string field.2)]) =
          .key (before ++ [(field.1, .string field.2)]) := .inr rfl
    have hrest := ih hkey field' (by simpa using hnew)
    rw [List.map_cons, List.map_cons, List.map_cons, List.map_cons, commaSeparated, run_append,
      run_stringField hdue hfresh, Option.bind_some, run_cons, hcomma, Option.bind_some]
    simpa using hrest

theorem read_stringObject {fields : List (List UInt8 × List UInt8)}
    (hnodup : (fields.map Prod.fst).Nodup) :
    read strict (stringObject fields) =
      some (.object (fields.map fun field => (field.1, .string field.2))) := by
  have hbegin : step strict ([], .value) .objectBegin = some ([], .keyOrEnd) := rfl
  rw [read, stringObject, objectTokens, List.append_assoc, List.singleton_append, run_cons, hbegin,
    Option.bind_some]
  cases fields with
  | nil => rfl
  | cons field fields =>
    rw [run_append, run_stringFields (.inl ⟨rfl, rfl⟩) field fields (by simpa using hnodup)]
    rfl

theorem scan_stringObject {fields : List (List UInt8 × List UInt8)}
    (hutf8 : ∀ field ∈ fields, utf8Valid field.1 = true ∧ utf8Valid field.2 = true) :
    scan .gap (write (stringObject fields)) = some (stringObject fields, .gap) := by
  refine scan_objectTokens fun field hfield => ?_
  obtain ⟨f, hf, rfl⟩ := List.mem_map.mp hfield
  refine ⟨(hutf8 f hf).1, fun t ht => ?_⟩
  obtain rfl := List.mem_singleton.mp ht
  exact (hutf8 f hf).2

/-- **An object of strings is read as its fields**, if no name comes twice. -/
theorem parse_write {fields : List (List UInt8 × List UInt8)} (hnodup : (fields.map Prod.fst).Nodup)
    (hutf8 : ∀ field ∈ fields, utf8Valid field.1 = true ∧ utf8Valid field.2 = true) :
    parse strict (write (stringObject fields)) =
      some (.object (fields.map fun field => (field.1, .string field.2))) := by
  rw [parse, lex, scan_stringObject hutf8]
  simpa [Mode.finish] using read_stringObject hnodup

/-- An object with a string that is not UTF-8 is written, but not read back. -/
theorem parse_write_eq_none {fields : List (List UInt8 × List UInt8)}
    {field : List UInt8 × List UInt8} (hfield : field ∈ fields)
    (hutf8 : utf8Valid field.2 = false) : parse strict (write (stringObject fields)) = none := by
  have hnumber : ∀ t ∈ stringObject fields, ¬ t.isNumber := by
    intro t ht hnum
    cases t with
    | number s => exact number_notMem_stringObject s fields ht
    | _ => cases hnum
  have hmem : Token.string field.2 ∈ stringObject fields :=
    mem_stringObject hfield
  rw [parse, lex, scan_write_eq_none hnumber hmem hutf8]
  rfl

/-! ## Torn texts -/

theorem complete_spec {stack : List Frame} {v : Tree} {s : Stack}
    (h : complete strict stack v = some s) :
    s ≠ ([], .value) ∧ ∀ w, s = ([], .nothing w) → stack = [] := by
  unfold complete at h
  split at h
  · obtain rfl := Option.some.inj h
    simp
  · obtain rfl := Option.some.inj h
    simp
  · split at h
    · simp at h
    · obtain rfl := Option.some.inj h
      simp

theorem beginValue_spec {stack : List Frame} {t : Token} {s : Stack}
    (h : beginValue strict stack t = some s) :
    s ≠ ([], .value) ∧ ∀ w, s = ([], .nothing w) → stack = [] := by
  cases t <;> simp only [beginValue, reduceCtorEq] at h
  all_goals first
    | exact complete_spec h
    | (obtain rfl := Option.some.inj h; simp)

theorem step_elemOrEnd {stack : List Frame} {t : Token} (h : t ≠ .arrayEnd) :
    step strict (stack, .elemOrEnd) t = beginValue strict (.array [] :: stack) t := by
  cases t <;> first | exact absurd rfl h | rfl

/-- The beginning is left for good, nothing comes after a document, and a number is a document only
where one is due. -/
theorem step_spec {s s' : Stack} {t : Token} (h : step strict s t = some s') :
    s' ≠ ([], .value) ∧ (∀ v, s.2 ≠ .nothing v) ∧
      ∀ digits v, t = .number digits → s' = ([], .nothing v) → s = ([], .value) := by
  obtain ⟨stack, due⟩ := s
  cases due with
  | value =>
    obtain ⟨hvalue, hdone⟩ := beginValue_spec h
    exact ⟨hvalue, by simp, fun digits v _ hs' => Prod.ext (hdone v hs') rfl⟩
  | elemOrEnd =>
    by_cases ht : t = .arrayEnd
    · subst ht
      exact ⟨(complete_spec h).1, by simp, by simp⟩
    · rw [step_elemOrEnd ht] at h
      obtain ⟨hvalue, hdone⟩ := beginValue_spec h
      exact ⟨hvalue, by simp, fun digits v _ hs' => by simpa using hdone v hs'⟩
  | afterElem elems =>
    cases t <;> simp only [step, reduceCtorEq] at h
    · exact ⟨(complete_spec h).1, by simp, by simp⟩
    · obtain rfl := Option.some.inj h
      simp
  | keyOrEnd =>
    cases t <;> simp only [step, reduceCtorEq] at h
    · exact ⟨(complete_spec h).1, by simp, by simp⟩
    · obtain rfl := Option.some.inj h
      simp
  | key fields =>
    cases t <;> simp only [step, reduceCtorEq] at h
    obtain rfl := Option.some.inj h
    simp
  | colon fields name =>
    cases t <;> simp only [step, reduceCtorEq] at h
    obtain rfl := Option.some.inj h
    simp
  | afterField fields =>
    cases t <;> simp only [step, reduceCtorEq] at h
    · exact ⟨(complete_spec h).1, by simp, by simp⟩
    · obtain rfl := Option.some.inj h
      simp
  | nothing v => cases t <;> simp [step] at h

theorem read_eq_some {ts : List Token} {v : Tree} :
    read strict ts = some v ↔ run (step strict) ([], .value) ts = some ([], .nothing v) := by
  rw [read]
  split
  · simp [*]
  · rename_i hne
    simp only [reduceCtorEq, false_iff]
    exact hne v

/-- **The text of a document that begins with a brace, cut short, is no document.**  The part that
is missing is more than blanks. -/
theorem parse_torn {v : Tree} {p s rest : List UInt8} {ts : List Token}
    (hscan : scan .gap (p ++ s) = some (ts, .gap)) (hread : read strict ts = some v)
    (hbrace : p ++ s = 0x7B :: rest) (hlast : ∃ b ∈ s, isBlank b = false) :
    parse strict p = none := by
  obtain ⟨tp, m, tail, hp, hs, rfl⟩ := scan_append_eq_some hscan
  rw [parse, lex, hp, Option.bind_some, Option.bind_eq_none_iff]
  intro ts' hts'
  obtain ⟨fin, hfin, rfl⟩ := Option.map_eq_some_iff.mp hts'
  rw [Option.eq_none_iff_forall_ne_some]
  intro v' hv'
  obtain ⟨s₁, htp, hrest⟩ := run_append_eq_some (read_eq_some.mp hv')
  cases m with
  | gap =>
    -- the document is complete, so the tokens of the rest cannot be read
    obtain rfl := Option.some.inj hfin
    obtain rfl := Option.some.inj hrest
    rw [read_eq_some, run_append, htp, Option.bind_some] at hread
    cases tail with
    | nil =>
      obtain ⟨b, hb, hblank⟩ := hlast
      rw [(blank_of_scan_nil hs).2 b hb] at hblank
      exact absurd hblank (by decide)
    | cons t tail =>
      obtain ⟨s₂, hstep, -⟩ := run_cons_eq_some hread
      exact (step_spec hstep).2.1 v' rfl
  | number acc st =>
    -- a number that ends the text is the whole of it, but the text begins with a brace
    rw [Mode.finish] at hfin
    split at hfin
    · obtain rfl := Option.some.inj hfin
      rw [StepMachine.run_singleton] at hrest
      obtain rfl := (step_spec hrest).2.2 acc v' rfl rfl
      obtain rfl : tp = [] := by
        rcases List.eq_nil_or_concat tp with rfl | ⟨tp, t, rfl⟩
        · rfl
        · rw [List.concat_eq_append] at htp
          obtain ⟨s₀, -, hlast⟩ := run_append_eq_some htp
          rw [StepMachine.run_singleton] at hlast
          exact absurd rfl (step_spec hlast).1
      cases p with
      | nil => simp [scan] at hp
      | cons b p =>
        obtain ⟨rfl, -⟩ := List.cons.inj hbrace
        obtain ⟨t₁, m₁, t₂, hb, -, hnil⟩ := scan_cons_eq_some.mp hp
        obtain ⟨rfl, -⟩ := Prod.mk.inj (Option.some.inj hb)
        simp at hnil
    · simp at hfin
  | string acc st => simp [Mode.finish] at hfin
  | literal l n => simp [Mode.finish] at hfin

end Tree

end Json
