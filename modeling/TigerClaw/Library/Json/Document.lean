import TigerClaw.Library.Json.Tree

/-!
# Documents of any shape

The tokens of a value, and the round trip through its text: a document that ends with a bracket, and
whose strings and numbers can be written, is read as itself.

* `Tree.tokens`: the tokens of a value, with the commas between the elements and the fields.
* `run_tokens`: where a value is due, the reader takes the tokens of one and nothing else.
* `parse_write_object`: the round trip of an object.
-/

namespace Json
namespace Tree

open StepMachine (run run_append run_cons run_singleton)

/-! ## Tokens -/

mutual

def tokens : Tree → List Token
  | .null => [.null]
  | .bool b => [.bool b]
  | .number s => [.number s]
  | .string s => [.string s]
  | .array elems => .arrayBegin :: (elemTokens elems ++ [.arrayEnd])
  | .object fields => .objectBegin :: (memberTokens fields ++ [.objectEnd])

def elemTokens : List Tree → List Token
  | [] => []
  | v :: elems => v.tokens ++ moreElemTokens elems

def moreElemTokens : List Tree → List Token
  | [] => []
  | v :: elems => .comma :: (v.tokens ++ moreElemTokens elems)

def memberTokens : List (List UInt8 × Tree) → List Token
  | [] => []
  | (name, v) :: fields => .string name :: .colon :: (v.tokens ++ moreMemberTokens fields)

def moreMemberTokens : List (List UInt8 × Tree) → List Token
  | [] => []
  | (name, v) :: fields =>
    .comma :: .string name :: .colon :: (v.tokens ++ moreMemberTokens fields)

end

theorem tokens_head (v : Tree) : ∃ t ts, v.tokens = t :: ts ∧ t ≠ .arrayEnd := by
  cases v with
  | null => exact ⟨_, _, rfl, by simp⟩
  | bool b => exact ⟨_, _, rfl, by simp⟩
  | number s => exact ⟨_, _, rfl, by simp⟩
  | string s => exact ⟨_, _, rfl, by simp⟩
  | array elems => exact ⟨_, _, by rw [tokens], by simp⟩
  | object fields => exact ⟨_, _, by rw [tokens], by simp⟩

/-! ## Reading -/

/-- The first element of an array is read like a value inside it. -/
theorem run_elemOrEnd (v : Tree) (stack : List Frame) :
    run (step false) (stack, .elemOrEnd) v.tokens =
      run (step false) (.array [] :: stack, .value) v.tokens := by
  obtain ⟨t, ts, htokens, ht⟩ := tokens_head v
  rw [htokens, run_cons, run_cons, step_elemOrEnd ht]
  rfl

theorem complete_object (stack : List Frame) (fields : List (List UInt8 × Tree))
    (name : List UInt8) (v : Tree) :
    complete false (.object fields name :: stack) v =
      some (stack, .afterField (fields ++ [(name, v)])) := by
  rw [complete, if_neg fun h => Bool.false_ne_true h.1]

mutual

/-- **The reader takes the tokens of a value.** -/
theorem run_tokens (stack : List Frame) (v : Tree) :
    run (step false) (stack, .value) v.tokens = complete false stack v := by
  cases v with
  | null => exact run_singleton _ _ _
  | bool b => exact run_singleton _ _ _
  | number s => exact run_singleton _ _ _
  | string s => exact run_singleton _ _ _
  | array elems =>
    have hbegin : step false (stack, .value) .arrayBegin = some (stack, .elemOrEnd) := rfl
    rw [tokens, run_cons, hbegin, Option.bind_some]
    cases elems with
    | nil => exact run_singleton _ _ _
    | cons w elems =>
      have hfirst : complete false (.array [] :: stack) w = some (stack, .afterElem [w]) := rfl
      rw [elemTokens, List.append_assoc, run_append, run_elemOrEnd, run_tokens _ w, hfirst,
        Option.bind_some, run_append, run_moreElemTokens stack [w] elems, Option.bind_some]
      exact run_singleton _ _ _
  | object fields =>
    have hbegin : step false (stack, .value) .objectBegin = some (stack, .keyOrEnd) := rfl
    rw [tokens, run_cons, hbegin, Option.bind_some]
    cases fields with
    | nil => exact run_singleton _ _ _
    | cons field fields =>
      obtain ⟨name, w⟩ := field
      have hkey : step false (stack, .keyOrEnd) (.string name) = some (stack, .colon [] name) := rfl
      have hcolon : step false (stack, .colon [] name) .colon =
          some (.object [] name :: stack, .value) := rfl
      have hfirst : complete false (.object [] name :: stack) w =
          some (stack, .afterField [(name, w)]) := complete_object stack [] name w
      rw [memberTokens, List.cons_append, run_cons, hkey, Option.bind_some, List.cons_append,
        run_cons, hcolon, Option.bind_some, List.append_assoc, run_append, run_tokens _ w, hfirst,
        Option.bind_some, run_append, run_moreMemberTokens stack [(name, w)] fields,
        Option.bind_some]
      exact run_singleton _ _ _

theorem run_moreElemTokens (stack : List Frame) (before elems : List Tree) :
    run (step false) (stack, .afterElem before) (moreElemTokens elems) =
      some (stack, .afterElem (before ++ elems)) := by
  cases elems with
  | nil => rw [moreElemTokens, StepMachine.run_nil, List.append_nil]
  | cons v elems =>
    have hcomma : step false (stack, .afterElem before) .comma =
        some (.array before :: stack, .value) := rfl
    have hnext : complete false (.array before :: stack) v =
        some (stack, .afterElem (before ++ [v])) := rfl
    rw [moreElemTokens, run_cons, hcomma, Option.bind_some, run_append, run_tokens _ v, hnext,
      Option.bind_some, run_moreElemTokens stack (before ++ [v]) elems, List.append_assoc,
      List.singleton_append]

theorem run_moreMemberTokens (stack : List Frame) (before fields : List (List UInt8 × Tree)) :
    run (step false) (stack, .afterField before) (moreMemberTokens fields) =
      some (stack, .afterField (before ++ fields)) := by
  cases fields with
  | nil => rw [moreMemberTokens, StepMachine.run_nil, List.append_nil]
  | cons field fields =>
    obtain ⟨name, v⟩ := field
    have hcomma : step false (stack, .afterField before) .comma = some (stack, .key before) := rfl
    have hkey : step false (stack, .key before) (.string name) =
        some (stack, .colon before name) := rfl
    have hcolon : step false (stack, .colon before name) .colon =
        some (.object before name :: stack, .value) := rfl
    rw [moreMemberTokens, run_cons, hcomma, Option.bind_some, run_cons, hkey, Option.bind_some,
      run_cons, hcolon, Option.bind_some, run_append, run_tokens _ v,
      complete_object stack before name v, Option.bind_some,
      run_moreMemberTokens stack (before ++ [(name, v)]) fields, List.append_assoc,
      List.singleton_append]

end

theorem read_tokens (v : Tree) : read false v.tokens = some v := by
  rw [read, run_tokens [] v]
  rfl

/-! ## Text -/

mutual

/-- A number in a value is followed by punctuation, if the value is. -/
theorem separated_tokens (v : Tree) {us : List Token} {s : Token} (hs : s.isStructural)
    (hus : Separated (s :: us)) : Separated (v.tokens ++ s :: us) := by
  cases v with
  | null => exact separated_cons_of_not_isNumber (by simp [Token.isNumber]) hus
  | bool b => exact separated_cons_of_not_isNumber (by simp [Token.isNumber]) hus
  | number n => exact ⟨fun _ => ⟨s, rfl, hs⟩, hus⟩
  | string n => exact separated_cons_of_not_isNumber (by simp [Token.isNumber]) hus
  | array elems =>
    have hend : Separated (.arrayEnd :: s :: us) :=
      separated_cons_of_not_isNumber (by simp [Token.isNumber]) hus
    rw [tokens, List.cons_append, List.append_assoc]
    refine separated_cons_of_not_isNumber (by simp [Token.isNumber]) ?_
    cases elems with
    | nil => exact hend
    | cons w elems =>
      obtain ⟨s', us', hmore, hs', hus'⟩ := separated_moreElemTokens elems rfl hend
      rw [elemTokens, List.append_assoc, List.singleton_append, hmore]
      exact separated_tokens w hs' hus'
  | object fields =>
    have hend : Separated (.objectEnd :: s :: us) :=
      separated_cons_of_not_isNumber (by simp [Token.isNumber]) hus
    rw [tokens, List.cons_append, List.append_assoc]
    refine separated_cons_of_not_isNumber (by simp [Token.isNumber]) ?_
    cases fields with
    | nil => exact hend
    | cons field fields =>
      obtain ⟨name, w⟩ := field
      obtain ⟨s', us', hmore, hs', hus'⟩ := separated_moreMemberTokens fields rfl hend
      rw [memberTokens, List.cons_append, List.cons_append, List.append_assoc,
        List.singleton_append, hmore]
      refine separated_cons_of_not_isNumber (by simp [Token.isNumber]) ?_
      exact separated_cons_of_not_isNumber (by simp [Token.isNumber]) (separated_tokens w hs' hus')

theorem separated_moreElemTokens (elems : List Tree) {us : List Token} {s : Token}
    (hs : s.isStructural) (hus : Separated (s :: us)) :
    ∃ s' us', moreElemTokens elems ++ s :: us = s' :: us' ∧ s'.isStructural ∧
      Separated (s' :: us') := by
  cases elems with
  | nil => exact ⟨s, us, by rw [moreElemTokens, List.nil_append], hs, hus⟩
  | cons v elems =>
    obtain ⟨s', us', hmore, hs', hus'⟩ := separated_moreElemTokens elems hs hus
    refine ⟨.comma, v.tokens ++ s' :: us', ?_, rfl, ?_⟩
    · rw [moreElemTokens, List.cons_append, List.append_assoc, hmore]
    · exact separated_cons_of_not_isNumber (by simp [Token.isNumber]) (separated_tokens v hs' hus')

theorem separated_moreMemberTokens (fields : List (List UInt8 × Tree)) {us : List Token} {s : Token}
    (hs : s.isStructural) (hus : Separated (s :: us)) :
    ∃ s' us', moreMemberTokens fields ++ s :: us = s' :: us' ∧ s'.isStructural ∧
      Separated (s' :: us') := by
  cases fields with
  | nil => exact ⟨s, us, by rw [moreMemberTokens, List.nil_append], hs, hus⟩
  | cons field fields =>
    obtain ⟨name, v⟩ := field
    obtain ⟨s', us', hmore, hs', hus'⟩ := separated_moreMemberTokens fields hs hus
    refine ⟨.comma, .string name :: .colon :: (v.tokens ++ s' :: us'), ?_, rfl, ?_⟩
    · rw [moreMemberTokens, List.cons_append, List.cons_append, List.cons_append, List.append_assoc,
        hmore]
    · refine separated_cons_of_not_isNumber (by simp [Token.isNumber]) ?_
      refine separated_cons_of_not_isNumber (by simp [Token.isNumber]) ?_
      exact separated_cons_of_not_isNumber (by simp [Token.isNumber]) (separated_tokens v hs' hus')

end

theorem separated_object (fields : List (List UInt8 × Tree)) :
    Separated (tokens (.object fields)) := by
  have hend : Separated [.objectEnd] :=
      separated_cons_of_not_isNumber (by simp [Token.isNumber]) trivial
  rw [tokens]
  refine separated_cons_of_not_isNumber (by simp [Token.isNumber]) ?_
  cases fields with
  | nil => exact hend
  | cons field fields =>
    obtain ⟨name, w⟩ := field
    obtain ⟨s', us', hmore, hs', hus'⟩ := separated_moreMemberTokens fields rfl hend
    rw [memberTokens, List.cons_append, List.cons_append, List.append_assoc, hmore]
    refine separated_cons_of_not_isNumber (by simp [Token.isNumber]) ?_
    exact separated_cons_of_not_isNumber (by simp [Token.isNumber]) (separated_tokens w hs' hus')

/-- **An object is read as itself**, if its strings and numbers can be written. -/
theorem parse_write_object {fields : List (List UInt8 × Tree)}
    (hw : ∀ t ∈ tokens (.object fields), t.Writable) :
    parse false (write (tokens (.object fields))) = some (.object fields) := by
  rw [parse, lex, scan_write hw (separated_object fields)]
  simpa [Mode.finish] using read_tokens (.object fields)

end Tree
end Json
