import Mathlib.Data.List.Basic

/-!
# MarkdownV2

The markup of the messages of a bot: `*` around bold, `_` around italic and `__` around underlined
text, a backtick around code and three around preformatted text, and links with their text in
brackets and their target in parentheses.  What would be a mark where it stands has a backslash in
front of it.  Two underscores are one mark, always.

* `special`: what has to be escaped, by what is open.  `escape`: a text that is.
* `next`, `parse`: one mark or character, and the text without its marks, if every entity is closed
  and nothing is escaped without need.
* `parse_escape`: an escaped text is read as what it says.
* `parse_mark`: a mark says nothing, and changes what is open.
-/

namespace MarkdownV2

/-- What is open; a link has its text open first, then its target. -/
inductive Entity where
  | bold
  | italic
  | underline
  | code
  | pre
  | label
  | target
  deriving DecidableEq

def backslash : UInt8 := 0x5C

def star : UInt8 := 0x2A

def underscore : UInt8 := 0x5F

def tick : UInt8 := 0x60

def openBracket : UInt8 := 0x5B

def closeBracket : UInt8 := 0x5D

def openParen : UInt8 := 0x28

def closeParen : UInt8 := 0x29

/-- The marks, and what else is reserved: `~>#+-=|`, braces, `.` and `!`. -/
def reserved : List UInt8 :=
  [underscore, star, openBracket, closeBracket, openParen, closeParen, 0x7E, tick, 0x3E, 0x23, 0x2B,
    0x2D, 0x3D, 0x7C, 0x7B, 0x7D, 0x2E, 0x21, backslash]

/-- What has to be escaped in the innermost entity. -/
def special : Option Entity → UInt8 → Bool
  | some .code, c | some .pre, c => c = tick || c = backslash
  | some .target, c => c = closeParen || c = backslash
  | _, c => reserved.contains c

/-- Where bold, italic and underlined text can be, and everything else can begin. -/
def Running : Option Entity → Prop
  | some .code | some .pre | some .target => False
  | _ => True

/-- The same mark begins an entity and ends it. -/
def toggle (e : Entity) (stack : List Entity) : List Entity :=
  if stack.head? = some e then stack.tail else e :: stack

/-- A mark in running text: what is open behind it, and the rest. -/
def markText (stack : List Entity) (c : UInt8) (rest : List UInt8) :
    Option (List Entity × List UInt8) :=
  if c = star then some (toggle .bold stack, rest)
  else if c = underscore then
    if rest.head? = some underscore then some (toggle .underline stack, rest.tail)
    else some (toggle .italic stack, rest)
  else if c = tick then
    if rest.take 2 = [tick, tick] then some (.pre :: stack, rest.drop 2)
    else some (.code :: stack, rest)
  else if c = openBracket then some (.label :: stack, rest)
  else if c = closeBracket ∧ stack.head? = some .label ∧ rest.head? = some openParen then
    some (.target :: stack.tail, rest.tail)
  else none

/-- A mark. -/
def mark (stack : List Entity) (c : UInt8) (rest : List UInt8) :
    Option (List Entity × List UInt8) :=
  match stack.head? with
  | some .code | some .target => some (stack.tail, rest)
  | some .pre => if rest.take 2 = [tick, tick] then some (stack.tail, rest.drop 2) else none
  | _ => markText stack c rest

/-- One mark, or one character, which may be escaped: what it says, what is open behind it, and the
rest. -/
def next (stack : List Entity) (c : UInt8) (rest : List UInt8) :
    Option (List UInt8 × List Entity × List UInt8) :=
  if c = backslash then
    match rest with
    | [] => none
    | d :: rest => if special stack.head? d then some ([d], stack, rest) else none
  else if special stack.head? c then (mark stack c rest).map fun (stack, rest) => ([], stack, rest)
  else some ([c], stack, rest)

theorem length_markText {stack stack' : List Entity} {c : UInt8} {rest left : List UInt8}
    (h : markText stack c rest = some (stack', left)) : left.length ≤ rest.length := by
  unfold markText at h
  split_ifs at h
  all_goals
    obtain ⟨-, rfl⟩ := Prod.mk.inj (Option.some.inj h)
    simp

theorem length_mark {stack stack' : List Entity} {c : UInt8} {rest left : List UInt8}
    (h : mark stack c rest = some (stack', left)) : left.length ≤ rest.length := by
  unfold mark at h
  split at h
  · obtain ⟨-, rfl⟩ := Prod.mk.inj (Option.some.inj h)
    exact Nat.le_refl _
  · obtain ⟨-, rfl⟩ := Prod.mk.inj (Option.some.inj h)
    exact Nat.le_refl _
  · split_ifs at h
    obtain ⟨-, rfl⟩ := Prod.mk.inj (Option.some.inj h)
    simp
  · exact length_markText h

theorem length_next {stack stack' : List Entity} {c : UInt8} {rest said left : List UInt8}
    (h : next stack c rest = some (said, stack', left)) : left.length ≤ rest.length := by
  unfold next at h
  split_ifs at h with hslash hspecial
  · cases rest with
    | nil => cases h
    | cons d rest =>
      dsimp only at h
      split_ifs at h
      obtain ⟨-, rfl⟩ := Prod.mk.inj (Prod.mk.inj (Option.some.inj h)).2
      exact Nat.le_succ _
  · obtain ⟨⟨stack₁, rest₁⟩, hmark, heq⟩ := Option.map_eq_some_iff.mp h
    obtain ⟨-, rfl⟩ := Prod.mk.inj (Prod.mk.inj heq).2
    exact length_mark hmark
  · obtain ⟨-, rfl⟩ := Prod.mk.inj (Prod.mk.inj (Option.some.inj h)).2
    exact Nat.le_refl _

/-- What a text says, if it is well-formed behind what is open. -/
def parse (stack : List Entity) (text : List UInt8) : Option (List UInt8) :=
  match text with
  | [] => if stack = [] then some [] else none
  | c :: rest =>
    match _h : next stack c rest with
    | none => none
    | some (said, stack, left) => (parse stack left).map (said ++ ·)
termination_by text.length
decreasing_by exact Nat.lt_succ_of_le (length_next _h)

/-! ## Reading on -/

theorem parse_nil (stack : List Entity) :
    parse stack [] = if stack = [] then some [] else none := by
  unfold parse
  rfl

theorem parse_of_next {stack stack' : List Entity} {c : UInt8} {rest said left : List UInt8}
    (h : next stack c rest = some (said, stack', left)) :
    parse stack (c :: rest) = (parse stack' left).map (said ++ ·) := by
  rw [parse]
  split
  · rename_i hnone
    cases hnone.symm.trans h
  · rename_i hsome
    obtain ⟨rfl, hpair⟩ := Prod.mk.inj (Option.some.inj (hsome.symm.trans h))
    obtain ⟨rfl, rfl⟩ := Prod.mk.inj hpair
    rfl

/-- A mark says nothing, and changes what is open. -/
theorem parse_mark {stack stack' : List Entity} {e : Option Entity} (hhead : stack.head? = e)
    {c : UInt8} {rest left : List UInt8} (hslash : c ≠ backslash) (hspecial : special e c = true)
    (h : mark stack c rest = some (stack', left)) :
    parse stack (c :: rest) = parse stack' left := by
  have hnext : next stack c rest = some ([], stack', left) := by
    unfold next
    rw [if_neg hslash, hhead, if_pos hspecial, h]
    rfl
  rw [parse_of_next hnext]
  exact Option.map_id'

/-! ## Escaped text -/

/-- The text with a backslash in front of what is special. -/
def escape (e : Option Entity) (s : List UInt8) : List UInt8 :=
  s.flatMap fun c => if special e c then [backslash, c] else [c]

theorem special_backslash (e : Option Entity) : special e backslash = true := by
  cases e with
  | none => decide
  | some e => cases e <;> decide

theorem escape_append (e : Option Entity) (a b : List UInt8) :
    escape e (a ++ b) = escape e a ++ escape e b := List.flatMap_append

/-- **An escaped text is read as what it says.** -/
theorem parse_escape {stack : List Entity} {e : Option Entity} (hhead : stack.head? = e)
    (s rest : List UInt8) :
    parse stack (escape e s ++ rest) = (parse stack rest).map (s ++ ·) := by
  induction s with
  | nil => exact Option.map_id'.symm
  | cons c s ih =>
    have hsplit : escape e (c :: s) ++ rest =
        (if special e c then [backslash, c] else [c]) ++ (escape e s ++ rest) := by
      rw [escape, List.flatMap_cons, List.append_assoc]
      rfl
    have hread : parse stack (escape e (c :: s) ++ rest) =
        (parse stack (escape e s ++ rest)).map ([c] ++ ·) := by
      rw [hsplit]
      by_cases hspecial : special e c = true
      · rw [if_pos hspecial]
        refine parse_of_next ?_
        unfold next
        rw [if_pos rfl, hhead]
        exact if_pos hspecial
      · have hslash : c ≠ backslash := fun h => hspecial (h ▸ special_backslash e)
        rw [if_neg hspecial]
        refine parse_of_next ?_
        unfold next
        rw [if_neg hslash, hhead, if_neg hspecial]
        rfl
    rw [hread, ih, Option.map_map]
    rfl

/-- An escaped text does not begin with a mark. -/
theorem head?_escape_ne {e : Option Entity} {c : UInt8} (hslash : c ≠ backslash)
    (hspecial : special e c = true) {s : List UInt8} (hs : s ≠ []) (rest : List UInt8) :
    (escape e s ++ rest).head? ≠ some c := by
  obtain ⟨d, s, rfl⟩ := List.exists_cons_of_ne_nil hs
  rw [escape, List.flatMap_cons]
  split_ifs with hd
  · exact fun h => hslash (Option.some.inj h).symm
  · intro h
    obtain rfl := Option.some.inj h
    exact hd hspecial

/-! ## Marks in running text -/

theorem mark_of_running {stack : List Entity} (h : Running stack.head?) (c : UInt8)
    (rest : List UInt8) : mark stack c rest = markText stack c rest := by
  unfold mark
  generalize stack.head? = e at h
  cases e with
  | none => rfl
  | some e =>
    cases e with
    | code | pre | target => exact h.elim
    | bold | italic | underline | label => rfl

theorem special_of_running {e : Option Entity} (h : Running e) (c : UInt8) :
    special e c = reserved.contains c := by
  cases e with
  | none => rfl
  | some e =>
    cases e with
    | code | pre | target => exact h.elim
    | bold | italic | underline | label => rfl

theorem parse_markText {stack stack' : List Entity} (hrunning : Running stack.head?) {c : UInt8}
    {rest left : List UInt8} (hslash : c ≠ backslash) (hreserved : reserved.contains c = true)
    (h : markText stack c rest = some (stack', left)) :
    parse stack (c :: rest) = parse stack' left :=
  parse_mark rfl hslash ((special_of_running hrunning c).trans hreserved)
    ((mark_of_running hrunning c rest).trans h)

theorem parse_star {stack : List Entity} (h : Running stack.head?) (rest : List UInt8) :
    parse stack (star :: rest) = parse (toggle .bold stack) rest :=
  parse_markText h (by decide) (by decide) rfl

/-- Two underscores are one mark. -/
theorem parse_underscores {stack : List Entity} (h : Running stack.head?) (rest : List UInt8) :
    parse stack (underscore :: underscore :: rest) = parse (toggle .underline stack) rest :=
  parse_markText h (by decide) (by decide) rfl

theorem parse_underscore {stack : List Entity} (h : Running stack.head?) {rest : List UInt8}
    (hrest : rest.head? ≠ some underscore) :
    parse stack (underscore :: rest) = parse (toggle .italic stack) rest := by
  refine parse_markText h (by decide) (by decide) ?_
  unfold markText
  rw [if_neg (by decide), if_pos rfl, if_neg hrest]

theorem parse_tick {stack : List Entity} (h : Running stack.head?) {rest : List UInt8}
    (hrest : rest.take 2 ≠ [tick, tick]) :
    parse stack (tick :: rest) = parse (.code :: stack) rest := by
  refine parse_markText h (by decide) (by decide) ?_
  unfold markText
  rw [if_neg (by decide), if_neg (by decide), if_pos rfl, if_neg hrest]

theorem parse_ticks {stack : List Entity} (h : Running stack.head?) (rest : List UInt8) :
    parse stack (tick :: tick :: tick :: rest) = parse (.pre :: stack) rest :=
  parse_markText h (by decide) (by decide) rfl

theorem parse_bracket {stack : List Entity} (h : Running stack.head?) (rest : List UInt8) :
    parse stack (openBracket :: rest) = parse (.label :: stack) rest :=
  parse_markText h (by decide) (by decide) rfl

/-! ### Whole entities -/

/-- Code, unless it is empty and there is another backtick behind it. -/
theorem parse_code {stack : List Entity} (h : Running stack.head?) {s rest : List UInt8}
    (hempty : s = [] → rest.head? ≠ some tick) :
    parse stack (tick :: (escape (some .code) s ++ tick :: rest)) =
      (parse stack rest).map (s ++ ·) := by
  have hopen : (escape (some .code) s ++ tick :: rest).take 2 ≠ [tick, tick] := by
    intro htake
    by_cases hs : s = []
    · subst hs
      cases rest with
      | nil => cases htake
      | cons d rest => exact hempty rfl (congrArg List.getLast? htake)
    · have hhead := congrArg List.head? htake
      rw [List.head?_take, if_neg (by decide)] at hhead
      exact @head?_escape_ne (some .code) tick (by decide) (by decide) s hs (tick :: rest) hhead
  have hclose : parse (.code :: stack) (tick :: rest) = parse stack rest :=
    parse_mark rfl (by decide) (by decide : special (some .code) tick = true) rfl
  rw [parse_tick h hopen, @parse_escape (.code :: stack) (some .code) rfl, hclose]

theorem parse_pre {stack : List Entity} (h : Running stack.head?) (s rest : List UInt8) :
    parse stack (tick :: tick :: tick ::
        (escape (some .pre) s ++ tick :: tick :: tick :: rest)) =
      (parse stack rest).map (s ++ ·) := by
  have hclose : parse (.pre :: stack) (tick :: tick :: tick :: rest) = parse stack rest :=
    parse_mark rfl (by decide) (by decide : special (some .pre) tick = true) rfl
  rw [parse_ticks h, @parse_escape (.pre :: stack) (some .pre) rfl, hclose]

/-- Preformatted text that is not closed. -/
theorem parse_pre_open {stack : List Entity} (h : Running stack.head?) (s : List UInt8) :
    parse stack (tick :: tick :: tick :: escape (some .pre) s) = none := by
  have hescape := @parse_escape (.pre :: stack) (some .pre) rfl s []
  rw [List.append_nil, parse_nil, if_neg (List.cons_ne_nil _ _)] at hescape
  rw [parse_ticks h, hescape]
  rfl

/-- Bold text, where none is open. -/
theorem parse_bold {stack : List Entity} (h : Running stack.head?)
    (hbold : stack.head? ≠ some .bold) (s rest : List UInt8) :
    parse stack (star :: (escape none s ++ star :: rest)) = (parse stack rest).map (s ++ ·) := by
  have hopen : toggle .bold stack = .bold :: stack := if_neg hbold
  have hclose : parse (.bold :: stack) (star :: rest) = parse stack rest :=
    @parse_star (.bold :: stack) trivial rest
  have hescape : parse (.bold :: stack) (escape none s ++ star :: rest) =
      (parse (.bold :: stack) (star :: rest)).map (s ++ ·) :=
    @parse_escape (.bold :: stack) (some .bold) rfl s (star :: rest)
  rw [parse_star h, hopen, hescape, hclose]

theorem parse_link {stack : List Entity} (h : Running stack.head?) (label url rest : List UInt8) :
    parse stack (openBracket :: (escape none label ++ closeBracket :: openParen ::
        (escape (some .target) url ++ closeParen :: rest))) =
      (parse stack rest).map (label ++ url ++ ·) := by
  have hlabel : ∀ left, parse (.label :: stack) (escape none label ++ left) =
      (parse (.label :: stack) left).map (label ++ ·) :=
    @parse_escape (.label :: stack) (some .label) rfl label
  have hturn : ∀ left, parse (.label :: stack) (closeBracket :: openParen :: left) =
      parse (.target :: stack) left := fun left =>
    parse_mark rfl (by decide) (by decide : special (some .label) closeBracket = true) rfl
  have hclose : parse (.target :: stack) (closeParen :: rest) = parse stack rest :=
    parse_mark rfl (by decide) (by decide : special (some .target) closeParen = true) rfl
  rw [parse_bracket h, hlabel, hturn, @parse_escape (.target :: stack) (some .target) rfl, hclose,
    Option.map_map]
  congr 1
  funext said
  exact (List.append_assoc _ _ _).symm

end MarkdownV2
