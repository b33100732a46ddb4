import Mathlib.Data.List.Induction
import TigerClaw.Library.LastMatch
import TigerClaw.Tui.Root

/-!
# The lines of an agent

What an agent has in the history: its replies and the rows of its tools, each with whether it is of
the turn that is under way, that is, after the last line of the user.

* `tagged`: the history, with that; `history_renderAgentMarkdown`: the pass at the end of a reply.
* `linesOf`: the lines of one agent; what adding and changing lines does to them.
-/

namespace TigerClaw
namespace Tui

/-! ## The last line of a kind -/

theorem findLast_at {p : Line → Bool} {history before after : List Line} {line : Line}
    (h : LastMatch.At p history before line after) :
    Root.findLast p history = some before.length := by
  obtain ⟨rfl, hline, hlast⟩ := h
  have hafter : after.reverse.findIdx? p = none := by
    rw [List.findIdx?_eq_none_iff]
    exact fun y hy => hlast y (List.mem_reverse.mp hy)
  rw [Root.findLast, List.reverse_append, List.reverse_cons, List.append_assoc,
    List.findIdx?_append, hafter, List.singleton_append, List.findIdx?_cons, hline]
  simp only [if_true, Option.map_some, Option.none_or, List.length_reverse, List.length_append,
    List.length_cons]
  congr 1
  omega

theorem findLast_of_forall_not {p : Line → Bool} {history : List Line}
    (h : ∀ line ∈ history, p line = false) : Root.findLast p history = none := by
  have hnone : history.reverse.findIdx? p = none := by
    rw [List.findIdx?_eq_none_iff]
    exact fun y hy => h y (List.mem_reverse.mp hy)
  rw [Root.findLast, hnone]
  rfl

/-- The last line of a kind is found where it is. -/
theorem findLast_eq_some {p : Line → Bool} {history : List Line} {i : ℕ}
    (h : Root.findLast p history = some i) :
    ∃ before line after, LastMatch.At p history before line after ∧ before.length = i := by
  rcases LastMatch.split p history with hnone | ⟨before, line, after, hat⟩
  · rw [findLast_of_forall_not hnone] at h
    cases h
  · rw [findLast_at hat] at h
    exact ⟨before, line, after, hat, Option.some.inj h⟩

theorem findLast_eq_none {p : Line → Bool} {history : List Line}
    (h : Root.findLast p history = none) : ∀ line ∈ history, p line = false := by
  rcases LastMatch.split p history with hnone | ⟨before, line, after, hat⟩
  · exact hnone
  · rw [findLast_at hat] at h
    cases h

/-! ## The turn under way -/

/-- What a change of a line leaves as it is. -/
structure KeepsOwner (f : Line → Line) : Prop where
  role : ∀ line, (f line).role = line.role
  speaker : ∀ line, (f line).speaker = line.speaker

/-- The lines, and whether they are of the turn under way. -/
def tagged : List Line → List (Line × Bool)
  | [] => []
  | line :: rest =>
    (line, line.role ≠ .user && rest.all (·.role ≠ .user)) :: tagged rest

theorem tagged_of_forall {lines : List Line} (hlines : ∀ line ∈ lines, line.role ≠ .user) :
    tagged lines = lines.map (·, true) := by
  induction lines with
  | nil => rfl
  | cons line lines ih =>
    have hrest := fun other hother => hlines other (List.mem_cons_of_mem line hother)
    have hall : lines.all (·.role ≠ .user) = true :=
      List.all_eq_true.mpr fun other hother => decide_eq_true (hrest other hother)
    have hline : decide (line.role ≠ .user) = true :=
      decide_eq_true (hlines line List.mem_cons_self)
    rw [tagged, ih hrest, hall, hline, List.map_cons]
    rfl

/-- Lines are added that are not of the user. -/
theorem tagged_append (history : List Line) {lines : List Line}
    (hlines : ∀ line ∈ lines, line.role ≠ .user) :
    tagged (history ++ lines) = tagged history ++ lines.map (·, true) := by
  have hall : lines.all (·.role ≠ .user) = true :=
    List.all_eq_true.mpr fun line hline => decide_eq_true (hlines line hline)
  induction history with
  | nil => exact tagged_of_forall hlines
  | cons line history ih =>
    rw [List.cons_append, tagged, tagged, ih, List.all_append, hall, Bool.and_true]
    rfl

theorem map_fst_tagged (history : List Line) : (tagged history).map Prod.fst = history := by
  induction history with
  | nil => rfl
  | cons line history ih => rw [tagged, List.map_cons, ih]

/-- A line changes, but not whose it is. -/
theorem tagged_replace (before after : List Line) {x y : Line} (hrole : y.role = x.role) :
    ∃ tb t ta, tb.map Prod.fst = before ∧ ta.map Prod.fst = after ∧
      tagged (before ++ x :: after) = tb ++ (x, t) :: ta ∧
      tagged (before ++ y :: after) = tb ++ (y, t) :: ta := by
  induction before with
  | nil =>
    refine ⟨[], _, tagged after, rfl, map_fst_tagged after, rfl, ?_⟩
    rw [List.nil_append, tagged, hrole]
    rfl
  | cons line before ih =>
    obtain ⟨tb, t, ta, hbefore, hafter, hx, hy⟩ := ih
    refine ⟨(line, line.role ≠ .user && (before ++ x :: after).all (·.role ≠ .user)) :: tb, t, ta,
      ?_, hafter, ?_, ?_⟩
    · rw [List.map_cons, hbefore]
    · rw [List.cons_append, tagged, hx, List.cons_append]
    · have hall : (before ++ y :: after).all (·.role ≠ .user) =
          (before ++ x :: after).all (·.role ≠ .user) := by
        simp only [List.all_append, List.all_cons, hrole]
      rw [List.cons_append, tagged, hy, hall, List.cons_append]

/-- Every line changes, but not whose it is. -/
theorem tagged_map {g : Line × Bool → Line} (hrole : ∀ e, (g e).role = e.1.role)
    (history : List Line) :
    tagged ((tagged history).map g) = (tagged history).map fun e => (g e, e.2) := by
  induction history with
  | nil => rfl
  | cons line history ih =>
    have hall : ((tagged history).map g).all (·.role ≠ .user) =
        history.all (·.role ≠ .user) := by
      conv_rhs => rw [← map_fst_tagged history]
      simp only [List.all_map, Function.comp_def, hrole]
    simp only [tagged, List.map_cons, ih, hall, hrole]

/-- A line of the user ends the turn. -/
theorem tagged_user (history : List Line) {line : Line} (hrole : line.role = .user) :
    ∀ e ∈ tagged (history ++ [line]), e.2 = false := by
  induction history with
  | nil =>
    intro e he
    obtain rfl := List.mem_singleton.mp he
    simp [hrole]
  | cons other history ih =>
    intro e he
    rcases List.mem_cons.mp he with rfl | he
    · simp [hrole]
    · exact ih e he

/-- The lines of the turn, from the last one back. -/
def Root.turnLines (self : Root) : List Line :=
  self.history.reverse.takeWhile fun line => line.role ≠ .user

theorem mem_turnLines (self : Root) {e : Line × Bool} (he : e ∈ tagged self.history)
    (hturn : e.2 = true) : e.1 ∈ self.turnLines := by
  rw [Root.turnLines]
  generalize self.history = history at he ⊢
  induction history using List.reverseRecOn with
  | nil => exact nomatch he
  | append_singleton history line ih =>
    rw [List.reverse_append, List.reverse_singleton, List.singleton_append]
    by_cases hrole : line.role = .user
    · rw [tagged_user history hrole e he] at hturn
      cases hturn
    · rw [tagged_append history (by simpa using hrole)] at he
      rw [List.takeWhile_cons_of_pos (by simpa using hrole), List.mem_cons]
      rcases List.mem_append.mp he with he | he
      · exact .inr (ih he)
      · obtain rfl := List.mem_singleton.mp he
        exact .inl rfl

/-- **The pass at the end of a reply** is over the lines of the turn. -/
theorem history_renderAgentMarkdown (self : Root) (markdown : Bytes → Option Bytes) :
    (self.renderAgentMarkdown markdown).history = (tagged self.history).map fun e =>
      if e.2 then Root.renderMarkdown markdown e.1 else e.1 := by
  rw [Root.renderAgentMarkdown]
  dsimp only
  generalize self.history = history
  induction history using List.reverseRecOn with
  | nil => rfl
  | append_singleton history line ih =>
    rw [List.reverse_append, List.reverse_singleton, List.singleton_append]
    by_cases hrole : line.role = .user
    · rw [List.takeWhile_cons_of_neg (by simpa using hrole),
        List.dropWhile_cons_of_neg (by simpa using hrole), List.map_nil, List.reverse_nil,
        List.append_nil, List.reverse_cons, List.reverse_reverse]
      conv_lhs => rw [← map_fst_tagged (history ++ [line])]
      refine List.map_congr_left fun e he => ?_
      rw [tagged_user history hrole e he]
      rfl
    · rw [List.takeWhile_cons_of_pos (by simpa using hrole),
        List.dropWhile_cons_of_pos (by simpa using hrole), List.map_cons, List.reverse_cons,
        ← List.append_assoc, ih, tagged_append history (by simpa using hrole), List.map_append]
      rfl

/-! ## The lines of one agent -/

/-- A reply of the agent, or the row of one of its tools. -/
def isLineOf (agent : Bytes) (line : Line) : Bool :=
  (line.role = .agent || line.role = .tool) && line.speaker = some agent

def linesOf (agent : Bytes) (history : List Line) : List (Line × Bool) :=
  (tagged history).filter fun e => isLineOf agent e.1

theorem isLineOf_congr {x y : Line} (hrole : y.role = x.role) (hspeaker : y.speaker = x.speaker)
    (agent : Bytes) : isLineOf agent y = isLineOf agent x := by
  rw [isLineOf, isLineOf, hrole, hspeaker]

theorem isLineOf_iff {agent : Bytes} {line : Line} :
    isLineOf agent line = true ↔
      (line.role = .agent ∨ line.role = .tool) ∧ line.speaker = some agent := by
  simp [isLineOf]

/-- The texts of the agent's lines. -/
theorem texts_linesOf (agent : Bytes) (history : List Line) :
    (history.filter (isLineOf agent)).map Line.text =
      (linesOf agent history).map fun e => e.1.text := by
  conv_lhs => rw [← map_fst_tagged history]
  rw [List.filter_map, List.map_map]
  rfl

variable {agent : Bytes} {history before after : List Line} {line : Line} {p : Line → Bool}
  {f : Line → Line}

theorem linesOf_append {lines : List Line} (hlines : ∀ line ∈ lines, line.role ≠ .user) :
    linesOf agent (history ++ lines) =
      linesOf agent history ++ (lines.filter (isLineOf agent)).map (·, true) := by
  rw [linesOf, linesOf, tagged_append history hlines, List.filter_append, List.filter_map]
  rfl

/-- Lines are added that are not the agent's. -/
theorem linesOf_append_other {lines : List Line} (hlines : ∀ line ∈ lines, line.role ≠ .user)
    (hother : ∀ line ∈ lines, isLineOf agent line = false) :
    linesOf agent (history ++ lines) = linesOf agent history := by
  have hnone : lines.filter (isLineOf agent) = [] :=
    List.filter_eq_nil_iff.mpr fun line hline => by simp [hother line hline]
  rw [linesOf_append hlines, hnone, List.map_nil, List.append_nil]

/-- A line changes that is not the agent's. -/
theorem linesOf_modify_other (hf : KeepsOwner f) (hat : LastMatch.At p history before line after)
    (hother : isLineOf agent line = false) :
    linesOf agent (history.modify before.length f) = linesOf agent history := by
  obtain ⟨rfl, -, -⟩ := hat
  have hchanged : isLineOf agent (f line) = false :=
    (isLineOf_congr (hf.role line) (hf.speaker line) agent).trans hother
  obtain ⟨tb, t, ta, -, -, hold, hnew⟩ := tagged_replace before after (hf.role line)
  rw [LastMatch.modify_length, linesOf, linesOf, hold, hnew, List.filter_append,
    List.filter_append, List.filter_cons_of_neg (by simp [hchanged]),
    List.filter_cons_of_neg (by simp [hother])]

/-- **The last line of a kind changes**, which is the agent's. -/
theorem linesOf_modify_own (hf : KeepsOwner f) (hat : LastMatch.At p history before line after)
    (hown : isLineOf agent line = true) :
    linesOf agent (history.modify before.length f) =
      LastMatch.modify (fun e => p e.1) (Prod.map f id) (linesOf agent history) := by
  obtain ⟨rfl, hline, hlast⟩ := hat
  have hchanged : isLineOf agent (f line) = true :=
    (isLineOf_congr (hf.role line) (hf.speaker line) agent).trans hown
  obtain ⟨tb, t, ta, -, hafter, hold, hnew⟩ := tagged_replace before after (hf.role line)
  have hat : LastMatch.At (fun e : Line × Bool => p e.1) (tb ++ (line, t) :: ta) tb (line, t) ta :=
    ⟨rfl, hline, fun e he => hlast e.1 (hafter ▸ List.mem_map_of_mem he)⟩
  rw [LastMatch.modify_length, linesOf, linesOf, hold, hnew,
    LastMatch.modify_at _ (hat.filter (m := fun e => isLineOf agent e.1) hown),
    List.filter_append,
    List.filter_cons_of_pos (p := fun e => isLineOf agent e.1) (a := (f line, t)) hchanged]
  rfl

/-- Every line changes, but not whose it is. -/
theorem linesOf_map {g : Line × Bool → Line} (hrole : ∀ e, (g e).role = e.1.role)
    (hspeaker : ∀ e, (g e).speaker = e.1.speaker) :
    linesOf agent ((tagged history).map g) =
      (linesOf agent history).map fun e => (g e, e.2) := by
  rw [linesOf, tagged_map hrole, List.filter_map, linesOf]
  congr 1
  refine List.filter_congr fun e _ => ?_
  exact isLineOf_congr (hrole e) (hspeaker e) agent

/-- Whether the agent has a line of a kind, of which the last is its own. -/
theorem any_linesOf (hat : LastMatch.At p history before line after)
    (hown : isLineOf agent line = true) : (linesOf agent history).any (fun e => p e.1) = true := by
  have hmem : line ∈ (tagged history).map Prod.fst := by
    rw [map_fst_tagged, hat.eq]
    exact List.mem_append_right _ List.mem_cons_self
  obtain ⟨e, he, rfl⟩ := List.mem_map.mp hmem
  exact List.any_eq_true.mpr ⟨e, List.mem_filter.mpr ⟨he, hown⟩, hat.holds⟩

theorem mem_of_mem_linesOf {e : Line × Bool} (he : e ∈ linesOf agent history) :
    e.1 ∈ history := by
  have hmem := List.mem_map_of_mem (f := Prod.fst) (List.mem_filter.mp he).1
  rwa [map_fst_tagged] at hmem

end Tui
end TigerClaw
