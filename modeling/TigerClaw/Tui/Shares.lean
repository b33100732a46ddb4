import TigerClaw.Tui.Rows

/-!
# An agent's share of the widget

What an agent has of the widget is its own lines and whether it is writing to one of them.  A chunk,
a tool or the end of a reply does to the share of the agent what it would if the agent were alone,
and nothing to the share of another agent, as far as tools find the rows of their own agent and the
pass over the turn has nothing to do on its lines.

* `Share`: the share, and the events on it; `Root.share`: the share of an agent in the widget.
* `Streaming`: the history is in shape, and an agent writes to its last line.
* `share_onChunk_own`, `share_onChunk_other` and the others: an event of the agent itself, and one
  of another agent.
-/

namespace TigerClaw
namespace Tui

/-- What an agent has of the widget, and what it shares with all. -/
structure Share where
  lines : List (Line × Bool)
  isOpen : Bool
  currentTurnId : UInt32
  toolOutputEnabled : Bool

def Root.share (agent : Bytes) (self : Root) : Share where
  lines := linesOf agent self.history
  isOpen := (self.getPendingAgentLine agent).isSome
  currentTurnId := self.currentTurnId
  toolOutputEnabled := self.toolOutputEnabled

namespace Share

/-- The last line of a kind changes. -/
def modifyLast (self : Share) (p : Line → Bool) (f : Line → Line) : Share :=
  { self with lines := LastMatch.modify (fun e => p e.1) (Prod.map f id) self.lines }

def add (self : Share) (line : Line) : Share := { self with lines := self.lines ++ [(line, true)] }

def onChunk (self : Share) (agent text : Bytes) : Share :=
  if self.isOpen then
    self.modifyLast (isLineOf agent) fun line => { line with text := line.text ++ text }
  else { self.add { role := .agent, text, speaker := some agent } with isOpen := true }

def onToolStart (fmt : Format) (self : Share) (now : ℤ) (agent id name argsSummary : Bytes) :
    Share :=
  let self := { self with isOpen := false }
  if self.toolOutputEnabled then
    if self.lines.any fun e => Root.isToolRow id e.1 then
      self.modifyLast (Root.isToolRow id) fun entry => renderToolLine fmt
        (if argsSummary ≠ [] then { entry with toolArgs := some argsSummary } else entry)
    else self.add (newRow self.currentTurnId now agent id name argsSummary)
  else self

def onToolProgress (fmt : Format) (self : Share) (id chunk : Bytes) : Share :=
  let tail := lastNonEmptyLine chunk
  if tail = [] then self
  else self.modifyLast (Root.isToolRow id) fun entry =>
    renderToolLine fmt { entry with toolProgressTail := some (tail.take 200) }

def onToolDone (fmt : Format) (self : Share) (now : ℤ) (id name output : Bytes) (isError : Bool) :
    Share :=
  { self.modifyLast (Root.isToolRow id) (Root.finishTool fmt now name output isError) with
    isOpen := false }

/-- The pass over a line, if it is of the turn. -/
def renderTurnLine (markdown : Bytes → Option Bytes) (e : Line × Bool) : Line :=
  if e.2 then Root.renderMarkdown markdown e.1 else e.1

def onDone (markdown : Bytes → Option Bytes) (self : Share) : Share :=
  { self with
    lines := self.lines.map fun e => (renderTurnLine markdown e, e.2)
    isOpen := false }

end Share

/-! ## The open lines -/

section Pending

variable (r : Root) (a b : Bytes)

theorem getPendingAgentLine_clear : (r.clearPendingAgentLine b).getPendingAgentLine a =
    if eqlIgnoreCase b a then none else r.getPendingAgentLine a := by
  rw [Root.getPendingAgentLine, Root.clearPendingAgentLine, List.find?_filter]
  split
  · rename_i hsame
    have hnone : r.pendingAgentLines.find? (fun entry =>
        decide ((!eqlIgnoreCase entry.1 b) = true ∧ eqlIgnoreCase entry.1 a = true)) = none := by
      refine List.find?_eq_none.mpr fun entry _ => ?_
      rw [eqlIgnoreCase_comm entry.1 b, eqlIgnoreCase_congr hsame, eqlIgnoreCase_comm a]
      simp
    rw [hnone]
    rfl
  · rename_i hother
    rw [Root.getPendingAgentLine]
    congr 2
    funext entry
    cases ha : eqlIgnoreCase entry.1 a with
    | false => simp
    | true =>
      have hb : eqlIgnoreCase entry.1 b = false := by
        rw [eqlIgnoreCase_congr ha, eqlIgnoreCase_comm]
        exact Bool.eq_false_iff.mpr hother
      simp [hb]

theorem getPendingAgentLine_append (key : Bytes) (idx : ℕ) (history : List Line)
    (hkey : eqlIgnoreCase key b = true) :
    Root.getPendingAgentLine
        { r with history, pendingAgentLines := r.pendingAgentLines ++ [(key, idx)] } a =
      (r.getPendingAgentLine a).or (if eqlIgnoreCase b a then some idx else none) := by
  rw [Root.getPendingAgentLine, Root.getPendingAgentLine, List.find?_append]
  cases hfind : r.pendingAgentLines.find? fun entry => eqlIgnoreCase entry.1 a with
  | some entry => rfl
  | none =>
    rw [Option.none_or, Option.map_none, Option.none_or]
    cases hsame : eqlIgnoreCase b a with
    | true =>
      rw [List.find?_cons_of_pos (by rw [eqlIgnoreCase_congr hkey, hsame])]
      rfl
    | false =>
      rw [List.find?_cons_of_neg (by rw [eqlIgnoreCase_congr hkey, hsame]; simp)]
      rfl

end Pending

/-- Where the last line of a kind is depends on which lines are of the kind. -/
theorem findLast_congr {p : Line → Bool} {l l' : List Line} (h : l.map p = l'.map p) :
    Root.findLast p l = Root.findLast p l' := by
  have hlength := congrArg List.length h
  rw [List.length_map, List.length_map] at hlength
  have hfind : ∀ l : List Line, l.reverse.findIdx? p = (l.map p).reverse.findIdx? id := by
    intro l
    rw [← List.map_reverse, List.findIdx?_map]
    rfl
  rw [Root.findLast, Root.findLast, hfind, hfind, h, hlength]

theorem findLast_append_other {p : Line → Bool} (l : List Line) {lines : List Line}
    (h : ∀ line ∈ lines, p line = false) : Root.findLast p (l ++ lines) = Root.findLast p l := by
  rcases LastMatch.split p l with hnone | ⟨before, line, after, hat⟩
  · rw [findLast_of_forall_not hnone, findLast_of_forall_not fun line hline => ?_]
    rcases List.mem_append.mp hline with hline | hline
    · exact hnone line hline
    · exact h line hline
  · have hat' : LastMatch.At p (l ++ lines) before line (after ++ lines) := by
      refine ⟨by rw [hat.eq, List.append_assoc, List.cons_append], hat.holds, fun y hy => ?_⟩
      rcases List.mem_append.mp hy with hy | hy
      · exact hat.last y hy
      · exact h y hy
    rw [findLast_at hat, findLast_at hat']

theorem findLast_concat {p : Line → Bool} (l : List Line) {line : Line} (h : p line = true) :
    Root.findLast p (l ++ [line]) = some l.length :=
  findLast_at ⟨rfl, h, fun _ hy => nomatch hy⟩

theorem map_modify_congr {p : Line → Bool} {f : Line → Line} (hf : ∀ line, p (f line) = p line)
    (l : List Line) (i : ℕ) : (l.modify i f).map p = l.map p := by
  refine List.ext_getElem? fun j => ?_
  rw [List.getElem?_map, List.getElem?_map, List.getElem?_modify]
  cases l[j]? with
  | none => rfl
  | some line =>
    show some (p (if i = j then f line else line)) = some (p line)
    split
    · rw [hf]
    · rfl

theorem map_tagged_congr {p : Line → Bool} {g : Line × Bool → Line} (hg : ∀ e, p (g e) = p e.1)
    (l : List Line) : ((tagged l).map g).map p = l.map p := by
  conv_rhs => rw [← map_fst_tagged l]
  rw [List.map_map, List.map_map]
  exact List.map_congr_left fun e _ => hg e

/-- The history is in shape, and what an agent is writing to is its last line. -/
structure Streaming (fmt : Format) (A : Bytes → Prop) (r : Root) : Prop where
  shaped : Shaped fmt r
  last : ∀ c, A c → ∀ i, r.getPendingAgentLine c = some i →
    Root.findLast (isLineOf c) r.history = some i

namespace Streaming

variable {fmt : Format} {A : Bytes → Prop} {r r' : Root}

/-- The lines change, but not whose they are, and no line is opened. -/
theorem of_same (h : Streaming fmt A r) (hshaped : Shaped fmt r')
    (hlines : ∀ c, r'.history.map (isLineOf c) = r.history.map (isLineOf c))
    (hpending : ∀ c i, r'.getPendingAgentLine c = some i → r.getPendingAgentLine c = some i) :
    Streaming fmt A r' :=
  ⟨hshaped, fun c hc i hi => (findLast_congr (hlines c)).trans (h.last c hc i (hpending c i hi))⟩

/-- Lines are added, but to no agent with an open line. -/
theorem of_append (h : Streaming fmt A r) (hshaped : Shaped fmt r') {lines : List Line}
    (hhistory : r'.history = r.history ++ lines)
    (hpending : ∀ c i, r'.getPendingAgentLine c = some i → r.getPendingAgentLine c = some i ∧
      ∀ line ∈ lines, isLineOf c line = false) : Streaming fmt A r' := by
  refine ⟨hshaped, fun c hc i hi => ?_⟩
  obtain ⟨hold, hother⟩ := hpending c i hi
  rw [hhistory, findLast_append_other r.history hother]
  exact h.last c hc i hold

theorem clear (h : Streaming fmt A r) (b : Bytes) :
    Streaming fmt A (r.clearPendingAgentLine b) := by
  refine h.of_same (h.shaped.clearPendingAgentLine b) (fun _ => rfl) fun c i hi => ?_
  rw [getPendingAgentLine_clear] at hi
  split at hi
  · cases hi
  · exact hi

theorem modifyLine (h : Streaming fmt A r) {i : ℕ} {f : Line → Line} (hf : KeepsOwner f)
    (hshaped : Shaped fmt (r.modifyLine i f)) : Streaming fmt A (r.modifyLine i f) :=
  h.of_same hshaped (fun c => map_modify_congr (fun line =>
    isLineOf_congr (hf.role line) (hf.speaker line) c) r.history i) fun _ _ hi => hi

theorem notes (h : Streaming fmt A r) (hnotes : Notes r r') : Streaming fmt A r' := by
  obtain ⟨lines, hlines, hhistory⟩ := hnotes.history
  refine h.of_append (h.shaped.notes hnotes) hhistory fun c i hi => ⟨?_, fun line hline => ?_⟩
  · rw [Root.getPendingAgentLine, hnotes.pendingAgentLines] at hi
    exact hi
  · rw [isLineOf, hlines line hline]
    rfl

end Streaming

/-! ## Chunks -/

variable {fmt : Format} {A : Bytes → Prop} {r r' : Root} {a b : Bytes}

/-- The agent has in the one state what it has in the other. -/
theorem share_eq (hlines : linesOf a r'.history = linesOf a r.history)
    (hopen : (r'.getPendingAgentLine a).isSome = (r.getPendingAgentLine a).isSome)
    (hturn : r'.currentTurnId = r.currentTurnId)
    (henabled : r'.toolOutputEnabled = r.toolOutputEnabled) : r'.share a = r.share a := by
  rw [Root.share, Root.share, hlines, hopen, hturn, henabled]

theorem isLineOf_other {line : Line} (hspeaker : line.speaker = some b) (hne : a ≠ b) :
    isLineOf a line = false := by
  refine Bool.eq_false_iff.mpr fun h => hne ?_
  exact Option.some.inj ((isLineOf_iff.mp h).2.symm.trans hspeaker)

/-- No two of the agents have the same name but for case. -/
def Distinct (A : Bytes → Prop) : Prop := ∀ c d, A c → A d → eqlIgnoreCase c d = true → c = d

theorem Streaming.onChunk (hA : Distinct A) (h : Streaming fmt A r) (hb : A b) (text : Bytes) :
    Streaming fmt A (r.onChunk b text) := by
  have hshaped := h.shaped.onChunk b text
  cases hpending : r.getPendingAgentLine b with
  | some idx =>
    rw [r.onChunk_open text hpending] at hshaped ⊢
    exact h.modifyLine (keepsOwner_chunk text) hshaped
  | none =>
    obtain ⟨key, hkey, heq⟩ := r.onChunk_new text hpending
    rw [heq] at hshaped ⊢
    refine ⟨hshaped, fun c hc i hi => ?_⟩
    rw [getPendingAgentLine_append r c b key _ _ hkey] at hi
    by_cases hsame : eqlIgnoreCase b c = true
    · obtain rfl := hA b c hb hc hsame
      rw [hpending, Option.none_or, if_pos hsame] at hi
      obtain rfl := Option.some.inj hi
      exact findLast_concat r.history (isLineOf_iff.mpr ⟨.inl rfl, rfl⟩)
    · rw [if_neg hsame, Option.or_none] at hi
      have hne : c ≠ b := fun heq => hsame (heq ▸ eqlIgnoreCase_refl c)
      refine (findLast_append_other r.history fun line hline => ?_).trans (h.last c hc i hi)
      rw [List.mem_singleton.mp hline]
      exact isLineOf_other rfl hne

theorem share_onChunk_own (h : Streaming fmt A r) (hb : A b) (text : Bytes) :
    (r.onChunk b text).share b = (r.share b).onChunk b text := by
  cases hpending : r.getPendingAgentLine b with
  | some idx =>
    have hopen : (r.share b).isOpen = true := congrArg Option.isSome hpending
    obtain ⟨before, line, after, hat, rfl⟩ := findLast_eq_some (h.last b hb idx hpending)
    have hlines := linesOf_modify_own (keepsOwner_chunk text) hat hat.holds
    rw [r.onChunk_open text hpending, Share.onChunk, if_pos hopen, Root.share, Share.modifyLast]
    show Share.mk (linesOf b (r.history.modify before.length _)) _ _ _ = _
    rw [hlines]
    rfl
  | none =>
    have hopen : (r.share b).isOpen = false := congrArg Option.isSome hpending
    obtain ⟨key, hkey, heq⟩ := r.onChunk_new text hpending
    have hrole : ∀ line ∈ [({ role := .agent, text, speaker := some b } : Line)],
        line.role ≠ .user := fun line hline => by rw [List.mem_singleton.mp hline]; simp
    have hline : isLineOf b { role := .agent, text, speaker := some b } = true :=
      isLineOf_iff.mpr ⟨.inl rfl, rfl⟩
    rw [heq, Share.onChunk, if_neg (by rw [hopen]; simp), Root.share,
      getPendingAgentLine_append r b b key _ _ hkey, hpending, Option.none_or,
      if_pos (eqlIgnoreCase_refl b), linesOf_append hrole, List.filter_cons_of_pos hline]
    rfl

theorem share_onChunk_other (hA : Distinct A) (h : Streaming fmt A r) (ha : A a) (hb : A b)
    (hne : a ≠ b) (text : Bytes) : (r.onChunk b text).share a = r.share a := by
  cases hpending : r.getPendingAgentLine b with
  | some idx =>
    obtain ⟨before, line, after, hat, rfl⟩ := findLast_eq_some (h.last b hb idx hpending)
    have hother := isLineOf_other (isLineOf_iff.mp hat.holds).2 hne
    rw [r.onChunk_open text hpending]
    exact share_eq (linesOf_modify_other (keepsOwner_chunk text) hat hother) rfl rfl rfl
  | none =>
    obtain ⟨key, hkey, heq⟩ := r.onChunk_new text hpending
    have hsame : ¬ eqlIgnoreCase b a = true := fun hsame => hne (hA b a hb ha hsame).symm
    rw [heq]
    refine share_eq (linesOf_append_other (fun line hline => ?_) fun line hline => ?_) ?_ rfl rfl
    · rw [List.mem_singleton.mp hline]
      simp
    · rw [List.mem_singleton.mp hline]
      exact isLineOf_other rfl hne
    · rw [getPendingAgentLine_append r a b key _ _ hkey, if_neg hsame, Option.or_none]

/-! ## Tools -/

/-- A line that was being written to is given up. -/
theorem share_clear_own (r : Root) (b : Bytes) :
    (r.clearPendingAgentLine b).share b = { r.share b with isOpen := false } := by
  rw [Root.share, getPendingAgentLine_clear, if_pos (eqlIgnoreCase_refl b)]
  rfl

theorem share_clear_other (hA : Distinct A) (ha : A a) (hb : A b) (hne : a ≠ b) (r : Root) :
    (r.clearPendingAgentLine b).share a = r.share a := by
  have hsame : ¬ eqlIgnoreCase b a = true := fun hsame => hne (hA b a hb ha hsame).symm
  refine share_eq rfl ?_ rfl rfl
  rw [getPendingAgentLine_clear, if_neg hsame]

theorem isLineOf_row {id : Bytes} {line : Line} (hrow : Root.isToolRow id line = true) (c : Bytes) :
    isLineOf c line = true ↔ line.speaker = some c := by
  have htool : line.role = .tool := by
    rw [Root.isToolRow, Bool.and_eq_true, decide_eq_true_eq] at hrow
    exact hrow.1
  rw [isLineOf_iff, htool]
  simp

/-- The row of a tool changes: of the agent's own tool. -/
theorem share_modifyRow_own {id : Bytes} {i : ℕ} {f : Line → Line} (hf : KeepsOwner f)
    (hfind : Root.findLast (Root.isToolRow id) r.history = some i)
    (hrow : ∀ line ∈ r.history[i]?, line.speaker = some b) :
    (r.modifyLine i f).share b = (r.share b).modifyLast (Root.isToolRow id) f ∧
      ((r.share b).lines.any fun e => Root.isToolRow id e.1) = true := by
  obtain ⟨before, line, after, hat, rfl⟩ := findLast_eq_some hfind
  have hspeaker : line.speaker = some b := by
    refine hrow line ?_
    rw [hat.eq]
    exact LastMatch.getElem?_length before after line
  have hown : isLineOf b line = true := (isLineOf_row hat.holds b).mpr hspeaker
  refine ⟨?_, any_linesOf hat hown⟩
  rw [Root.share, Share.modifyLast]
  show Share.mk (linesOf b (r.history.modify before.length f)) _ _ _ = _
  rw [linesOf_modify_own hf hat hown]
  rfl

/-- The row of a tool of another agent changes. -/
theorem share_modifyRow_other {id : Bytes} {i : ℕ} {f : Line → Line} (hf : KeepsOwner f)
    (hfind : Root.findLast (Root.isToolRow id) r.history = some i)
    (hrow : ∀ line ∈ r.history[i]?, line.speaker = some b) (hne : a ≠ b) :
    (r.modifyLine i f).share a = r.share a := by
  obtain ⟨before, line, after, hat, rfl⟩ := findLast_eq_some hfind
  have hspeaker : line.speaker = some b := by
    refine hrow line ?_
    rw [hat.eq]
    exact LastMatch.getElem?_length before after line
  exact share_eq (linesOf_modify_other hf hat (isLineOf_other hspeaker hne)) rfl rfl rfl

/-- There is no row, so the agent has none. -/
theorem not_any_of_findLast {id : Bytes}
    (hfind : Root.findLast (Root.isToolRow id) r.history = none) :
    ∀ e ∈ (r.share b).lines, Root.isToolRow id e.1 = false :=
  fun _ he => findLast_eq_none hfind _ (mem_of_mem_linesOf he)

theorem streaming_withRow (h : Streaming fmt A r) (now : ℤ) (id name argsSummary : Bytes) :
    Streaming fmt A { r.clearPendingAgentLine b with
      history := r.history ++ [newRow r.currentTurnId now b id name argsSummary] } := by
  have hclear := h.clear b
  refine hclear.of_append (hclear.shaped.withRow r.currentTurnId now b id name argsSummary) rfl
    fun c i hi => ⟨hi, fun line hline => ?_⟩
  have hi : (r.clearPendingAgentLine b).getPendingAgentLine c = some i := hi
  rw [List.mem_singleton.mp hline]
  refine isLineOf_other rfl fun hsame => ?_
  rw [getPendingAgentLine_clear, hsame, if_pos (eqlIgnoreCase_refl b)] at hi
  cases hi

theorem Streaming.onToolStart (h : Streaming fmt A r) (now : ℤ) (id name argsSummary : Bytes) :
    Streaming fmt A (r.onToolStart fmt now b id name argsSummary) := by
  have hshaped := h.shaped.onToolStart now b id name argsSummary
  by_cases hon : r.toolOutputEnabled = true
  · cases hfind : Root.findLast (Root.isToolRow id) r.history with
    | some i =>
      rw [Root.onToolStart_again fmt now b id name argsSummary hon hfind] at hshaped ⊢
      exact (h.clear b).modifyLine (keepsOwner_render fmt (keepsOwner_args argsSummary)) hshaped
    | none =>
      rw [h.shaped.onToolStart_new now b id name argsSummary hon hfind]
      exact streaming_withRow h now id name argsSummary
  · rw [Root.onToolStart_off fmt now b id name argsSummary (Bool.eq_false_iff.mpr hon)]
    exact h.clear b

theorem share_onToolStart_own (h : Streaming fmt A r) (now : ℤ) (id name argsSummary : Bytes)
    (hrow : r.toolOutputEnabled = true → ∀ i ∈ Root.findLast (Root.isToolRow id) r.history,
      ∀ line ∈ r.history[i]?, line.speaker = some b) :
    (r.onToolStart fmt now b id name argsSummary).share b =
      (r.share b).onToolStart fmt now b id name argsSummary := by
  rw [Share.onToolStart]
  by_cases hon : r.toolOutputEnabled = true
  · have hshare : (r.share b).toolOutputEnabled = true := hon
    dsimp only
    rw [if_pos hshare]
    cases hfind : Root.findLast (Root.isToolRow id) r.history with
    | some i =>
      obtain ⟨hmodify, hany⟩ := share_modifyRow_own (r := r.clearPendingAgentLine b)
        (keepsOwner_render fmt (keepsOwner_args argsSummary)) hfind (hrow hon i hfind)
      rw [Root.onToolStart_again fmt now b id name argsSummary hon hfind, hmodify,
        share_clear_own]
      exact (if_pos hany).symm
    | none =>
      have hnone := not_any_of_findLast (b := b) hfind
      have hrole : ∀ line ∈ [newRow r.currentTurnId now b id name argsSummary],
          line.role ≠ .user := fun line hline => by rw [List.mem_singleton.mp hline]; simp [newRow]
      have hown : isLineOf b (newRow r.currentTurnId now b id name argsSummary) = true :=
        isLineOf_iff.mpr ⟨.inr rfl, rfl⟩
      have hpending : (r.clearPendingAgentLine b).getPendingAgentLine b = none := by
        rw [getPendingAgentLine_clear, if_pos (eqlIgnoreCase_refl b)]
      rw [h.shaped.onToolStart_new now b id name argsSummary hon hfind, if_neg]
      · show Share.mk (linesOf b (r.history ++ _))
          ((r.clearPendingAgentLine b).getPendingAgentLine b).isSome _ _ = _
        rw [linesOf_append hrole, List.filter_cons_of_pos hown, hpending]
        rfl
      · rw [List.any_eq_true]
        rintro ⟨e, he, hrow⟩
        rw [hnone e he] at hrow
        cases hrow
  · have hoff := Bool.eq_false_iff.mpr hon
    have hshare : (r.share b).toolOutputEnabled = false := hoff
    dsimp only
    rw [if_neg (by rw [hshare]; simp), Root.onToolStart_off fmt now b id name argsSummary hoff,
      share_clear_own]

theorem share_onToolStart_other (hA : Distinct A) (h : Streaming fmt A r) (ha : A a) (hb : A b)
    (hne : a ≠ b) (now : ℤ) (id name argsSummary : Bytes)
    (hrow : r.toolOutputEnabled = true → ∀ i ∈ Root.findLast (Root.isToolRow id) r.history,
      ∀ line ∈ r.history[i]?, line.speaker = some b) :
    (r.onToolStart fmt now b id name argsSummary).share a = r.share a := by
  have hclear := share_clear_other hA ha hb hne r
  by_cases hon : r.toolOutputEnabled = true
  · cases hfind : Root.findLast (Root.isToolRow id) r.history with
    | some i =>
      rw [Root.onToolStart_again fmt now b id name argsSummary hon hfind, ← hclear]
      exact share_modifyRow_other (r := r.clearPendingAgentLine b)
        (keepsOwner_render fmt (keepsOwner_args argsSummary)) hfind (hrow hon i hfind) hne
    | none =>
      rw [h.shaped.onToolStart_new now b id name argsSummary hon hfind, ← hclear]
      refine share_eq (linesOf_append_other (fun line hline => ?_) fun line hline => ?_) rfl rfl rfl
      · rw [List.mem_singleton.mp hline]
        simp [newRow]
      · rw [List.mem_singleton.mp hline]
        exact isLineOf_other rfl hne
  · rw [Root.onToolStart_off fmt now b id name argsSummary (Bool.eq_false_iff.mpr hon), hclear]

theorem keepsOwner_tail (fmt : Format) (tail : Bytes) : KeepsOwner fun entry : Line =>
    renderToolLine fmt { entry with toolProgressTail := some tail } :=
  keepsOwner_render fmt ⟨fun _ => rfl, fun _ => rfl⟩

theorem Streaming.onToolProgress (h : Streaming fmt A r) (id chunk : Bytes) :
    Streaming fmt A (r.onToolProgress fmt id chunk) := by
  rw [Root.onToolProgress]
  cases Root.findLast (Root.isToolRow id) r.history with
  | some i =>
    dsimp only
    split
    · exact h
    · exact h.modifyLine (keepsOwner_tail fmt _) (h.shaped.modifyLine (keepsOwner_tail fmt _)
        fun _ _ _ => renderToolLine_idem fmt _)
  | none => exact h

/-- Nothing changes where no line is of the kind. -/
theorem Share.modifyLast_of_not {s : Share} {p : Line → Bool} (f : Line → Line)
    (h : ∀ e ∈ s.lines, p e.1 = false) : s.modifyLast p f = s := by
  rw [Share.modifyLast, LastMatch.modify_of_forall_not _ h]

theorem share_onToolProgress_own (id chunk : Bytes)
    (hrow : ∀ i ∈ Root.findLast (Root.isToolRow id) r.history,
      ∀ line ∈ r.history[i]?, line.speaker = some b) :
    (r.onToolProgress fmt id chunk).share b = (r.share b).onToolProgress fmt id chunk := by
  rw [Root.onToolProgress, Share.onToolProgress]
  cases hfind : Root.findLast (Root.isToolRow id) r.history with
  | some i =>
    dsimp only
    split
    · rfl
    · exact (share_modifyRow_own (keepsOwner_tail fmt _) hfind (hrow i hfind)).1
  | none =>
    dsimp only
    split
    · rfl
    · exact (Share.modifyLast_of_not _ (not_any_of_findLast hfind)).symm

theorem share_onToolProgress_other (hne : a ≠ b) (id chunk : Bytes)
    (hrow : ∀ i ∈ Root.findLast (Root.isToolRow id) r.history,
      ∀ line ∈ r.history[i]?, line.speaker = some b) :
    (r.onToolProgress fmt id chunk).share a = r.share a := by
  rw [Root.onToolProgress]
  cases hfind : Root.findLast (Root.isToolRow id) r.history with
  | some i =>
    dsimp only
    split
    · rfl
    · exact share_modifyRow_other (keepsOwner_tail fmt _) hfind (hrow i hfind) hne
  | none => rfl

theorem Streaming.onToolDone (h : Streaming fmt A r) (now : ℤ) (id name output : Bytes)
    (isError : Bool) : Streaming fmt A (r.onToolDone fmt now b id name output isError) := by
  have hshaped := h.shaped.onToolDone now b id name output isError
  cases hfind : Root.findLast (Root.isToolRow id) r.history with
  | some i =>
    rw [Root.onToolDone_row fmt now b id name output isError hfind] at hshaped ⊢
    exact (h.clear b).modifyLine (keepsOwner_finishTool fmt now name output isError) hshaped
  | none =>
    rw [Root.onToolDone_none fmt now b id name output isError hfind]
    exact h.clear b

theorem share_onToolDone_own (now : ℤ) (id name output : Bytes) (isError : Bool)
    (hrow : ∀ i ∈ Root.findLast (Root.isToolRow id) r.history,
      ∀ line ∈ r.history[i]?, line.speaker = some b) :
    (r.onToolDone fmt now b id name output isError).share b =
      (r.share b).onToolDone fmt now id name output isError := by
  have hf := keepsOwner_finishTool fmt now name output isError
  rw [Share.onToolDone]
  cases hfind : Root.findLast (Root.isToolRow id) r.history with
  | some i =>
    rw [Root.onToolDone_row fmt now b id name output isError hfind,
      (share_modifyRow_own (r := r.clearPendingAgentLine b) hf hfind (hrow i hfind)).1,
      share_clear_own]
    rfl
  | none =>
    rw [Root.onToolDone_none fmt now b id name output isError hfind, share_clear_own,
      Share.modifyLast_of_not _ (not_any_of_findLast hfind)]

theorem share_onToolDone_other (hA : Distinct A) (ha : A a) (hb : A b) (hne : a ≠ b) (now : ℤ)
    (id name output : Bytes) (isError : Bool)
    (hrow : ∀ i ∈ Root.findLast (Root.isToolRow id) r.history,
      ∀ line ∈ r.history[i]?, line.speaker = some b) :
    (r.onToolDone fmt now b id name output isError).share a = r.share a := by
  have hclear := share_clear_other hA ha hb hne r
  cases hfind : Root.findLast (Root.isToolRow id) r.history with
  | some i =>
    rw [Root.onToolDone_row fmt now b id name output isError hfind, ← hclear]
    exact share_modifyRow_other (r := r.clearPendingAgentLine b)
      (keepsOwner_finishTool fmt now name output isError) hfind (hrow i hfind) hne
  | none =>
    rw [Root.onToolDone_none fmt now b id name output isError hfind]
    exact hclear

/-! ## The end of a reply -/

theorem share_notes (hnotes : Notes r r') (a : Bytes) : r'.share a = r.share a := by
  obtain ⟨lines, hlines, hhistory⟩ := hnotes.history
  refine share_eq ?_ ?_ hnotes.currentTurnId hnotes.toolOutputEnabled
  · rw [hhistory]
    refine linesOf_append_other (fun line hline => ?_) fun line hline => ?_
    · rw [hlines line hline]
      simp
    · rw [isLineOf, hlines line hline]
      rfl
  · rw [Root.getPendingAgentLine, hnotes.pendingAgentLines]
    rfl

theorem renderTurnLine_role (markdown : Bytes → Option Bytes) (e : Line × Bool) :
    (Share.renderTurnLine markdown e).role = e.1.role := by
  rw [Share.renderTurnLine]
  split
  · exact renderMarkdown_role markdown e.1
  · rfl

theorem renderTurnLine_speaker (markdown : Bytes → Option Bytes) (e : Line × Bool) :
    (Share.renderTurnLine markdown e).speaker = e.1.speaker := by
  rw [Share.renderTurnLine]
  split
  · exact renderMarkdown_speaker markdown e.1
  · rfl

/-- The pass over the turn, for one agent. -/
theorem share_renderAgentMarkdown (r : Root) (markdown : Bytes → Option Bytes) (a : Bytes) :
    (r.renderAgentMarkdown markdown).share a = { r.share a with
      lines := (r.share a).lines.map fun e => (Share.renderTurnLine markdown e, e.2) } := by
  have hhistory : (r.renderAgentMarkdown markdown).history =
      (tagged r.history).map (Share.renderTurnLine markdown) :=
    history_renderAgentMarkdown r markdown
  rw [Root.share, hhistory,
    linesOf_map (renderTurnLine_role markdown) (renderTurnLine_speaker markdown)]
  rfl

theorem Streaming.renderAgentMarkdown (h : Streaming fmt A r) (markdown : Bytes → Option Bytes) :
    Streaming fmt A (r.renderAgentMarkdown markdown) := by
  refine h.of_same (h.shaped.renderAgentMarkdown markdown) (fun c => ?_) fun _ _ hi => hi
  have hhistory : (r.renderAgentMarkdown markdown).history =
      (tagged r.history).map (Share.renderTurnLine markdown) :=
    history_renderAgentMarkdown r markdown
  rw [hhistory]
  exact map_tagged_congr (fun e => isLineOf_congr (renderTurnLine_role markdown e)
    (renderTurnLine_speaker markdown e) c) r.history

theorem Streaming.onDone (h : Streaming fmt A r) (markdown : Bytes → Option Bytes)
    (faults : List (Option DispatchFault)) (p : DonePayload) :
    Streaming fmt A (r.onDone fmt markdown faults p).1 := by
  obtain ⟨r₁, hnotes, heq⟩ := h.shaped.onDone_eq markdown faults p
  have hend := ((h.notes hnotes).renderAgentMarkdown markdown).clear p.targetAgent
  rw [heq]
  exact ⟨⟨hend.shaped.rows, hend.shaped.opened⟩, hend.last⟩

theorem share_onDone_own (h : Streaming fmt A r) (markdown : Bytes → Option Bytes)
    (faults : List (Option DispatchFault)) (p : DonePayload) :
    (r.onDone fmt markdown faults p).1.share p.targetAgent =
      (r.share p.targetAgent).onDone markdown := by
  obtain ⟨r₁, hnotes, heq⟩ := h.shaped.onDone_eq markdown faults p
  rw [heq]
  show ((r₁.renderAgentMarkdown markdown).clearPendingAgentLine p.targetAgent).share _ = _
  rw [share_clear_own, share_renderAgentMarkdown, share_notes hnotes]
  rfl

theorem share_onDone_other (hA : Distinct A) (h : Streaming fmt A r) (ha : A a)
    (markdown : Bytes → Option Bytes) (faults : List (Option DispatchFault)) (p : DonePayload)
    (hb : A p.targetAgent) (hne : a ≠ p.targetAgent)
    (hturn : ∀ line ∈ r.turnLines, line.speaker = some a →
      Root.renderMarkdown markdown line = line) :
    (r.onDone fmt markdown faults p).1.share a = r.share a := by
  obtain ⟨r₁, hnotes, heq⟩ := h.shaped.onDone_eq markdown faults p
  have hsame : (r.share a).lines.map (fun e => (Share.renderTurnLine markdown e, e.2)) =
      (r.share a).lines := by
    conv_rhs => rw [← List.map_id (r.share a).lines]
    refine List.map_congr_left fun e he => Prod.ext ?_ rfl
    obtain ⟨hmem, hown⟩ := List.mem_filter.mp he
    rw [Share.renderTurnLine]
    split
    · rename_i hlast
      exact hturn e.1 (mem_turnLines r hmem hlast) (isLineOf_iff.mp hown).2
    · rfl
  rw [heq]
  show ((r₁.renderAgentMarkdown markdown).clearPendingAgentLine p.targetAgent).share a = _
  rw [share_clear_other hA ha hb hne, share_renderAgentMarkdown, share_notes hnotes, hsame]

end Tui
end TigerClaw
