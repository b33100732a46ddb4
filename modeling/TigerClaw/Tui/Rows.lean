import TigerClaw.Tui.Chat
import TigerClaw.Tui.TurnLines

/-!
# What the history always looks like

Whatever has happened, the text of a tool row is what `renderToolLine` makes of the row, and the
line that an agent is writing to is an agent's.

* `Notes`: what the calls do that only add lines of the system.
* `Shaped`, `shaped_handleUserEvent`, `shaped_run`: the shape, in every state of every run.
-/

namespace TigerClaw
namespace Tui

/-- Lines of the system are added, and nothing changes that the streams depend on. -/
structure Notes (r r' : Root) : Prop where
  history : ∃ lines, (∀ line ∈ lines, line.role = .system) ∧ r'.history = r.history ++ lines
  pendingAgentLines : r'.pendingAgentLines = r.pendingAgentLines
  turnEpoch : r'.turnEpoch = r.turnEpoch
  currentTurnId : r'.currentTurnId = r.currentTurnId
  toolOutputEnabled : r'.toolOutputEnabled = r.toolOutputEnabled

namespace Notes

variable {r r₁ r₂ : Root}

theorem refl (r : Root) : Notes r r :=
  ⟨⟨[], fun _ h => (nomatch h), (List.append_nil _).symm⟩, rfl, rfl, rfl, rfl⟩

theorem trans (h : Notes r r₁) (h' : Notes r₁ r₂) : Notes r r₂ := by
  obtain ⟨lines, hlines, hhistory⟩ := h.history
  obtain ⟨lines', hlines', hhistory'⟩ := h'.history
  refine ⟨⟨lines ++ lines', fun line hline => ?_, ?_⟩,
    h'.pendingAgentLines.trans h.pendingAgentLines, h'.turnEpoch.trans h.turnEpoch,
    h'.currentTurnId.trans h.currentTurnId, h'.toolOutputEnabled.trans h.toolOutputEnabled⟩
  · rcases List.mem_append.mp hline with hline | hline
    · exact hlines line hline
    · exact hlines' line hline
  · rw [hhistory', hhistory, List.append_assoc]

theorem appendLine (r : Root) (text : Bytes) : Notes r (r.appendLine .system text) :=
  ⟨⟨[_], fun line hline => by rw [List.mem_singleton.mp hline], rfl⟩, rfl, rfl, rfl, rfl⟩

/-- Fields that the streams do not depend on. -/
theorem of_eq {r' : Root} (hhistory : r'.history = r.history)
    (hpending : r'.pendingAgentLines = r.pendingAgentLines) (hepoch : r'.turnEpoch = r.turnEpoch)
    (hturn : r'.currentTurnId = r.currentTurnId)
    (henabled : r'.toolOutputEnabled = r.toolOutputEnabled) : Notes r r' :=
  ⟨⟨[], fun _ h => (nomatch h), by rw [hhistory, List.append_nil]⟩, hpending, hepoch, hturn,
    henabled⟩

theorem fanOut (invoker : Bytes) (names : List (Bytes × ℕ)) (faults : List (Option DispatchFault))
    (r : Root) : Notes r (Root.fanOut invoker names faults r).1 := by
  induction names generalizing faults r with
  | nil => exact .refl r
  | cons entry rest ih =>
    obtain ⟨name, idx⟩ := entry
    rw [Root.fanOut, Root.dispatchSubturn]
    split
    · rename_i self errorName hdispatch
      refine .trans ?_ (ih faults.tail _)
      refine .trans ?_ (.appendLine self _)
      split at hdispatch
      · obtain rfl := (Prod.mk.inj hdispatch).1
        exact .refl r
      · dsimp only at hdispatch
        split at hdispatch
        · obtain rfl := (Prod.mk.inj hdispatch).1
          exact .of_eq rfl rfl rfl rfl rfl
        · cases (Prod.mk.inj hdispatch).2
    · rename_i self started hdispatch
      refine .trans ?_ (ih faults.tail _)
      split at hdispatch
      · cases (Prod.mk.inj hdispatch).2
      · dsimp only at hdispatch
        split at hdispatch
        · cases (Prod.mk.inj hdispatch).2
        · obtain rfl := (Prod.mk.inj hdispatch).1
          exact .of_eq rfl rfl rfl rfl rfl

theorem scanAndFanOut (faults : List (Option DispatchFault)) (p : DonePayload) (r : Root) :
    Notes r (r.scanAndFanOut faults p).1 := by
  rw [Root.scanAndFanOut]
  split
  · exact .refl r
  · split
    · exact .refl r
    · dsimp only
      split
      · exact .refl r
      · split
        · exact .appendLine r _
        · have hfan := fanOut p.targetAgent (((Mention.findAll p.output r.agentNames
            p.targetAgent).take (min (Mention.findAll p.output r.agentNames p.targetAgent).length
              (r.autoDispatchMaxCalls.toNat - r.autoDispatchCalls.toNat - 1))).zipIdx) faults
            { r with invokerToResume := some p.targetAgent }
          have hinvoker : Notes r { r with invokerToResume := some p.targetAgent } :=
            .of_eq rfl rfl rfl rfl rfl
          split
          · exact (hinvoker.trans hfan).trans (.appendLine _ _)
          · exact hinvoker.trans hfan

theorem maybeResume (r : Root) : Notes r r.maybeResume := by
  rw [Root.maybeResume]
  split
  · exact .refl r
  · split
    · exact .refl r
    · exact .of_eq rfl rfl rfl rfl rfl

theorem onSubturnDone (faults : List (Option DispatchFault)) (p : DonePayload) (r : Root) :
    Notes r (r.onSubturnDone faults p).1 := by
  rw [Root.onSubturnDone]
  split
  · exact .refl r
  · split
    · exact .refl r
    · rename_i i hfind
      have hsettle : Notes r (r.settleSlot i fun slot =>
          { slot with reply := some p.output, state := .done }) := .of_eq rfl rfl rfl rfl rfl
      exact (hsettle.trans (.maybeResume _)).trans (.scanAndFanOut faults p _)

theorem onSubturnTimeout (r : Root) (target : Bytes) (mentionIdx : UInt8) :
    Notes r (r.onSubturnTimeout target mentionIdx) := by
  rw [Root.onSubturnTimeout]
  split
  · exact .refl r
  · rename_i i hfind
    have hsettle : Notes r (r.settleSlot i fun slot =>
        { slot with state := .timedOut, errorReason := some (ascii "timeout") }) :=
      .of_eq rfl rfl rfl rfl rfl
    exact (hsettle.trans (.appendLine _ _)).trans (.maybeResume _)

theorem escape (r : Root) : Notes r r.escape := by
  have hcancel : ∀ self : Root, Notes self
      (if self.askUserPending then { self with askUserPending := false, pendingReply := none }
        else self) := by
    intro self
    split
    · exact .of_eq rfl rfl rfl rfl rfl
    · exact .refl self
  rw [Root.escape]
  refine .trans ?_ (hcancel _)
  split
  · exact .refl r
  · exact (appendLine r _).trans (.of_eq rfl rfl rfl rfl rfl)

end Notes

/-! ## The shape -/

/-- The rows are made of their fields, and an open line is an agent's. -/
structure Shaped (fmt : Format) (r : Root) : Prop where
  rows : ∀ line ∈ r.history, line.role = .tool → renderToolLine fmt line = line
  opened : ∀ entry ∈ r.pendingAgentLines,
    ∃ line, r.history[entry.2]? = some line ∧ line.role = .agent

namespace Shaped

variable {fmt : Format} {r r' : Root}

theorem append (h : Shaped fmt r) {lines : List Line} (hhistory : r'.history = r.history ++ lines)
    (hrows : ∀ line ∈ lines, line.role = .tool → renderToolLine fmt line = line)
    (hopened : ∀ entry ∈ r'.pendingAgentLines, entry ∈ r.pendingAgentLines) : Shaped fmt r' := by
  refine ⟨fun line hline => ?_, fun entry hentry => ?_⟩
  · rw [hhistory] at hline
    rcases List.mem_append.mp hline with hline | hline
    · exact h.rows line hline
    · exact hrows line hline
  · obtain ⟨line, hline, hrole⟩ := h.opened entry (hopened entry hentry)
    refine ⟨line, ?_, hrole⟩
    rw [hhistory, List.getElem?_append_left (List.getElem?_eq_some_iff.mp hline).1]
    exact hline

theorem notes (h : Shaped fmt r) (hnotes : Notes r r') : Shaped fmt r' := by
  obtain ⟨lines, hlines, hhistory⟩ := hnotes.history
  refine h.append hhistory (fun line hline hrole => ?_) (hnotes.pendingAgentLines ▸ fun _ => id)
  rw [hlines line hline] at hrole
  cases hrole

theorem clearPendingAgentLine (h : Shaped fmt r) (agent : Bytes) :
    Shaped fmt (r.clearPendingAgentLine agent) :=
  ⟨h.rows, fun entry hentry => h.opened entry (List.mem_filter.mp hentry).1⟩

theorem modifyLine (h : Shaped fmt r) {i : ℕ} {f : Line → Line} (hf : KeepsOwner f)
    (hrow : ∀ line, r.history[i]? = some line → line.role = .tool →
      renderToolLine fmt (f line) = f line) : Shaped fmt (r.modifyLine i f) := by
  refine ⟨fun line hline hrole => ?_, fun entry hentry => ?_⟩
  · obtain ⟨j, hj⟩ := List.mem_iff_getElem?.mp hline
    have hj : (r.history.modify i f)[j]? = some line := hj
    rw [List.getElem?_modify] at hj
    obtain ⟨old, hold, hchange⟩ := Option.map_eq_some_iff.mp hj
    split at hchange
    · rename_i heq
      subst heq
      rw [← hchange] at hrole ⊢
      exact hrow old hold ((hf.role old).symm.trans hrole)
    · rw [← hchange] at hrole ⊢
      exact h.rows old (List.mem_of_getElem? hold) hrole
  · obtain ⟨line, hline, hrole⟩ := h.opened entry hentry
    show ∃ line, (r.history.modify i f)[entry.2]? = some line ∧ _
    rw [List.getElem?_modify, hline]
    refine ⟨_, rfl, ?_⟩
    split
    · exact (hf.role line).trans hrole
    · exact hrole

/-- Every line may change. -/
theorem map (h : Shaped fmt r) {g : Line × Bool → Line} (hrole : ∀ e, (g e).role = e.1.role)
    (hrow : ∀ e, e.1.role = .tool → renderToolLine fmt e.1 = e.1 →
      renderToolLine fmt (g e) = g e)
    (hhistory : r'.history = (tagged r.history).map g)
    (hpending : r'.pendingAgentLines = r.pendingAgentLines) : Shaped fmt r' := by
  refine ⟨fun line hline htool => ?_, fun entry hentry => ?_⟩
  · rw [hhistory] at hline
    obtain ⟨e, he, rfl⟩ := List.mem_map.mp hline
    have hmem : e.1 ∈ r.history := by
      rw [← map_fst_tagged r.history]
      exact List.mem_map_of_mem he
    have htool := (hrole e).symm.trans htool
    exact hrow e htool (h.rows e.1 hmem htool)
  · obtain ⟨line, hline, hagent⟩ := h.opened entry (hpending ▸ hentry)
    rw [← map_fst_tagged r.history, List.getElem?_map] at hline
    obtain ⟨e, he, rfl⟩ := Option.map_eq_some_iff.mp hline
    refine ⟨g e, ?_, (hrole e).trans hagent⟩
    rw [hhistory, List.getElem?_map, he]
    rfl

/-- **The rows need no second pass.** -/
theorem rerenderTurnTools (h : Shaped fmt r) (turnId : UInt32) :
    r.rerenderTurnTools fmt turnId = r := by
  rw [Root.rerenderTurnTools]
  split
  · rfl
  · have hsame : (r.history.map fun entry => if entry.role = .tool ∧ entry.toolTurnId = turnId then
        renderToolLine fmt entry else entry) = r.history := by
      conv_rhs => rw [← List.map_id r.history]
      refine List.map_congr_left fun entry hentry => ?_
      split
      · rename_i hrow
        exact h.rows entry hentry hrow.1
      · rfl
    rw [hsame]

end Shaped

/-! ## What is done to a line -/

theorem keepsOwner_chunk (text : Bytes) :
    KeepsOwner fun line => { line with text := line.text ++ text } :=
  ⟨fun _ => rfl, fun _ => rfl⟩

theorem keepsOwner_render (fmt : Format) {f : Line → Line} (hf : KeepsOwner f) :
    KeepsOwner fun entry => renderToolLine fmt (f entry) :=
  ⟨fun line => (renderToolLine_role fmt _).trans (hf.role line),
    fun line => (renderToolLine_speaker fmt _).trans (hf.speaker line)⟩

theorem keepsOwner_args (argsSummary : Bytes) : KeepsOwner fun entry : Line =>
    if argsSummary ≠ [] then { entry with toolArgs := some argsSummary } else entry := by
  refine ⟨fun line => ?_, fun line => ?_⟩
  · split <;> rfl
  · split <;> rfl

theorem keepsOwner_finishTool (fmt : Format) (now : ℤ) (name output : Bytes) (isError : Bool) :
    KeepsOwner (Root.finishTool fmt now name output isError) :=
  ⟨fun _ => renderToolLine_role fmt _, fun _ => renderToolLine_speaker fmt _⟩

theorem renderToolLine_finishTool (fmt : Format) (now : ℤ) (name output : Bytes) (isError : Bool)
    (entry : Line) : renderToolLine fmt (Root.finishTool fmt now name output isError entry) =
      Root.finishTool fmt now name output isError entry := by
  have hid : ∀ line : Line, renderToolLine fmt { line with toolId := none } =
      { renderToolLine fmt line with toolId := none } := by
    intro line
    cases hname : line.toolName with
    | none => simp only [renderToolLine, hname]
    | some name =>
      simp only [renderToolLine, hname]
      rfl
  rw [Root.finishTool, hid, renderToolLine_idem]

/-- The row of a tool that has just been called. -/
theorem renderToolLine_row (fmt : Format) (row : Line) {name argsSummary : Bytes}
    (hname : row.toolName = some name) (hargs : row.toolArgs = some argsSummary)
    (hfull : row.toolFull = none) (htail : row.toolProgressTail = none)
    (htext : row.text = renderToolHeader name argsSummary) : renderToolLine fmt row = row := by
  have htool : toolText fmt row name = row.text := by
    rw [toolText, hargs, hfull, htail, htext]
    exact List.append_nil _
  rw [renderToolLine]
  split
  · rfl
  · rename_i other hother
    obtain rfl := Option.some.inj (hother.symm.trans hname)
    rw [htool]

theorem renderMarkdown_role (markdown : Bytes → Option Bytes) (line : Line) :
    (Root.renderMarkdown markdown line).role = line.role := by
  rw [Root.renderMarkdown]
  split
  · rfl
  · split
    · rfl
    · split <;> rfl

theorem renderMarkdown_speaker (markdown : Bytes → Option Bytes) (line : Line) :
    (Root.renderMarkdown markdown line).speaker = line.speaker := by
  rw [Root.renderMarkdown]
  split
  · rfl
  · split
    · rfl
    · split <;> rfl

theorem renderMarkdown_of_ne (markdown : Bytes → Option Bytes) {line : Line}
    (h : line.role ≠ .agent) : Root.renderMarkdown markdown line = line := by
  rw [Root.renderMarkdown, if_pos (.inl h)]

/-! ## The events of a stream -/

namespace Root

variable (r : Root)

theorem onChunk_open {agent : Bytes} {idx : ℕ} (text : Bytes)
    (h : r.getPendingAgentLine agent = some idx) :
    r.onChunk agent text =
      r.modifyLine idx fun line => { line with text := line.text ++ text } := by
  rw [onChunk, h]

/-- A chunk of an agent without an open line begins one. -/
theorem onChunk_new {agent : Bytes} (text : Bytes) (h : r.getPendingAgentLine agent = none) :
    ∃ key, eqlIgnoreCase key agent = true ∧ r.onChunk agent text = { r with
      history := r.history ++ [{ role := .agent, text, speaker := some agent }]
      pendingAgentLines := r.pendingAgentLines ++ [(key, r.history.length)] } := by
  have hnone : r.pendingAgentLines.find? (fun entry => eqlIgnoreCase entry.1 agent) = none := by
    rw [getPendingAgentLine, Option.map_eq_none_iff] at h
    exact h
  refine ⟨(r.canonicalAgent agent).getD agent, ?_, ?_⟩
  · cases hfind : r.canonicalAgent agent with
    | none => exact eqlIgnoreCase_refl agent
    | some key => exact List.find?_some (p := (eqlIgnoreCase · agent)) hfind
  · rw [onChunk, h]
    dsimp only
    rw [setPendingAgentLine]
    have hnone : (r.appendLineWithSpeaker .agent [] (some agent)).pendingAgentLines.find?
        (fun entry => eqlIgnoreCase entry.1 agent) = none := hnone
    rw [hnone]
    show ({ r with history := _, pendingAgentLines := _ } : Root) = _
    congr 1
    exact LastMatch.modify_length _ r.history [] _

end Root

variable {fmt : Format} {r : Root}

theorem Shaped.onChunk (h : Shaped fmt r) (agent text : Bytes) :
    Shaped fmt (r.onChunk agent text) := by
  cases hpending : r.getPendingAgentLine agent with
  | some idx =>
    rw [r.onChunk_open text hpending]
    refine h.modifyLine (keepsOwner_chunk text) fun line hline hrole => ?_
    -- the open line is not a row
    rw [Root.getPendingAgentLine] at hpending
    obtain ⟨entry, hentry, rfl⟩ := Option.map_eq_some_iff.mp hpending
    obtain ⟨opened, hopened, hagent⟩ := h.opened entry (List.mem_of_find?_eq_some hentry)
    rw [Option.some.inj (hline.symm.trans hopened), hagent] at hrole
    cases hrole
  | none =>
    obtain ⟨key, -, heq⟩ := r.onChunk_new text hpending
    rw [heq]
    refine ⟨fun line hline hrole => ?_, fun entry hentry => ?_⟩
    · rcases List.mem_append.mp hline with hline | hline
      · exact h.rows line hline hrole
      · obtain rfl := List.mem_singleton.mp hline
        cases hrole
    · rcases List.mem_append.mp hentry with hentry | hentry
      · obtain ⟨line, hline, hrole⟩ := h.opened entry hentry
        refine ⟨line, ?_, hrole⟩
        exact (List.getElem?_append_left (List.getElem?_eq_some_iff.mp hline).1).trans hline
      · obtain rfl := List.mem_singleton.mp hentry
        exact ⟨_, LastMatch.getElem?_length r.history [] _, rfl⟩

/-- The row that the start of a tool adds. -/
def newRow (toolTurnId : UInt32) (now : ℤ) (agent id name argsSummary : Bytes) : Line where
  role := .tool
  text := renderToolHeader name argsSummary
  speaker := some agent
  toolId := some id
  toolName := some name
  toolArgs := some argsSummary
  toolTurnId
  toolStartedMs := now

theorem Shaped.withRow (h : Shaped fmt r) (toolTurnId : UInt32) (now : ℤ)
    (agent id name argsSummary : Bytes) :
    Shaped fmt
      { r with history := r.history ++ [newRow toolTurnId now agent id name argsSummary] } := by
  refine h.append rfl (fun line hline _ => ?_) fun _ hentry => hentry
  obtain rfl := List.mem_singleton.mp hline
  exact renderToolLine_row fmt _ rfl rfl rfl rfl rfl

theorem Root.onToolStart_off (fmt : Format) (now : ℤ) (agent id name argsSummary : Bytes)
    (h : r.toolOutputEnabled = false) :
    r.onToolStart fmt now agent id name argsSummary = r.clearPendingAgentLine agent := by
  have hoff : (r.clearPendingAgentLine agent).toolOutputEnabled = false := h
  rw [Root.onToolStart]
  dsimp only
  rw [if_neg (by rw [hoff]; simp)]

/-- The start of a tool that has a row. -/
theorem Root.onToolStart_again {i : ℕ} (fmt : Format) (now : ℤ)
    (agent id name argsSummary : Bytes) (h : r.toolOutputEnabled = true)
    (hfind : Root.findLast (Root.isToolRow id) r.history = some i) :
    r.onToolStart fmt now agent id name argsSummary =
      (r.clearPendingAgentLine agent).modifyLine i fun entry => renderToolLine fmt
        (if argsSummary ≠ [] then { entry with toolArgs := some argsSummary } else entry) := by
  have hon : (r.clearPendingAgentLine agent).toolOutputEnabled = true := h
  have hfind : Root.findLast (Root.isToolRow id) (r.clearPendingAgentLine agent).history = some i :=
    hfind
  rw [Root.onToolStart]
  dsimp only
  rw [if_pos hon, hfind]

/-- The start of a tool without a row. -/
theorem Shaped.onToolStart_new (hs : Shaped fmt r) (now : ℤ) (agent id name argsSummary : Bytes)
    (h : r.toolOutputEnabled = true)
    (hfind : Root.findLast (Root.isToolRow id) r.history = none) :
    r.onToolStart fmt now agent id name argsSummary =
      { r.clearPendingAgentLine agent with
        history := r.history ++ [newRow r.currentTurnId now agent id name argsSummary] } := by
  have hon : (r.clearPendingAgentLine agent).toolOutputEnabled = true := h
  have hfind : Root.findLast (Root.isToolRow id) (r.clearPendingAgentLine agent).history = none :=
    hfind
  rw [Root.onToolStart]
  dsimp only
  rw [if_pos hon, hfind]
  exact ((hs.clearPendingAgentLine agent).withRow r.currentTurnId now agent id name
    argsSummary).rerenderTurnTools _

theorem Shaped.onToolStart (h : Shaped fmt r) (now : ℤ) (agent id name argsSummary : Bytes) :
    Shaped fmt (r.onToolStart fmt now agent id name argsSummary) := by
  have hclear := h.clearPendingAgentLine agent
  by_cases hon : r.toolOutputEnabled = true
  · cases hfind : Root.findLast (Root.isToolRow id) r.history with
    | some i =>
      rw [Root.onToolStart_again fmt now agent id name argsSummary hon hfind]
      exact hclear.modifyLine (keepsOwner_render fmt (keepsOwner_args argsSummary))
        fun line _ _ => renderToolLine_idem fmt _
    | none =>
      rw [h.onToolStart_new now agent id name argsSummary hon hfind]
      exact hclear.withRow r.currentTurnId now agent id name argsSummary
  · rw [Root.onToolStart_off fmt now agent id name argsSummary (Bool.eq_false_iff.mpr hon)]
    exact hclear

theorem Shaped.onToolProgress (h : Shaped fmt r) (id chunk : Bytes) :
    Shaped fmt (r.onToolProgress fmt id chunk) := by
  rw [Root.onToolProgress]
  split
  · dsimp only
    split
    · exact h
    · exact h.modifyLine (keepsOwner_render fmt ⟨fun _ => rfl, fun _ => rfl⟩)
        fun line _ _ => renderToolLine_idem fmt _
  · exact h

theorem Root.onToolDone_row {i : ℕ} (fmt : Format) (now : ℤ) (agent id name output : Bytes)
    (isError : Bool) (hfind : Root.findLast (Root.isToolRow id) r.history = some i) :
    r.onToolDone fmt now agent id name output isError =
      (r.clearPendingAgentLine agent).modifyLine i
        (Root.finishTool fmt now name output isError) := by
  have hfind : Root.findLast (Root.isToolRow id) (r.clearPendingAgentLine agent).history = some i :=
    hfind
  rw [Root.onToolDone, hfind]

theorem Root.onToolDone_none (fmt : Format) (now : ℤ) (agent id name output : Bytes)
    (isError : Bool) (hfind : Root.findLast (Root.isToolRow id) r.history = none) :
    r.onToolDone fmt now agent id name output isError = r.clearPendingAgentLine agent := by
  have hfind : Root.findLast (Root.isToolRow id) (r.clearPendingAgentLine agent).history = none :=
    hfind
  rw [Root.onToolDone, hfind]

theorem Shaped.onToolDone (h : Shaped fmt r) (now : ℤ) (agent id name output : Bytes)
    (isError : Bool) : Shaped fmt (r.onToolDone fmt now agent id name output isError) := by
  have hclear := h.clearPendingAgentLine agent
  cases hfind : Root.findLast (Root.isToolRow id) r.history with
  | some i =>
    rw [Root.onToolDone_row fmt now agent id name output isError hfind]
    exact hclear.modifyLine (keepsOwner_finishTool fmt now name output isError)
      fun line _ _ => renderToolLine_finishTool fmt now name output isError line
  | none =>
    rw [Root.onToolDone_none fmt now agent id name output isError hfind]
    exact hclear

theorem Shaped.renderAgentMarkdown (h : Shaped fmt r) (markdown : Bytes → Option Bytes) :
    Shaped fmt (r.renderAgentMarkdown markdown) := by
  refine h.map (g := fun e => if e.2 then Root.renderMarkdown markdown e.1 else e.1)
    (fun e => ?_) (fun e htool hrow => ?_) (history_renderAgentMarkdown r markdown) rfl
  · split
    · exact renderMarkdown_role markdown e.1
    · rfl
  · split
    · rw [renderMarkdown_of_ne markdown (by rw [htool]; simp), hrow]
    · exact hrow

/-- **The end of a turn of an agent**: notes, and the pass over the turn. -/
theorem Shaped.onDone_eq (h : Shaped fmt r) (markdown : Bytes → Option Bytes)
    (faults : List (Option DispatchFault)) (p : DonePayload) :
    ∃ r₁, Notes r r₁ ∧ (r.onDone fmt markdown faults p).1 =
      { (r₁.renderAgentMarkdown markdown).clearPendingAgentLine p.targetAgent with
        pending := false, stopping := false, turnStartedMs := 0 } := by
  have hend : ∀ r₁ turnId, Notes r r₁ → (r₁.renderAgentMarkdown markdown).markLastToolInTurn fmt
      turnId = r₁.renderAgentMarkdown markdown :=
    fun r₁ turnId hnotes =>
      ((h.notes hnotes).renderAgentMarkdown markdown).rerenderTurnTools turnId
  cases hkind : p.dispatchKind with
  | subturn =>
    have hnotes := Notes.onSubturnDone faults p r
    refine ⟨_, hnotes, ?_⟩
    rw [Root.onDone, hkind]
    dsimp only
    rw [hend _ _ hnotes]
  | primary =>
    have hnotes := Notes.scanAndFanOut faults p r
    refine ⟨_, hnotes, ?_⟩
    rw [Root.onDone, hkind]
    dsimp only
    rw [hend _ _ hnotes]
  | resume_ =>
    have hnotes := Notes.scanAndFanOut faults p r
    refine ⟨_, hnotes, ?_⟩
    rw [Root.onDone, hkind]
    dsimp only
    rw [hend _ _ hnotes]

theorem Shaped.onDone (h : Shaped fmt r) (markdown : Bytes → Option Bytes)
    (faults : List (Option DispatchFault)) (p : DonePayload) :
    Shaped fmt (r.onDone fmt markdown faults p).1 := by
  obtain ⟨r₁, hnotes, heq⟩ := h.onDone_eq markdown faults p
  have hend := ((h.notes hnotes).renderAgentMarkdown markdown).clearPendingAgentLine p.targetAgent
  rw [heq]
  exact ⟨hend.rows, hend.opened⟩

/-! ## In every state -/

theorem shaped_handleUserEvent {host : Host} (h : Shaped host.toFormat r) (now : ℤ)
    (faults : List (Option DispatchFault)) (ue : UserEvent) :
    Shaped host.toFormat (r.handleUserEvent host now faults ue).1 := by
  unfold Root.handleUserEvent
  split
  · exact h
  · cases ue with
    | chunk epoch agent text => exact h.onChunk agent text
    | toolStart epoch agent id name argsSummary => exact h.onToolStart now agent id name argsSummary
    | toolProgress epoch agent id bytes => exact h.onToolProgress id bytes
    | toolDone epoch agent id name output isError =>
      exact h.onToolDone now agent id name output isError
    | askUser epoch question =>
      exact h.notes ((Notes.appendLine r _).trans (.of_eq rfl rfl rfl rfl rfl))
    | askUserCancel => exact h.notes (.of_eq rfl rfl rfl rfl rfl)
    | usage epoch ctxUsed => exact h
    | error epoch message => exact h.notes (.appendLine r _)
    | done p => exact h.onDone host.markdown faults p
    | subturnTimeout epoch invoker target mentionIdx =>
      exact h.notes (.onSubturnTimeout r target mentionIdx)

/-- The user says something, and what the agents are writing to stays or is given up. -/
theorem Shaped.say (h : Shaped fmt r) {r' : Root} (text : Bytes) (speaker : Option Bytes)
    (hhistory : r'.history = (r.appendLineWithSpeaker .user text speaker).history)
    (hpending : ∀ entry ∈ r'.pendingAgentLines, entry ∈ r.pendingAgentLines) : Shaped fmt r' := by
  refine h.append hhistory (fun line hline hrole => ?_) hpending
  rw [List.mem_singleton.mp hline] at hrole
  cases hrole

theorem Shaped.beginTurnWithEcho (h : Shaped fmt r) (now : ℤ) (spawnError : Option Bytes)
    (echo : Bytes) : Shaped fmt (r.beginTurnWithEcho now spawnError echo).1 := by
  cases spawnError with
  | none => exact h.say echo (some r.userName) rfl fun _ hentry => nomatch hentry
  | some errorName => exact h.say echo (some r.userName) rfl fun _ hentry => nomatch hentry

theorem Shaped.submitBody (h : Shaped fmt r) (now : ℤ) (spawnError : Option Bytes) (text : Bytes) :
    Shaped fmt (r.submitBody now spawnError text).1 := by
  have hbegin := h.beginTurnWithEcho now spawnError text
  rw [Root.submitBody]
  split
  · exact h.say text (some r.userName) rfl fun _ => id
  · cases spawnError with
    | none => exact hbegin
    | some errorName => exact hbegin.notes (.appendLine _ _)

theorem Shaped.dispatchCommand (h : Shaped fmt r) (effect : CommandEffect) :
    Shaped fmt (r.dispatchCommand effect) := by
  have hlines : ∀ (lines : List Bytes) (self : Root), Shaped fmt self →
      Shaped fmt (lines.foldl (fun self line => self.appendLine .system line) self) := by
    intro lines
    induction lines with
    | nil => exact fun _ hself => hself
    | cons line lines ih => exact fun self hself => ih _ (hself.notes (.appendLine self line))
  have hall := hlines effect.lines r h
  exact ⟨hall.rows, hall.opened⟩

theorem Shaped.onSubmit {host : Host} (h : Shaped fmt r) (now : ℤ) (spawnError : Option Bytes)
    (text : Bytes) : Shaped fmt (r.onSubmit host now spawnError text).1 := by
  rw [Root.onSubmit]
  split
  · exact h
  · split
    · exact h.say text (some r.userName) rfl fun _ => id
    · split
      · exact h.dispatchCommand _
      · dsimp only
        split
        · exact h.submitBody now spawnError text
        · have hactive : ∀ name, Shaped fmt (r.setActiveAgent name) :=
            fun name => ⟨h.rows, h.opened⟩
          split
          · split
            · exact (hactive _).say text (some r.userName) rfl fun _ => id
            · exact (hactive _).submitBody now spawnError text
          · exact h.notes (.appendLine r _)

theorem Shaped.toggleAllToolExpand (h : Shaped fmt r) : Shaped fmt (r.toggleAllToolExpand fmt) := by
  refine h.map (g := fun e => if e.1.role = .tool ∧ e.1.toolName.isSome then
      renderToolLine fmt { e.1 with toolExpanded := !e.1.toolExpanded } else e.1)
    (fun e => ?_) (fun e _ hrow => ?_) ?_ rfl
  · split
    · exact renderToolLine_role fmt _
    · rfl
  · split
    · exact renderToolLine_idem fmt _
    · exact hrow
  · show r.history.map _ = _
    conv_lhs => rw [← map_fst_tagged r.history]
    rw [List.map_map]
    rfl

namespace Chat

theorem shaped_step {host : Host} {w w' : World} {a : Action} (h : Shaped host.toFormat w.root)
    (hstep : step host w a = some w') : Shaped host.toFormat w'.root := by
  cases a with
  | submit now spawnError text =>
    obtain rfl := Option.some.inj hstep
    exact h.onSubmit now spawnError text
  | escape =>
    rw [step] at hstep
    split at hstep
    · cases hstep
    · obtain rfl := Option.some.inj hstep
      exact h.notes (.escape w.root)
  | toggle =>
    obtain rfl := Option.some.inj hstep
    exact h.toggleAllToolExpand
  | post i _ | finish i _ | expire i =>
    rw [step] at hstep
    split at hstep
    · cases hstep
    · obtain rfl := Option.some.inj hstep
      exact h
  | takeReply i =>
    rw [step] at hstep
    split at hstep
    · cases hstep
    · obtain rfl := Option.some.inj hstep
      exact ⟨h.rows, h.opened⟩
  | handle now faults =>
    rw [step] at hstep
    split at hstep
    · cases hstep
    · obtain rfl := Option.some.inj hstep
      exact shaped_handleUserEvent h now faults _

/-- **The shape, in every state of every run** that begins without tool rows. -/
theorem shaped_run (host : Host) (agentNames : List Bytes) (sessionId userName : Bytes)
    (maxCalls : UInt8) (timeoutSecs : UInt32) {history : List Line}
    (hhistory : ∀ line ∈ history, line.role ≠ .tool) {as : List Action} {w : World}
    (h : StepMachine.run (step host)
      (start agentNames sessionId userName maxCalls timeoutSecs history) as = some w) :
    Shaped host.toFormat w.root := by
  refine StepMachine.invariant_run (I := fun w => Shaped host.toFormat w.root)
    (fun w a w' => shaped_step) ?_ h
  exact ⟨fun line hline hrole => absurd hrole (hhistory line hline), fun _ hentry => nomatch hentry⟩

end Chat

end Tui
end TigerClaw
