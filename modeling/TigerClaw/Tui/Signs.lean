import TigerClaw.Tui.Rows

/-!
# The rows of the tool calls

What the status bar sees of a tool row, and how the row is found again when its call returns: whose
call it is, its id, and how far it is.

* `Signed`, `signed_handleUserEvent`: what an event does to the rows.
* `signs_onSubmit`, `signs_toggleAllToolExpand`: what the user does leaves them as they are.
-/

namespace TigerClaw
namespace Tui

/-- What is seen of a tool row. -/
structure Sign where
  speaker : Option Bytes
  toolId : Option Bytes
  toolStatus : ToolStatus

def Line.sign (line : Line) : Option Sign :=
  if line.role = .tool then some ⟨line.speaker, line.toolId, line.toolStatus⟩ else none

def Root.signs (self : Root) : List Sign := self.history.filterMap Line.sign

/-! ## Changes that are not seen -/

theorem sign_of_ne {line : Line} (h : line.role ≠ .tool) : line.sign = none := if_neg h

theorem sign_of_tool {line : Line} (h : line.role = .tool) :
    line.sign = some ⟨line.speaker, line.toolId, line.toolStatus⟩ := if_pos h

theorem sign_renderToolLine (fmt : Format) (line : Line) :
    (renderToolLine fmt line).sign = line.sign := by
  rw [renderToolLine]
  split <;> rfl

theorem sign_renderMarkdown (markdown : Bytes → Option Bytes) (line : Line) :
    (Root.renderMarkdown markdown line).sign = line.sign := by
  rw [Root.renderMarkdown]
  split
  · rfl
  · split
    · rfl
    · split <;> rfl

theorem isToolRow_iff {id : Bytes} {line : Line} :
    Root.isToolRow id line = true ↔ ∃ s, line.sign = some s ∧ s.toolId = some id := by
  rw [Root.isToolRow, Line.sign]
  split
  · rename_i hrole
    simp [hrole]
  · rename_i hrole
    simp [hrole]

section Lists

variable (history : List Line)

/-- Lines are added that are not tool rows. -/
theorem filterMap_sign_append {lines : List Line} (hlines : ∀ line ∈ lines, line.role ≠ .tool) :
    (history ++ lines).filterMap Line.sign = history.filterMap Line.sign := by
  have hnone : lines.filterMap Line.sign = [] :=
    List.filterMap_eq_nil_iff.mpr fun line hline => sign_of_ne (hlines line hline)
  rw [List.filterMap_append, hnone, List.append_nil]

theorem filterMap_sign_modify {f : Line → Line} (hf : ∀ line, (f line).sign = line.sign) (i : ℕ) :
    (history.modify i f).filterMap Line.sign = history.filterMap Line.sign := by
  induction history generalizing i with
  | nil => rw [List.modify_nil]
  | cons line history ih =>
    cases i with
    | zero => rw [List.modify_zero_cons, List.filterMap_cons, List.filterMap_cons, hf]
    | succ i => rw [List.modify_succ_cons, List.filterMap_cons, List.filterMap_cons, ih]

/-- Every line may change. -/
theorem filterMap_sign_tagged {g : Line × Bool → Line} (hg : ∀ e, (g e).sign = e.1.sign) :
    ((tagged history).map g).filterMap Line.sign = history.filterMap Line.sign := by
  conv_rhs => rw [← map_fst_tagged history]
  rw [List.filterMap_map, List.filterMap_map]
  exact List.filterMap_congr fun e _ => hg e

end Lists

variable {fmt : Format} {r r' : Root}

theorem signs_modifyLine (r : Root) (i : ℕ) {f : Line → Line}
    (hf : ∀ line, (f line).sign = line.sign) : (r.modifyLine i f).signs = r.signs :=
  filterMap_sign_modify r.history hf i

theorem Notes.signs (h : Notes r r') : r'.signs = r.signs := by
  obtain ⟨lines, hlines, hhistory⟩ := h.history
  rw [Root.signs, hhistory]
  refine filterMap_sign_append r.history fun line hline => ?_
  rw [hlines line hline]
  exact Role.noConfusion

/-! ## The events -/

theorem signs_onChunk (r : Root) (agent text : Bytes) : (r.onChunk agent text).signs = r.signs := by
  cases hpending : r.getPendingAgentLine agent with
  | some idx =>
    rw [r.onChunk_open text hpending]
    exact signs_modifyLine r idx fun _ => rfl
  | none =>
    obtain ⟨key, -, heq⟩ := r.onChunk_new text hpending
    rw [heq]
    refine filterMap_sign_append r.history fun line hline => ?_
    rw [List.mem_singleton.mp hline]
    exact Role.noConfusion

theorem signs_onToolProgress (fmt : Format) (r : Root) (id chunk : Bytes) :
    (r.onToolProgress fmt id chunk).signs = r.signs := by
  rw [Root.onToolProgress]
  split
  · rename_i i hfind
    dsimp only
    split
    · rfl
    · exact signs_modifyLine r i fun line => sign_renderToolLine fmt _
  · rfl

/-- The end of a turn of an agent. -/
theorem Shaped.signs_onDone (h : Shaped fmt r) (markdown : Bytes → Option Bytes)
    (faults : List (Option DispatchFault)) (p : DonePayload) :
    (r.onDone fmt markdown faults p).1.signs = r.signs := by
  obtain ⟨r₁, hnotes, heq⟩ := h.onDone_eq markdown faults p
  rw [heq, ← hnotes.signs]
  show (r₁.renderAgentMarkdown markdown).history.filterMap Line.sign = _
  rw [history_renderAgentMarkdown]
  refine filterMap_sign_tagged r₁.history fun e => ?_
  split
  · exact sign_renderMarkdown markdown e.1
  · rfl

/-- **What an event does to the tool rows**, if the epoch of the widget is `epoch`: a call gets a
row unless it has one, and the row is closed when the call returns. -/
inductive Signed (epoch : UInt64) (signs : List Sign) : UserEvent → List Sign → Prop
  | kept (ue : UserEvent)
      (hdone : ∀ agent id name output isError,
        ue = .toolDone epoch agent id name output isError → ∀ s ∈ signs, s.toolId ≠ some id) :
      Signed epoch signs ue signs
  | opened (agent id name argsSummary : Bytes) (hnew : ∀ s ∈ signs, s.toolId ≠ some id) :
      Signed epoch signs (.toolStart epoch agent id name argsSummary)
        (signs ++ [⟨some agent, some id, .running⟩])
  | closed (agent id name output : Bytes) (isError : Bool) (before : List Sign) (s : Sign)
      (after : List Sign) (status : ToolStatus) (hstatus : status ≠ .running)
      (hid : s.toolId = some id) (hsigns : signs = before ++ s :: after) :
      Signed epoch signs (.toolDone epoch agent id name output isError)
        (before ++ ⟨s.speaker, none, status⟩ :: after)

/-- An event that is not the return of a call changes nothing. -/
theorem Signed.other {epoch : UInt64} {signs signs' : List Sign} {ue : UserEvent}
    (h : signs' = signs)
    (hue : ∀ agent id name output isError, ue ≠ .toolDone epoch agent id name output isError) :
    Signed epoch signs ue signs' := by
  rw [h]
  exact .kept ue fun agent id name output isError hdone =>
    absurd hdone (hue agent id name output isError)

/-- No row is found, so there is none. -/
theorem ne_of_findLast_eq_none {id : Bytes}
    (h : Root.findLast (Root.isToolRow id) r.history = none) :
    ∀ s ∈ r.signs, s.toolId ≠ some id := by
  intro s hs hid
  obtain ⟨line, hline, hsign⟩ := List.mem_filterMap.mp hs
  have hrow := findLast_eq_none h line hline
  rw [isToolRow_iff.mpr ⟨s, hsign, hid⟩] at hrow
  cases hrow

theorem Shaped.signed_onToolStart (h : Shaped fmt r) (epoch : UInt64) (now : ℤ)
    (agent id name argsSummary : Bytes) :
    Signed epoch r.signs (.toolStart epoch agent id name argsSummary)
      (r.onToolStart fmt now agent id name argsSummary).signs := by
  have hother : ∀ agent' id' name' output isError,
      UserEvent.toolStart epoch agent id name argsSummary ≠
        .toolDone epoch agent' id' name' output isError :=
    fun _ _ _ _ _ => UserEvent.noConfusion
  by_cases hon : r.toolOutputEnabled = true
  · cases hfind : Root.findLast (Root.isToolRow id) r.history with
    | some i =>
      rw [Root.onToolStart_again fmt now agent id name argsSummary hon hfind]
      refine .other (signs_modifyLine _ i fun line => ?_) hother
      rw [sign_renderToolLine]
      split <;> rfl
    | none =>
      rw [h.onToolStart_new now agent id name argsSummary hon hfind]
      have hsigns : (r.history ++ [newRow r.currentTurnId now agent id name argsSummary]).filterMap
          Line.sign = r.signs ++ [⟨some agent, some id, .running⟩] := List.filterMap_append
      show Signed epoch r.signs _ ((r.history ++ [_]).filterMap Line.sign)
      rw [hsigns]
      exact .opened agent id name argsSummary (ne_of_findLast_eq_none hfind)
  · rw [Root.onToolStart_off fmt now agent id name argsSummary (Bool.eq_false_iff.mpr hon)]
    exact .other rfl hother

theorem sign_finishTool (fmt : Format) (now : ℤ) (name output : Bytes) (isError : Bool)
    {line : Line} (hrole : line.role = .tool) :
    (Root.finishTool fmt now name output isError line).sign =
      some ⟨line.speaker, none, if isError then .err else .ok⟩ := by
  have hkeeps := keepsOwner_finishTool fmt now name output isError
  rw [sign_of_tool ((hkeeps.role line).trans hrole), hkeeps.speaker]
  rw [Root.finishTool, renderToolLine]

theorem signed_onToolDone (fmt : Format) (r : Root) (epoch : UInt64) (now : ℤ)
    (agent id name output : Bytes) (isError : Bool) :
    Signed epoch r.signs (.toolDone epoch agent id name output isError)
      (r.onToolDone fmt now agent id name output isError).signs := by
  cases hfind : Root.findLast (Root.isToolRow id) r.history with
  | none =>
    rw [Root.onToolDone_none fmt now agent id name output isError hfind]
    refine .kept _ fun agent' id' name' output' isError' hdone => ?_
    obtain ⟨-, -, rfl, -⟩ := UserEvent.toolDone.inj hdone
    exact ne_of_findLast_eq_none hfind
  | some i =>
    rw [Root.onToolDone_row fmt now agent id name output isError hfind]
    obtain ⟨before, line, after, hat, rfl⟩ := findLast_eq_some hfind
    obtain ⟨s, hsign, hid⟩ := isToolRow_iff.mp hat.holds
    have hrole : line.role = .tool := by
      by_contra hne
      rw [sign_of_ne hne] at hsign
      cases hsign
    have hold : r.signs = before.filterMap Line.sign ++ s :: after.filterMap Line.sign := by
      rw [Root.signs, hat.eq, List.filterMap_append, List.filterMap_cons, hsign]
    have hnew : (r.history.modify before.length
        (Root.finishTool fmt now name output isError)).filterMap Line.sign =
        before.filterMap Line.sign ++
          ⟨s.speaker, none, if isError then .err else .ok⟩ :: after.filterMap Line.sign := by
      rw [sign_of_tool hrole] at hsign
      obtain rfl := Option.some.inj hsign
      rw [hat.eq, LastMatch.modify_length, List.filterMap_append, List.filterMap_cons,
        sign_finishTool fmt now name output isError hrole]
    show Signed epoch r.signs _ ((r.history.modify _ _).filterMap Line.sign)
    rw [hnew]
    refine .closed agent id name output isError _ s _ _ ?_ hid hold
    split <;> exact ToolStatus.noConfusion

/-- **The handling of an event.** -/
theorem signed_handleUserEvent {host : Host} (h : Shaped host.toFormat r) (now : ℤ)
    (faults : List (Option DispatchFault)) (ue : UserEvent) :
    Signed r.turnEpoch r.signs ue (r.handleUserEvent host now faults ue).1.signs := by
  unfold Root.handleUserEvent
  split
  · rename_i hstale
    refine .kept ue fun agent id name output isError hdone => ?_
    rw [hdone, Root.dropStaleIfNeeded] at hstale
    simp [UserEvent.epoch] at hstale
  · rename_i hfresh
    have hepoch : ∀ epoch, ue.epoch = some epoch → epoch = r.turnEpoch := by
      intro epoch hue
      by_contra hne
      refine hfresh ?_
      rw [Root.dropStaleIfNeeded, hue]
      exact decide_eq_true hne
    cases ue with
    | toolStart epoch agent id name argsSummary =>
      obtain rfl := hepoch epoch rfl
      exact h.signed_onToolStart r.turnEpoch now agent id name argsSummary
    | toolDone epoch agent id name output isError =>
      obtain rfl := hepoch epoch rfl
      exact signed_onToolDone host.toFormat r r.turnEpoch now agent id name output isError
    | chunk epoch agent text =>
      exact .other (signs_onChunk r agent text) fun _ _ _ _ _ => UserEvent.noConfusion
    | toolProgress epoch agent id chunk =>
      exact .other (signs_onToolProgress host.toFormat r id chunk)
        fun _ _ _ _ _ => UserEvent.noConfusion
    | askUser epoch question =>
      exact .other ((Notes.appendLine r _).trans (.of_eq rfl rfl rfl rfl rfl)).signs
        fun _ _ _ _ _ => UserEvent.noConfusion
    | askUserCancel => exact .other rfl fun _ _ _ _ _ => UserEvent.noConfusion
    | usage epoch ctxUsed => exact .other rfl fun _ _ _ _ _ => UserEvent.noConfusion
    | error epoch message =>
      exact .other (Notes.appendLine r _).signs fun _ _ _ _ _ => UserEvent.noConfusion
    | done p =>
      exact .other (h.signs_onDone host.markdown faults p) fun _ _ _ _ _ => UserEvent.noConfusion
    | subturnTimeout epoch invoker target mentionIdx =>
      exact .other (Notes.onSubturnTimeout r target mentionIdx).signs
        fun _ _ _ _ _ => UserEvent.noConfusion

/-! ## The user -/

theorem signs_appendUserLine (r : Root) (text : Bytes) : (r.appendUserLine text).signs = r.signs :=
  filterMap_sign_append r.history fun line hline => by
    rw [List.mem_singleton.mp hline]
    exact Role.noConfusion

theorem signs_submitBody (r : Root) (now : ℤ) (spawnError : Option Bytes) (text : Bytes) :
    (r.submitBody now spawnError text).1.signs = r.signs := by
  rw [Root.submitBody]
  split
  · exact signs_appendUserLine r text
  · cases spawnError with
    | none => exact signs_appendUserLine r text
    | some errorName =>
      exact (Notes.appendLine (r.beginTurnWithEcho now (some errorName) text).1 _).signs.trans
        (signs_appendUserLine r text)

theorem signs_dispatchCommand (r : Root) (effect : CommandEffect) :
    (r.dispatchCommand effect).signs = r.signs := by
  have hlines : ∀ (lines : List Bytes) (self : Root),
      (lines.foldl (fun self line => self.appendLine .system line) self).signs = self.signs := by
    intro lines
    induction lines with
    | nil => exact fun _ => rfl
    | cons line lines ih => exact fun self => (ih _).trans (Notes.appendLine self line).signs
  exact hlines effect.lines r

/-- **A line of the user.** -/
theorem signs_onSubmit (host : Host) (r : Root) (now : ℤ) (spawnError : Option Bytes)
    (text : Bytes) : (r.onSubmit host now spawnError text).1.signs = r.signs := by
  rw [Root.onSubmit]
  split
  · rfl
  · split
    · exact signs_appendUserLine r text
    · split
      · exact signs_dispatchCommand r _
      · dsimp only
        split
        · exact signs_submitBody r now spawnError text
        · rename_i target htarget
          split
          · split
            · exact signs_appendUserLine (r.setActiveAgent target) text
            · exact signs_submitBody (r.setActiveAgent target) now spawnError text
          · exact (Notes.appendLine r _).signs

theorem signs_toggleAllToolExpand (fmt : Format) (r : Root) :
    (r.toggleAllToolExpand fmt).signs = r.signs := by
  show (r.history.map _).filterMap Line.sign = _
  rw [List.filterMap_map]
  refine List.filterMap_congr fun line _ => ?_
  show (if line.role = .tool ∧ line.toolName.isSome then _ else line).sign = line.sign
  split
  · exact sign_renderToolLine fmt _
  · rfl

end Tui
end TigerClaw
