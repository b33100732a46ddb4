import TigerClaw.Tui.Shares

/-!
# Streams side by side

The agents of a turn stream into one history.  Each has its own lines, which only its own events
change; but the pass at the end of a reply goes over all lines of the turn, those that other agents
are still writing to among them.

* `shown`: the texts of an agent; `Unmixed`: when the streams keep apart.
* `share_run`: what the events of all do to an agent's share is what its own do.
* `shown_of_unmixed`: hence the other streams might as well not be there.
-/

namespace TigerClaw
namespace Tui

/-- Whose stream the event belongs to. -/
def UserEvent.agent : UserEvent → Option Bytes
  | .chunk _ agent _ | .toolStart _ agent .. | .toolProgress _ agent .. | .toolDone _ agent .. =>
    some agent
  | .done p => some p.targetAgent
  | .askUser .. | .askUserCancel | .usage .. | .error .. | .subturnTimeout .. => none

/-- The tool call that the event is about. -/
def UserEvent.toolId : UserEvent → Option Bytes
  | .toolStart _ _ id .. | .toolProgress _ _ id _ | .toolDone _ _ id .. => some id
  | _ => none

/-- The agent whose reply is over. -/
def UserEvent.finished : UserEvent → Option Bytes
  | .done p => some p.targetAgent
  | _ => none

/-- An event, and when and with which faults it is handled. -/
structure Handling where
  now : ℤ
  faults : List (Option DispatchFault) := []
  event : UserEvent

namespace Root

def handle (host : Host) (self : Root) (h : Handling) : Root :=
  (self.handleUserEvent host h.now h.faults h.event).1

def handleAll (host : Host) (self : Root) (hs : List Handling) : Root :=
  hs.foldl (fun self h => self.handle host h) self

/-- The texts of the agent's lines. -/
def shown (agent : Bytes) (self : Root) : List Bytes :=
  (self.history.filter (isLineOf agent)).map Line.text

/-- The row that a tool event changes. -/
def rowOf (self : Root) : UserEvent → Option ℕ
  | .toolStart _ _ id .. =>
    if self.toolOutputEnabled then findLast (isToolRow id) self.history else none
  | .toolProgress _ _ id _ | .toolDone _ _ id .. => findLast (isToolRow id) self.history
  | _ => none

end Root

/-- An event of a stream, in the turn under way. -/
def OfTurn (r : Root) (h : Handling) : Prop :=
  h.event.agent.isSome ∧ h.event.epoch = some r.turnEpoch

/-! ## When the streams keep apart -/

/-- A tool event changes a row of its own agent, and at the end of a reply the pass has nothing to
do on the lines of other agents. -/
def Separate (host : Host) (r : Root) (h : Handling) : Prop :=
  (∀ i ∈ r.rowOf h.event, ∀ line ∈ r.history[i]?, line.speaker = h.event.agent) ∧
    ∀ agent ∈ h.event.finished, ∀ line ∈ r.turnLines, line.speaker ≠ some agent →
      Root.renderMarkdown host.markdown line = line

instance (r : Root) (h : Handling) : Decidable (OfTurn r h) := inferInstanceAs (Decidable (_ ∧ _))

instance (host : Host) (r : Root) (h : Handling) : Decidable (Separate host r h) :=
  inferInstanceAs (Decidable (_ ∧ _))

/-- No two agents have the same name but for case, no agent has an open row of an earlier turn under
an id that another uses, and the events are separate. -/
structure Unmixed (host : Host) (r : Root) (hs : List Handling) : Prop where
  distinct : ∀ h ∈ hs, ∀ h' ∈ hs, ∀ a ∈ h.event.agent, ∀ b ∈ h'.event.agent,
    eqlIgnoreCase a b = true → a = b
  leftovers : ∀ h ∈ hs, ∀ id ∈ h.event.toolId, ∀ line ∈ r.history,
    Root.isToolRow id line = true → line.speaker = h.event.agent
  separate : StepMachine.Along (fun r h => some (r.handle host h)) (Separate host) r hs

/-- What an event does to the share of its own agent. -/
def Share.handle (host : Host) (self : Share) (h : Handling) : Share :=
  match h.event with
  | .chunk _ agent text => self.onChunk agent text
  | .toolStart _ agent id name argsSummary =>
    self.onToolStart host.toFormat h.now agent id name argsSummary
  | .toolProgress _ _ id chunk => self.onToolProgress host.toFormat id chunk
  | .toolDone _ _ id name output isError =>
    self.onToolDone host.toFormat h.now id name output isError
  | .done _ => self.onDone host.markdown
  | .askUser .. | .askUserCancel | .usage .. | .error .. | .subturnTimeout .. => self

variable {A : Bytes → Prop} {r : Root} {a b : Bytes}

/-! ## One event after the other -/

/-- An event of the turn under way is handled. -/
theorem dropStaleIfNeeded_ofTurn {h : Handling} (hof : OfTurn r h) :
    ¬ r.dropStaleIfNeeded h.event = true := by
  rw [Root.dropStaleIfNeeded, hof.2]
  simp

theorem turnEpoch_handle (host : Host) (hs : Shaped host.toFormat r) {h : Handling}
    (hof : OfTurn r h) : (r.handle host h).turnEpoch = r.turnEpoch := by
  have hfresh := dropStaleIfNeeded_ofTurn hof
  obtain ⟨now, faults, event⟩ := h
  unfold Root.handle Root.handleUserEvent
  rw [if_neg hfresh]
  cases event with
  | chunk epoch agent text => exact congrArg Book.turnEpoch (Root.book_onChunk r agent text)
  | toolStart epoch agent id name argsSummary =>
    exact congrArg Book.turnEpoch (Root.book_onToolStart r _ now agent id name argsSummary)
  | toolProgress epoch agent id bytes =>
    exact congrArg Book.turnEpoch (Root.book_onToolProgress r _ id bytes)
  | toolDone epoch agent id name output isError =>
    exact congrArg Book.turnEpoch (Root.book_onToolDone r _ now agent id name output isError)
  | done p =>
    obtain ⟨r₁, hnotes, heq⟩ := hs.onDone_eq host.markdown faults p
    dsimp only
    rw [heq]
    exact hnotes.turnEpoch
  | askUser | askUserCancel | usage | error | subturnTimeout => cases hof.1

theorem streaming_handle (host : Host) (hA : Distinct A) (hs : Streaming host.toFormat A r)
    {h : Handling} (hof : OfTurn r h) (hb : ∀ b ∈ h.event.agent, A b) :
    Streaming host.toFormat A (r.handle host h) := by
  have hfresh := dropStaleIfNeeded_ofTurn hof
  obtain ⟨now, faults, event⟩ := h
  unfold Root.handle Root.handleUserEvent
  rw [if_neg hfresh]
  cases event with
  | chunk epoch agent text => exact hs.onChunk hA (hb agent rfl) text
  | toolStart epoch agent id name argsSummary => exact hs.onToolStart now id name argsSummary
  | toolProgress epoch agent id bytes => exact hs.onToolProgress id bytes
  | toolDone epoch agent id name output isError => exact hs.onToolDone now id name output isError
  | done p => exact hs.onDone host.markdown faults p
  | askUser | askUserCancel | usage | error | subturnTimeout => cases hof.1

/-- A tool event changes a row of its own agent. -/
def OwnRow (r : Root) (h : Handling) : Prop :=
  ∀ i ∈ r.rowOf h.event, ∀ line ∈ r.history[i]?, line.speaker = h.event.agent

/-- **An event of the agent itself.** -/
theorem share_handle_own (host : Host) (hs : Streaming host.toFormat A r) {h : Handling}
    (hof : OfTurn r h) (ha : A a) (hagent : h.event.agent = some a) (hrow : OwnRow r h) :
    (r.handle host h).share a = (r.share a).handle host h := by
  have hfresh := dropStaleIfNeeded_ofTurn hof
  obtain ⟨now, faults, event⟩ := h
  unfold Root.handle Root.handleUserEvent Share.handle
  rw [if_neg hfresh]
  cases event with
  | chunk epoch agent text =>
    obtain rfl := Option.some.inj hagent
    exact share_onChunk_own hs ha text
  | toolStart epoch agent id name argsSummary =>
    obtain rfl := Option.some.inj hagent
    refine share_onToolStart_own hs now id name argsSummary fun hon i hi => hrow i ?_
    rw [Root.rowOf, if_pos hon]
    exact hi
  | toolProgress epoch agent id bytes =>
    obtain rfl := Option.some.inj hagent
    exact share_onToolProgress_own id bytes hrow
  | toolDone epoch agent id name output isError =>
    obtain rfl := Option.some.inj hagent
    exact share_onToolDone_own now id name output isError hrow
  | done p =>
    obtain rfl := Option.some.inj hagent
    exact share_onDone_own hs host.markdown faults p
  | askUser | askUserCancel | usage | error | subturnTimeout => cases hof.1

/-- **An event of another agent.** -/
theorem share_handle_other (host : Host) (hA : Distinct A) (hs : Streaming host.toFormat A r)
    {h : Handling} (hof : OfTurn r h) (ha : A a) (hb : A b) (hagent : h.event.agent = some b)
    (hne : a ≠ b) (hseparate : Separate host r h) : (r.handle host h).share a = r.share a := by
  have hfresh := dropStaleIfNeeded_ofTurn hof
  obtain ⟨hrow, hturn⟩ := hseparate
  obtain ⟨now, faults, event⟩ := h
  unfold Root.handle Root.handleUserEvent
  rw [if_neg hfresh]
  cases event with
  | chunk epoch agent text =>
    obtain rfl := Option.some.inj hagent
    exact share_onChunk_other hA hs ha hb hne text
  | toolStart epoch agent id name argsSummary =>
    obtain rfl := Option.some.inj hagent
    refine share_onToolStart_other hA hs ha hb hne now id name argsSummary fun hon i hi =>
      hrow i ?_
    rw [Root.rowOf, if_pos hon]
    exact hi
  | toolProgress epoch agent id bytes =>
    obtain rfl := Option.some.inj hagent
    exact share_onToolProgress_other hne id bytes hrow
  | toolDone epoch agent id name output isError =>
    obtain rfl := Option.some.inj hagent
    exact share_onToolDone_other hA ha hb hne now id name output isError hrow
  | done p =>
    obtain rfl := Option.some.inj hagent
    refine share_onDone_other hA hs ha host.markdown faults p hb hne fun line hline hspeaker => ?_
    refine hturn p.targetAgent rfl line hline ?_
    rw [hspeaker]
    exact fun hsame => hne (Option.some.inj hsame)
  | askUser | askUserCancel | usage | error | subturnTimeout => cases hof.1

/-- A step of the widget, and what an agent needs of it: its own rows are its own, and others are
separate. -/
def Apart (host : Host) (a : Bytes) (r : Root) (h : Handling) : Prop :=
  OwnRow r h ∧ (h.event.agent ≠ some a → Separate host r h)

/-- **What all events do to an agent's share is what its own do.** -/
theorem share_run (host : Host) (hA : Distinct A) (ha : A a) {hs : List Handling}
    (hstream : Streaming host.toFormat A r) (hof : ∀ h ∈ hs, OfTurn r h)
    (hagents : ∀ h ∈ hs, ∀ b ∈ h.event.agent, A b)
    (hapart : StepMachine.Along (fun r h => some (r.handle host h)) (Apart host a) r hs) :
    (r.handleAll host hs).share a =
      (hs.filter fun h => h.event.agent = some a).foldl (Share.handle host) (r.share a) := by
  induction hs generalizing r with
  | nil => rfl
  | cons h hs ih =>
    obtain ⟨⟨hrow, hseparate⟩, hrest⟩ := hapart
    have hofh := hof h List.mem_cons_self
    have hagent := hagents h List.mem_cons_self
    have hepoch := turnEpoch_handle host hstream.shaped hofh
    have hnext := ih (streaming_handle host hA hstream hofh hagent)
      (fun k hk => ⟨(hof k (List.mem_cons_of_mem h hk)).1,
        (hof k (List.mem_cons_of_mem h hk)).2.trans (congrArg some hepoch.symm)⟩)
      (fun k hk => hagents k (List.mem_cons_of_mem h hk)) (hrest _ rfl)
    rw [Root.handleAll, List.foldl_cons]
    refine hnext.trans ?_
    by_cases hown : h.event.agent = some a
    · rw [List.filter_cons_of_pos (by simpa using hown), List.foldl_cons,
        share_handle_own host hstream hofh ha hown hrow]
    · obtain ⟨b, hb⟩ := Option.isSome_iff_exists.mp hofh.1
      have hne : a ≠ b := fun hsame => hown (hsame ▸ hb)
      rw [List.filter_cons_of_neg (by simpa using hown),
        share_handle_other host hA hstream hofh ha (hagent b hb) hb hne (hseparate hown)]

/-! ## The rows of a stream by itself -/

/-- Every open row under one of the ids is the agent's. -/
def Owned (ids : Bytes → Prop) (a : Bytes) (history : List Line) : Prop :=
  ∀ line ∈ history, ∀ id, ids id → Root.isToolRow id line = true → line.speaker = some a

variable {ids : Bytes → Prop} {history : List Line}

theorem Owned.append (h : Owned ids a history) {lines : List Line}
    (hlines : ∀ line ∈ lines, ∀ id, Root.isToolRow id line = true → line.speaker = some a) :
    Owned ids a (history ++ lines) := by
  intro line hline id hid hrow
  rcases List.mem_append.mp hline with hline | hline
  · exact h line hline id hid hrow
  · exact hlines line hline id hrow

theorem Owned.modify (h : Owned ids a history) (i : ℕ) {f : Line → Line} (hf : KeepsOwner f)
    (htool : ∀ line id, Root.isToolRow id (f line) = true → Root.isToolRow id line = true) :
    Owned ids a (history.modify i f) := by
  intro line hline id hid hrow
  obtain ⟨j, hj⟩ := List.mem_iff_getElem?.mp hline
  rw [List.getElem?_modify] at hj
  obtain ⟨old, hold, hchange⟩ := Option.map_eq_some_iff.mp hj
  split at hchange
  · rw [← hchange] at hrow ⊢
    exact (hf.speaker old).trans (h old (List.mem_of_getElem? hold) id hid (htool old id hrow))
  · rw [← hchange] at hrow ⊢
    exact h old (List.mem_of_getElem? hold) id hid hrow

theorem isToolRow_render (fmt : Format) (f : Line → Line)
    (hrole : ∀ line, (f line).role = line.role) (htool : ∀ line, (f line).toolId = line.toolId)
    (line : Line) (id : Bytes)
    (h : Root.isToolRow id (renderToolLine fmt (f line)) = true) :
    Root.isToolRow id line = true := by
  rw [Root.isToolRow, renderToolLine_role, renderToolLine_toolId, hrole, htool] at h
  exact h

theorem owned_handle (host : Host) (hs : Shaped host.toFormat r) (h : Owned ids a r.history)
    {k : Handling} (hof : OfTurn r k) (hagent : k.event.agent = some a) :
    Owned ids a (r.handle host k).history := by
  have hfresh := dropStaleIfNeeded_ofTurn hof
  obtain ⟨now, faults, event⟩ := k
  unfold Root.handle Root.handleUserEvent
  rw [if_neg hfresh]
  cases event with
  | chunk epoch agent text =>
    dsimp only
    cases hpending : r.getPendingAgentLine agent with
    | some idx =>
      rw [r.onChunk_open text hpending]
      exact h.modify idx (keepsOwner_chunk text) fun _ _ hrow => hrow
    | none =>
      obtain ⟨key, -, heq⟩ := r.onChunk_new text hpending
      rw [heq]
      refine h.append fun line hline id hrow => ?_
      rw [List.mem_singleton.mp hline] at hrow
      cases hrow
  | toolStart epoch agent id name argsSummary =>
    obtain rfl := Option.some.inj hagent
    dsimp only
    by_cases hon : r.toolOutputEnabled = true
    · cases hfind : Root.findLast (Root.isToolRow id) r.history with
      | some i =>
        have hf := keepsOwner_args argsSummary
        rw [Root.onToolStart_again _ now agent id name argsSummary hon hfind]
        refine h.modify i (keepsOwner_render _ hf) (isToolRow_render _ _ hf.role fun line => ?_)
        split <;> rfl
      | none =>
        rw [hs.onToolStart_new now agent id name argsSummary hon hfind]
        refine h.append fun line hline _ _ => ?_
        rw [List.mem_singleton.mp hline]
        rfl
    · rw [Root.onToolStart_off _ now agent id name argsSummary (Bool.eq_false_iff.mpr hon)]
      exact h
  | toolProgress epoch agent id bytes =>
    dsimp only
    rw [Root.onToolProgress]
    cases Root.findLast (Root.isToolRow id) r.history with
    | some i =>
      dsimp only
      split
      · exact h
      · exact h.modify i (keepsOwner_tail _ _)
          (isToolRow_render _ _ (fun _ => rfl) fun _ => rfl)
    | none => exact h
  | toolDone epoch agent id name output isError =>
    dsimp only
    cases hfind : Root.findLast (Root.isToolRow id) r.history with
    | some i =>
      rw [Root.onToolDone_row _ now agent id name output isError hfind]
      refine h.modify i (keepsOwner_finishTool _ now name output isError) fun line other hrow => ?_
      simp [Root.isToolRow, Root.finishTool] at hrow
    | none =>
      rw [Root.onToolDone_none _ now agent id name output isError hfind]
      exact h
  | done p =>
    obtain ⟨r₁, hnotes, heq⟩ := hs.onDone_eq host.markdown faults p
    obtain ⟨lines, hlines, hhistory⟩ := hnotes.history
    have howned : Owned ids a r₁.history := by
      rw [hhistory]
      refine h.append fun line hline id hrow => ?_
      simp [Root.isToolRow, hlines line hline] at hrow
    dsimp only
    rw [heq]
    show Owned ids a (r₁.renderAgentMarkdown host.markdown).history
    rw [history_renderAgentMarkdown]
    intro line hline id hid hrow
    obtain ⟨e, he, rfl⟩ := List.mem_map.mp hline
    have hmem : e.1 ∈ r₁.history := by
      rw [← map_fst_tagged r₁.history]
      exact List.mem_map_of_mem he
    have hrole : e.1.role ≠ .agent := by
      intro hrole
      have hstill : (Share.renderTurnLine host.markdown e).role = .agent :=
        (renderTurnLine_role host.markdown e).trans hrole
      have hrow : Root.isToolRow id (Share.renderTurnLine host.markdown e) = true := hrow
      simp [Root.isToolRow, hstill] at hrow
    have hsame : Share.renderTurnLine host.markdown e = e.1 := by
      rw [Share.renderTurnLine, renderMarkdown_of_ne host.markdown hrole]
      split <;> rfl
    have hsame : (if e.2 = true then Root.renderMarkdown host.markdown e.1 else e.1) = e.1 := hsame
    rw [hsame] at hrow ⊢
    exact howned e.1 hmem id hid hrow
  | askUser | askUserCancel | usage | error | subturnTimeout => cases hof.1

/-- A tool event finds a row of its own agent. -/
theorem Owned.ownRow (h : Owned ids a r.history) {k : Handling} (hagent : k.event.agent = some a)
    (hids : ∀ id ∈ k.event.toolId, ids id) : OwnRow r k := by
  have hfound : ∀ id, ids id → ∀ i ∈ Root.findLast (Root.isToolRow id) r.history,
      ∀ line ∈ r.history[i]?, line.speaker = k.event.agent := by
    intro id hid i hi line hline
    obtain ⟨before, row, after, hat, rfl⟩ := findLast_eq_some hi
    rw [hat.eq, LastMatch.getElem?_length] at hline
    obtain rfl := Option.some.inj hline
    rw [hagent]
    exact h row (hat.eq ▸ List.mem_append_right _ List.mem_cons_self) id hid hat.holds
  obtain ⟨now, faults, event⟩ := k
  intro i hi
  cases event with
  | toolStart epoch agent id name argsSummary =>
    rw [Root.rowOf] at hi
    split at hi
    · exact hfound id (hids id rfl) i hi
    · cases hi
  | toolProgress epoch agent id bytes => exact hfound id (hids id rfl) i hi
  | toolDone epoch agent id name output isError => exact hfound id (hids id rfl) i hi
  | chunk | done | askUser | askUserCancel | usage | error | subturnTimeout => cases hi

/-- **The stream of an agent by itself.** -/
theorem apart_own (host : Host) {hs : List Handling} (hshaped : Shaped host.toFormat r)
    (howned : Owned ids a r.history) (hof : ∀ h ∈ hs, OfTurn r h)
    (hagent : ∀ h ∈ hs, h.event.agent = some a) (hids : ∀ h ∈ hs, ∀ id ∈ h.event.toolId, ids id) :
    StepMachine.Along (fun r h => some (r.handle host h)) (Apart host a) r hs := by
  have halong : StepMachine.Along (fun r h => some (r.handle host h))
      (fun _ h => h.event.agent = some a ∧ (∀ id ∈ h.event.toolId, ids id) ∧
        h.event.epoch = some r.turnEpoch) r hs :=
    StepMachine.along_of_forall fun h hh _ => ⟨hagent h hh, hids h hh, (hof h hh).2⟩
  refine StepMachine.along_imp (I := fun s : Root => Shaped host.toFormat s ∧
    Owned ids a s.history ∧ s.turnEpoch = r.turnEpoch) ?_ ?_ ⟨hshaped, howned, rfl⟩ halong
  · rintro s h s' ⟨hs, ho, hepoch⟩ ⟨hh, -, hturn⟩ hstep
    obtain rfl := Option.some.inj hstep
    have hofs : OfTurn s h := ⟨Option.isSome_of_eq_some hh, hturn.trans (congrArg some hepoch.symm)⟩
    exact ⟨shaped_handleUserEvent hs h.now h.faults h.event, owned_handle host hs ho hofs hh,
      (turnEpoch_handle host hs hofs).trans hepoch⟩
  · rintro s h ⟨-, ho, -⟩ ⟨hh, hid, -⟩
    exact ⟨ho.ownRow hh hid, fun hne => absurd hh hne⟩

namespace Chat

/-- **The streams of a turn are independent of one another**, if they keep apart: an agent's lines
are those that its own events make, whatever the other agents do in between. -/
theorem shown_of_unmixed (host : Host) (agentNames : List Bytes) (sessionId userName : Bytes)
    (maxCalls : UInt8) (timeoutSecs : UInt32) {history : List Line}
    (hhistory : ∀ line ∈ history, line.role ≠ .tool) {as : List Action} {w : World}
    (hrun : StepMachine.run (step host)
      (start agentNames sessionId userName maxCalls timeoutSecs history) as = some w)
    (now : ℤ) (spawnError : Option Bytes) (echo : Bytes) {hs : List Handling}
    (hof : ∀ h ∈ hs, OfTurn (w.root.beginTurnWithEcho now spawnError echo).1 h)
    (hunmixed : Unmixed host (w.root.beginTurnWithEcho now spawnError echo).1 hs) (a : Bytes)
    (ha : ∃ h ∈ hs, h.event.agent = some a) :
    ((w.root.beginTurnWithEcho now spawnError echo).1.handleAll host hs).shown a =
      ((w.root.beginTurnWithEcho now spawnError echo).1.handleAll host
        (hs.filter fun h => h.event.agent = some a)).shown a := by
  have hshaped := (shaped_run host agentNames sessionId userName maxCalls timeoutSecs hhistory
    hrun).beginTurnWithEcho now spawnError echo
  have hclosed : (w.root.beginTurnWithEcho now spawnError echo).1.pendingAgentLines = [] := by
    cases spawnError <;> rfl
  generalize (w.root.beginTurnWithEcho now spawnError echo).1 = r at hof hunmixed hshaped hclosed ⊢
  obtain ⟨hdistinct, hleftovers, hseparate⟩ := hunmixed
  let A : Bytes → Prop := fun c => ∃ h ∈ hs, h.event.agent = some c
  let ids : Bytes → Prop := fun id => ∃ h ∈ hs, h.event.agent = some a ∧ h.event.toolId = some id
  have hA : Distinct A := by
    rintro c d ⟨h, hh, hc⟩ ⟨k, hk, hd⟩
    exact hdistinct h hh k hk c hc d hd
  have hstream : Streaming host.toFormat A r := by
    refine ⟨hshaped, fun c _ i hi => ?_⟩
    rw [Root.getPendingAgentLine, hclosed] at hi
    cases hi
  have howned : Owned ids a r.history := by
    rintro line hline id ⟨h, hh, hagent, hid⟩ hrow
    rw [← hagent]
    exact hleftovers h hh id hid line hline hrow
  -- the streams together
  have hall := share_run host hA ha hstream hof (fun h hh b hb => ⟨h, hh, hb⟩)
    (StepMachine.along_imp (I := fun _ => True) (fun _ _ _ _ _ _ => trivial)
      (fun s h _ hh => ⟨hh.1, fun _ => hh⟩) trivial hseparate)
  -- the stream of the agent by itself
  have hsub : ∀ h ∈ hs.filter fun h => h.event.agent = some a, h ∈ hs ∧ h.event.agent = some a :=
    fun h hh => ⟨(List.mem_filter.mp hh).1, of_decide_eq_true (List.mem_filter.mp hh).2⟩
  have hself := share_run host hA ha hstream (fun h hh => hof h (hsub h hh).1)
    (fun h hh b hb => ⟨h, (hsub h hh).1, hb⟩)
    (apart_own host hshaped howned (fun h hh => hof h (hsub h hh).1) (fun h hh => (hsub h hh).2)
      fun h hh id hid => ⟨h, (hsub h hh).1, (hsub h hh).2, hid⟩)
  rw [List.filter_filter] at hself
  simp only [Bool.and_self] at hself
  have hlines := congrArg Share.lines (hall.trans hself.symm)
  have hlines : linesOf a (r.handleAll host hs).history = linesOf a (r.handleAll host _).history :=
    hlines
  rw [Root.shown, Root.shown, texts_linesOf, texts_linesOf, hlines]

/-- A parser that knows of one text in bold. -/
def boldHost : Host where
  seconds _ := []
  markdown text :=
    some (if text = ascii "hello **world** now" then ascii "hello world now" else text)
  command _ _ := {}

/-- The completion of an agent in the first turn. -/
def completes (agent : Bytes) : UserEvent :=
  .done (donePayload { sessionId := agent, epoch := 1, serial := 0, turn := 1 } [])

/-- An agent writes while another one runs a tool, and is done before that one writes. -/
def tookTurns : List Handling :=
  [⟨1, [], .chunk 1 (ascii "a") (ascii "hello **wor")⟩,
    ⟨2, [], .toolStart 1 (ascii "b") (ascii "t1") (ascii "bash") (ascii "ls")⟩,
    ⟨2, [], .chunk 1 (ascii "a") (ascii "ld** now")⟩,
    ⟨2, [], .toolDone 1 (ascii "b") (ascii "t1") (ascii "bash") (ascii "x") false⟩,
    ⟨5, [], completes (ascii "a")⟩, ⟨6, [], .chunk 1 (ascii "b") (ascii "bye")⟩,
    ⟨7, [], completes (ascii "b")⟩]

theorem shown_tookTurns : ∃ w, StepMachine.run (step boldHost)
      (start [ascii "a", ascii "b"] (ascii "a") [] 8 0 []) [] = some w ∧
    ((w.root.beginTurnWithEcho 1 none (ascii "hi")).1.handleAll boldHost tookTurns).shown
        (ascii "a") = [ascii "hello world now"] ∧
    ((w.root.beginTurnWithEcho 1 none (ascii "hi")).1.handleAll boldHost tookTurns).shown
        (ascii "a") =
      ((w.root.beginTurnWithEcho 1 none (ascii "hi")).1.handleAll boldHost
        (tookTurns.filter fun h => h.event.agent = some (ascii "a"))).shown (ascii "a") := by
  refine ⟨_, rfl, by decide, ?_⟩
  have hhistory : ∀ line ∈ ([] : List Line), line.role ≠ .tool := fun _ hline => nomatch hline
  have hrun : StepMachine.run (step boldHost)
      (start [ascii "a", ascii "b"] (ascii "a") [] 8 0 []) [] =
    some (start [ascii "a", ascii "b"] (ascii "a") [] 8 0 []) := rfl
  refine shown_of_unmixed boldHost [ascii "a", ascii "b"] (ascii "a") [] 8 0
    hhistory hrun 1 none (ascii "hi") ?_ ⟨?_, ?_, ?_⟩ (ascii "a") ?_
  · decide
  · decide
  · decide
  · decide
  · decide

/-- An agent is done while another one is in the middle of a word in bold. -/
def cutShort : List Handling :=
  [⟨1, [], .chunk 1 (ascii "b") (ascii "hello **wor")⟩, ⟨2, [], completes (ascii "a")⟩,
    ⟨3, [], .chunk 1 (ascii "b") (ascii "ld** now")⟩, ⟨4, [], completes (ascii "b")⟩]

theorem not_shown_cutShort : ∃ w, StepMachine.run (step boldHost)
      (start [ascii "a", ascii "b"] (ascii "a") [] 8 0 []) [] = some w ∧
    (∀ h ∈ cutShort, OfTurn (w.root.beginTurnWithEcho 1 none (ascii "hi")).1 h) ∧
    ((w.root.beginTurnWithEcho 1 none (ascii "hi")).1.handleAll boldHost cutShort).shown
        (ascii "b") = [ascii "hello **world** now"] ∧
    ((w.root.beginTurnWithEcho 1 none (ascii "hi")).1.handleAll boldHost
        (cutShort.filter fun h => h.event.agent = some (ascii "b"))).shown (ascii "b") =
      [ascii "hello world now"] ∧
    ((w.root.beginTurnWithEcho 1 none (ascii "hi")).1.handleAll boldHost cutShort).shown
        (ascii "b") ≠
      ((w.root.beginTurnWithEcho 1 none (ascii "hi")).1.handleAll boldHost
        (cutShort.filter fun h => h.event.agent = some (ascii "b"))).shown (ascii "b") := by
  refine ⟨_, rfl, ?_, ?_, ?_, ?_⟩
  · decide
  · decide
  · decide
  · decide

end Chat
end Tui
end TigerClaw
