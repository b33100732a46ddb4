import TigerClaw.Tui.Signs
import TigerClaw.Tui.StaleEvents
import TigerClaw.Tui.Subturns

/-!
# Who is busy

The bar above the input lists the agents that work: those with a tool row that is running, and those
with a sub-turn in flight.  A row is closed when its call returns.  But the return of a call that
outlives its turn is dropped, so that its row runs for good; and so does the slot of a sub-turn
whose thread does not start.

* `upperStatusEntries`: the entries of the bar.
* `Ledger`: the calls and sub-turns that have been started and have not come to their end.
* `Orderly`: no turn begins while a tool row is running, and a slot gets its worker.
* `works_of_orderly`: whoever is listed works, in an orderly run.
-/

namespace TigerClaw
namespace Tui

structure StatusEntry where
  agent : Bytes
  verb : Bytes
  target : Bytes
  deriving DecidableEq

def verbs : List (String × String) :=
  [("bash", "running"), ("read_file", "reading"), ("write_file", "writing"),
    ("edit_file", "editing"), ("list_files", "listing"), ("glob", "searching"),
    ("grep", "grepping"), ("web_search", "searching"), ("fetch_url", "fetching"),
    ("ask_user", "asking"), ("use_skill", "skill")]

/-- A tool that is not in the table is called by its name. -/
def verbFor (toolName : Bytes) : Bytes :=
  match verbs.find? fun entry => ascii entry.1 = toolName with
  | some entry => ascii entry.2
  | none => toolName

/-- The entry of a tool row, if it is running. -/
def Line.statusEntry (line : Line) : Option StatusEntry :=
  if line.role ≠ .tool then none
  else if line.toolStatus ≠ .running then none
  else
    match line.toolName, line.speaker with
    | some name, some speaker =>
      some { agent := speaker, verb := verbFor name, target := line.toolArgs.getD [] }
    | _, _ => none

/-- The entry of a slot, unless its agent has one. -/
def addSlotEntry (collected : List StatusEntry) (slot : SubturnSlot) : List StatusEntry :=
  if slot.state ≠ .inFlight then collected
  else if collected.any (·.agent == slot.target) then collected
  else collected ++ [{ agent := slot.target, verb := ascii "thinking", target := [] }]

def Root.upperStatusEntries (self : Root) : List StatusEntry :=
  self.subturnSlots.foldl addSlotEntry (self.history.filterMap Line.statusEntry)

/-- Whoever is listed has a tool row that is running, or a slot in flight. -/
theorem mem_upperStatusEntries {r : Root} {entry : StatusEntry}
    (h : entry ∈ r.upperStatusEntries) :
    (∃ s ∈ r.signs, s.toolStatus = .running ∧ s.speaker = some entry.agent) ∨
      ∃ slot ∈ r.subturnSlots, slot.state = .inFlight ∧ slot.target = entry.agent := by
  have hslots : ∀ (slots : List SubturnSlot) (collected : List StatusEntry),
      entry ∈ slots.foldl addSlotEntry collected → entry ∈ collected ∨
        ∃ slot ∈ slots, slot.state = .inFlight ∧ slot.target = entry.agent := by
    intro slots
    induction slots with
    | nil => exact fun _ hentry => .inl hentry
    | cons slot slots ih =>
      intro collected hentry
      rcases ih _ hentry with hentry | ⟨other, hother, hslot⟩
      · rw [addSlotEntry] at hentry
        split at hentry
        · exact .inl hentry
        · rename_i hstate
          split at hentry
          · exact .inl hentry
          · rcases List.mem_append.mp hentry with hentry | hentry
            · exact .inl hentry
            · rw [List.mem_singleton.mp hentry]
              exact .inr ⟨slot, List.mem_cons_self, not_not.mp hstate, rfl⟩
      · exact .inr ⟨other, List.mem_cons_of_mem slot hother, hslot⟩
  rcases hslots _ _ h with hentry | hslot
  · obtain ⟨line, hline, hsome⟩ := List.mem_filterMap.mp hentry
    rw [Line.statusEntry] at hsome
    split at hsome
    · cases hsome
    · rename_i hrole
      split at hsome
      · cases hsome
      · rename_i hstatus
        split at hsome
        · rename_i name speaker hname hspeaker
          obtain rfl := Option.some.inj hsome
          refine .inl ⟨⟨line.speaker, line.toolId, line.toolStatus⟩, ?_, not_not.mp hstatus,
            hspeaker⟩
          exact List.mem_filterMap.mpr ⟨line, hline, sign_of_tool (not_not.mp hrole)⟩
        · cases hsome
  · exact .inr hslot

/-- Whether a line of the user begins a turn: it is no reply to a question, no command and no mere
switch to another agent, and no turn is under way. -/
def Root.BeginsTurn (self : Root) (text : Bytes) : Prop :=
  text ≠ [] ∧ self.askUserPending = false ∧ text.head? ≠ some 0x2F ∧ self.pending = false ∧
    ∀ target ∈ (Mention.parse text).target,
      self.knowsAgent target = true ∧ (Mention.parse text).body ≠ []

instance (self : Root) (text : Bytes) : Decidable (self.BeginsTurn text) :=
  inferInstanceAs (Decidable (_ ∧ _))

/-- Other lines do not change the epoch. -/
theorem turnEpoch_onSubmit {host : Host} {r : Root} {text : Bytes} (h : ¬ r.BeginsTurn text)
    (now : ℤ) (spawnError : Option Bytes) :
    (r.onSubmit host now spawnError text).1.turnEpoch = r.turnEpoch := by
  rw [Root.onSubmit]
  split
  · rfl
  · rename_i htext
    split
    · rfl
    · rename_i hasking
      split
      · exact congrArg Book.turnEpoch (Root.book_dispatchCommand r _)
      · rename_i hslash
        have hpending : (∀ target ∈ (Mention.parse text).target,
            r.knowsAgent target = true ∧ (Mention.parse text).body ≠ []) → r.pending = true := by
          intro hmention
          by_contra hpending
          exact h ⟨htext, Bool.eq_false_iff.mpr hasking, hslash, Bool.eq_false_iff.mpr hpending,
            hmention⟩
        dsimp only
        split
        · rename_i hnone
          have hbusy := hpending fun target htarget => by
            rw [hnone] at htarget
            cases htarget
          rw [Root.submitBody, if_pos hbusy]
          rfl
        · rename_i target htarget
          split
          · rename_i hknown
            split
            · rfl
            · rename_i hbody
              have hbusy := hpending fun other hother => by
                obtain rfl := Option.some.inj (htarget.symm.trans hother)
                exact ⟨hknown, hbody⟩
              have hbusy : (r.setActiveAgent target).pending = true := hbusy
              rw [Root.submitBody, if_pos hbusy]
              rfl
          · rfl

namespace Chat

/-! ## What has been started, and what has come to its end -/

structure ToolCall where
  epoch : UInt64
  agent : Bytes
  id : Bytes
  deriving DecidableEq

/-- The calls and the sub-turns under way, as far as the events tell that have been delivered. -/
structure Ledger where
  calls : List ToolCall := []
  subturns : List WorkerCtx := []
  deriving DecidableEq

/-- A call starts and returns; a sub-turn is done, or its time is over. -/
def Ledger.deliver (self : Ledger) (posted : Posted) : Ledger :=
  match posted.event with
  | .toolStart epoch agent id _ _ => { self with calls := self.calls ++ [⟨epoch, agent, id⟩] }
  | .toolDone epoch agent id _ _ _ =>
    { self with calls := self.calls.filter (· ≠ ⟨epoch, agent, id⟩) }
  | .done _ | .subturnTimeout .. => { self with subturns := self.subturns.erase posted.ctx }
  | .chunk .. | .toolProgress .. | .askUser .. | .askUserCancel | .usage .. | .error .. => self

/-- The workers that are there after the step and were not before it are those of sub-turns. -/
def Ledger.note (self : Ledger) (w w' : World) : Action → Ledger
  | .handle .. =>
    match w.queue with
    | [] => self
    | posted :: _ =>
      let self := self.deliver posted
      { self with subturns := self.subturns ++ w'.workers.drop w.workers.length }
  | .submit .. | .escape | .toggle | .post .. | .finish .. | .takeReply _ | .expire _ => self

/-- A step, with the ledger. -/
def stepNoted (host : Host) (s : World × Ledger) (a : Action) : Option (World × Ledger) :=
  (step host s.1 a).map fun w' => (w', s.2.note s.1 w' a)

/-- The ledger is kept beside the run. -/
theorem run_stepNoted (host : Host) (s : World × Ledger) (as : List Action) :
    (StepMachine.run (stepNoted host) s as).map Prod.fst =
      StepMachine.run (step host) s.1 as := by
  induction as generalizing s with
  | nil => rfl
  | cons a as ih =>
    rw [StepMachine.run_cons, StepMachine.run_cons, stepNoted]
    cases step host s.1 a with
    | none => rfl
    | some w' => exact ih (w', s.2.note s.1 w' a)

/-- **The agent works**: it has a call or a sub-turn of the epoch under way. -/
def Ledger.Works (self : Ledger) (epoch : UInt64) (agent : Bytes) : Prop :=
  (∃ call ∈ self.calls, call.epoch = epoch ∧ call.agent = agent) ∨
    ∃ ctx ∈ self.subturns, ctx.epoch = epoch ∧ ctx.sessionId = agent

instance (self : Ledger) (epoch : UInt64) (agent : Bytes) : Decidable (self.Works epoch agent) :=
  inferInstanceAs (Decidable (_ ∨ _))

/-- No turn begins while a tool row is running, and a mention that is dispatched gets its worker. -/
def Orderly (w : World) : Action → Prop
  | .submit _ _ text => w.root.BeginsTurn text → ∀ s ∈ w.root.signs, s.toolStatus ≠ .running
  | .handle _ faults =>
    ∀ p ∈ w.queue.head?.bind Posted.completion, Scans w.root.book p →
      ∀ entry ∈ w.root.book.plan p, faults[entry.2]?.join.all (!·.orphans)
  | _ => True

instance (w : World) : ∀ a, Decidable (Orderly w a)
  | .submit _ _ text => inferInstanceAs (Decidable
      (w.root.BeginsTurn text → ∀ s ∈ w.root.signs, s.toolStatus ≠ .running))
  | .handle _ faults => inferInstanceAs (Decidable
      (∀ p ∈ w.queue.head?.bind Posted.completion, Scans w.root.book p →
        ∀ entry ∈ w.root.book.plan p, faults[entry.2]?.join.all (!·.orphans)))
  | .escape | .toggle | .post .. | .finish .. | .takeReply _ | .expire _ => isTrue trivial

/-! ## The calls -/

/-- Every row that is running waits for a call of the epoch, and no two rows for one id. -/
structure Awaited (epoch : UInt64) (calls : List ToolCall) (signs : List Sign) : Prop where
  running : ∀ s ∈ signs, s.toolStatus = .running → ∃ agent id,
    s.speaker = some agent ∧ s.toolId = some id ∧ (⟨epoch, agent, id⟩ : ToolCall) ∈ calls
  distinct : (signs.filterMap Sign.toolId).Nodup

variable {epoch : UInt64} {signs signs' : List Sign} {ledger : Ledger}

theorem Awaited.deliver (h : Awaited epoch ledger.calls signs) {posted : Posted}
    (hsigned : Signed epoch signs posted.event signs') :
    Awaited epoch (ledger.deliver posted).calls signs' := by
  obtain ⟨event, ctx⟩ := posted
  cases hsigned with
  | kept _ hdone =>
    refine ⟨fun s hs hrunning => ?_, h.distinct⟩
    obtain ⟨agent, id, hspeaker, hid, hcall⟩ := h.running s hs hrunning
    refine ⟨agent, id, hspeaker, hid, ?_⟩
    cases event with
    | toolStart => exact List.mem_append_left _ hcall
    | toolDone other agent' id' name output isError =>
      refine List.mem_filter.mpr ⟨hcall, decide_eq_true fun heq => ?_⟩
      -- the call that has returned had no row
      obtain ⟨rfl, rfl, rfl⟩ := ToolCall.mk.inj heq
      exact hdone agent id name output isError rfl s hs hid
    | _ => exact hcall
  | opened agent id name argsSummary hnew =>
    refine ⟨fun s hs hrunning => ?_, ?_⟩
    · rcases List.mem_append.mp hs with hs | hs
      · obtain ⟨agent', id', hspeaker, hid, hcall⟩ := h.running s hs hrunning
        exact ⟨agent', id', hspeaker, hid, List.mem_append_left _ hcall⟩
      · obtain rfl := List.mem_singleton.mp hs
        exact ⟨agent, id, rfl, rfl, List.mem_append_right _ (List.mem_singleton_self _)⟩
    · rw [List.filterMap_append]
      refine List.nodup_append.mpr ⟨h.distinct, List.pairwise_singleton _ _, ?_⟩
      intro other hother new hmem
      obtain ⟨s, hs, hid⟩ := List.mem_filterMap.mp hother
      rw [List.mem_singleton.mp hmem]
      exact fun heq => hnew s hs (heq ▸ hid)
  | closed agent id name output isError before s after status hstatus hid hsigns =>
    have hdistinct := h.distinct
    rw [hsigns, List.filterMap_append, List.filterMap_cons, hid, List.nodup_middle,
      List.nodup_cons, ← List.filterMap_append] at hdistinct
    refine ⟨fun t ht hrunning => ?_, ?_⟩
    · have hother : t ∈ before ++ after := by
        rw [List.mem_append, List.mem_cons] at ht
        rcases ht with ht | rfl | ht
        · exact List.mem_append_left _ ht
        · exact absurd hrunning hstatus
        · exact List.mem_append_right _ ht
      have hmem : t ∈ signs := by
        rw [hsigns, List.mem_append, List.mem_cons]
        exact (List.mem_append.mp hother).imp_right .inr
      obtain ⟨agent', id', hspeaker, hid', hcall⟩ := h.running t hmem hrunning
      refine ⟨agent', id', hspeaker, hid',
        List.mem_filter.mpr ⟨hcall, decide_eq_true fun heq => ?_⟩⟩
      obtain rfl := (ToolCall.mk.inj heq).2.2
      exact hdistinct.1 (List.mem_filterMap.mpr ⟨t, hother, hid'⟩)
    · rw [List.filterMap_append, List.filterMap_cons]
      rw [List.filterMap_append] at hdistinct
      exact hdistinct.2

/-! ## The sub-turns -/

/-- The name of an agent, as the list of agents has it. -/
def Spelled (b : Book) (name : Bytes) : Prop :=
  b.agentNames.find? (eqlIgnoreCase · name) = some name

theorem spelled_canonical {b : Book} {name : Bytes} (h : name ∈ b.agentNames) :
    Spelled b (b.canonical name) := by
  have hsome : (b.agentNames.find? (eqlIgnoreCase · name)).isSome = true :=
    List.find?_isSome.mpr ⟨name, h, eqlIgnoreCase_refl name⟩
  obtain ⟨known, hknown⟩ := Option.isSome_iff_exists.mp hsome
  have hsame : eqlIgnoreCase known name = true := by
    have hfound := List.find?_some hknown
    exact hfound
  rw [Book.canonical, hknown, Option.getD_some, Spelled, ← hknown]
  congr 1
  funext other
  rw [eqlIgnoreCase_comm, eqlIgnoreCase_congr hsame, eqlIgnoreCase_comm]

/-- Agents whose names differ in case only are one. -/
theorem Spelled.eq {b : Book} {s t : Bytes} (hs : Spelled b s) (ht : Spelled b t)
    (h : eqlIgnoreCase s t = true) : s = t := by
  have hsame : (fun other => eqlIgnoreCase other s) = fun other => eqlIgnoreCase other t := by
    funext other
    rw [eqlIgnoreCase_comm, eqlIgnoreCase_congr h, eqlIgnoreCase_comm]
  rw [Spelled, hsame, ht] at hs
  exact (Option.some.inj hs).symm

/-- A sub-turn of the epoch whose completion looks for such a slot. -/
def seeks (epoch : UInt64) (target : Bytes) (mentionIdx : UInt8) (ctx : WorkerCtx) : Bool :=
  ctx.epoch == epoch && ctx.hasKey target mentionIdx

/-- **There are no more slots in flight than sub-turns under way**, key by key. -/
structure Covered (b : Book) (ctxs : List WorkerCtx) : Prop where
  slots : ∀ target mentionIdx, b.subturnSlots.countP (Root.SlotMatches target mentionIdx) ≤
    ctxs.countP (seeks b.turnEpoch target mentionIdx)
  targets : ∀ slot ∈ b.subturnSlots, Spelled b slot.target
  agents : ∀ ctx ∈ ctxs, Spelled b ctx.sessionId
  invoked : ∀ ctx ∈ ctxs, ctx.invoker ≠ none

variable {b b' : Book} {ctxs : List WorkerCtx}

/-- A slot in flight has a sub-turn of its agent. -/
theorem Covered.worker (h : Covered b ctxs) {slot : SubturnSlot} (hslot : slot ∈ b.subturnSlots)
    (hstate : slot.state = .inFlight) :
    ∃ ctx ∈ ctxs, ctx.epoch = b.turnEpoch ∧ ctx.sessionId = slot.target := by
  have hmatch : Root.SlotMatches slot.target slot.mentionIdx slot = true := by
    simp [Root.SlotMatches, hstate]
  have hpos := List.countP_pos_iff.mpr ⟨slot, hslot, hmatch⟩
  obtain ⟨ctx, hctx, hseeks⟩ := List.countP_pos_iff.mp (hpos.trans_le (h.slots _ _))
  simp only [seeks, WorkerCtx.hasKey, Bool.and_eq_true, beq_iff_eq] at hseeks
  exact ⟨ctx, hctx, hseeks.1, (h.agents ctx hctx).eq (h.targets slot hslot) hseeks.2.2⟩

/-- Without slots there is nothing to cover. -/
theorem Covered.of_nil (h : Covered b ctxs) (hslots : b'.subturnSlots = [])
    (hnames : b'.agentNames = b.agentNames) : Covered b' ctxs := by
  refine ⟨fun target mentionIdx => ?_, fun slot hslot => ?_, fun ctx hctx => ?_, h.invoked⟩
  · rw [hslots]
    exact Nat.zero_le _
  · rw [hslots] at hslot
    cases hslot
  · rw [Spelled, hnames]
    exact h.agents ctx hctx

theorem Covered.maybeResume (h : Covered b ctxs) : Covered b.maybeResume ctxs := by
  rw [Book.maybeResume]
  split
  · exact h
  · split
    · exact h
    · exact h.of_nil rfl rfl

/-- The next invoker is of no account. -/
theorem Covered.invoker (h : Covered b ctxs) (invoker : Option Bytes) :
    Covered { b with invokerToResume := invoker } ctxs :=
  ⟨h.slots, h.targets, h.agents, h.invoked⟩

/-- **A sub-turn comes to its end**, and with it one of the slots that it may be for, if there is
any. -/
theorem Covered.erase (h : Covered b ctxs) {ctx : WorkerCtx} (hepoch : b'.turnEpoch = b.turnEpoch)
    (hnames : b'.agentNames = b.agentNames)
    (htargets : ∀ slot ∈ b'.subturnSlots, ∃ old ∈ b.subturnSlots, slot.target = old.target)
    (hle : ∀ target mentionIdx, b'.subturnSlots.countP (Root.SlotMatches target mentionIdx) ≤
      b.subturnSlots.countP (Root.SlotMatches target mentionIdx))
    (hown : ctx.invoker ≠ none → ∀ target mentionIdx,
      seeks b.turnEpoch target mentionIdx ctx = true →
      b'.subturnSlots.countP (Root.SlotMatches target mentionIdx) <
          b.subturnSlots.countP (Root.SlotMatches target mentionIdx) ∨
        b'.subturnSlots.countP (Root.SlotMatches target mentionIdx) = 0) :
    Covered b' (ctxs.erase ctx) := by
  have hsub : ∀ other ∈ ctxs.erase ctx, other ∈ ctxs := fun _ => List.mem_of_mem_erase
  refine ⟨fun target mentionIdx => ?_, fun slot hslot => ?_, fun other hother => ?_,
    fun other hother => h.invoked other (hsub other hother)⟩
  · have hslots := h.slots target mentionIdx
    have hle := hle target mentionIdx
    rw [hepoch]
    by_cases hmem : ctx ∈ ctxs
    · have hown := hown (h.invoked ctx hmem) target mentionIdx
      have hcount := (List.perm_cons_erase hmem).countP_eq (seeks b.turnEpoch target mentionIdx)
      rw [List.countP_cons] at hcount
      split at hcount
      · rename_i hseeks
        rcases hown hseeks with hlt | hzero
        · omega
        · omega
      · omega
    · rw [List.erase_of_not_mem hmem]
      omega
  · obtain ⟨old, hold, htarget⟩ := htargets slot hslot
    rw [Spelled, hnames, htarget]
    exact h.targets old hold
  · rw [Spelled, hnames]
    exact h.agents other (hsub other hother)

/-- The completion or the timeout of a sub-turn that finds no slot. -/
theorem Covered.miss (h : Covered b ctxs) {ctx : WorkerCtx}
    (hfind : ctx.invoker ≠ none → ctx.epoch = b.turnEpoch → ctx.dispatchKind = .subturn →
      b.findSlot ctx.sessionId ctx.mentionOrderIdx = none) : Covered b (ctxs.erase ctx) := by
  refine h.erase rfl rfl (fun slot hslot => ⟨slot, hslot, rfl⟩) (fun _ _ => Nat.le_refl _)
    fun hinvoker target mentionIdx hseeks =>
      .inr (List.countP_eq_zero.mpr fun slot hslot hmatch => ?_)
  simp only [seeks, WorkerCtx.hasKey, Bool.and_eq_true, beq_iff_eq, decide_eq_true_eq] at hseeks
  obtain ⟨hepoch, ⟨hkind, hidx⟩, hagent⟩ := hseeks
  have hnone := List.findIdx?_eq_none_iff.mp (hfind hinvoker hepoch hkind) slot hslot
  simp only [Root.SlotMatches, Bool.and_eq_true, beq_iff_eq, decide_eq_true_eq] at hmatch
  obtain ⟨⟨hstate, hslotIdx⟩, hslotTarget⟩ := hmatch
  have hsame : eqlIgnoreCase slot.target ctx.sessionId = true := by
    rw [eqlIgnoreCase_congr hslotTarget, eqlIgnoreCase_comm]
    exact hagent
  rw [Root.SlotMatches, hsame, hidx, hslotIdx] at hnone
  simp [hstate] at hnone

/-- The completion or the timeout of a sub-turn that finds a slot. -/
theorem Covered.settle (h : Covered b ctxs) {ctx : WorkerCtx} {i : ℕ}
    {f : SubturnSlot → SubturnSlot}
    (hfind : b.findSlot ctx.sessionId ctx.mentionOrderIdx = some i)
    (hended : ∀ slot, (f slot).state ≠ .inFlight)
    (htarget : ∀ slot, (f slot).target = slot.target) :
    Covered (b.settle i f) (ctxs.erase ctx) := by
  obtain ⟨slot, hslot, hstate, hidx, hagent⟩ := findSlot_eq_some hfind
  obtain ⟨hsplit, hmodify⟩ := split_at hslot f
  generalize b.subturnSlots.take i = before at hsplit hmodify
  generalize b.subturnSlots.drop (i + 1) = after at hsplit hmodify
  have hslots : (b.settle i f).subturnSlots = before ++ f slot :: after := hmodify
  have hcount : ∀ target mentionIdx,
      (b.settle i f).subturnSlots.countP (Root.SlotMatches target mentionIdx) +
          (if Root.SlotMatches target mentionIdx slot = true then 1 else 0) =
        b.subturnSlots.countP (Root.SlotMatches target mentionIdx) := by
    intro target mentionIdx
    have hgone : ¬ Root.SlotMatches target mentionIdx (f slot) = true := by
      simp [Root.SlotMatches, hended slot]
    rw [hslots, hsplit, List.countP_append, List.countP_append, List.countP_cons_of_neg hgone,
      List.countP_cons]
    omega
  refine h.erase rfl rfl (fun other hother => ?_) (fun target mentionIdx => ?_)
    fun _ target mentionIdx hseeks => .inl ?_
  · rw [hslots, List.mem_append, List.mem_cons] at hother
    rw [hsplit]
    rcases hother with hother | rfl | hother
    · exact ⟨other, List.mem_append_left _ hother, rfl⟩
    · exact ⟨slot, List.mem_append_right _ List.mem_cons_self, htarget slot⟩
    · exact ⟨other, List.mem_append_right _ (List.mem_cons_of_mem _ hother), rfl⟩
  · have hcount := hcount target mentionIdx
    omega
  · simp only [seeks, WorkerCtx.hasKey, Bool.and_eq_true, beq_iff_eq] at hseeks
    have hmatch : Root.SlotMatches target mentionIdx slot = true := by
      have hsame : eqlIgnoreCase slot.target target = true := by
        rw [eqlIgnoreCase_congr hagent]
        exact hseeks.2.2
      simp [Root.SlotMatches, hstate, hidx, hseeks.2.1.2, hsame]
    have hcount := hcount target mentionIdx
    rw [if_pos hmatch] at hcount
    omega

/-- A sub-turn is started. -/
theorem Covered.start (h : Covered b ctxs) (invoker : Bytes) {target : Bytes} (mentionIdx : UInt8)
    (htarget : Spelled b target) :
    Covered (b.addSlot target mentionIdx).count
      (ctxs ++ [b.subturn invoker target mentionIdx]) := by
  refine ⟨fun other idx => ?_, fun slot hslot => ?_, fun ctx hctx => ?_, fun ctx hctx => ?_⟩
  · show (b.subturnSlots ++ [_]).countP _ ≤ (ctxs ++ [_]).countP (seeks b.turnEpoch other idx)
    have hslots := h.slots other idx
    have hnew : seeks b.turnEpoch other idx (b.subturn invoker target mentionIdx) =
        Root.SlotMatches other idx { target, mentionIdx, serial := b.serials } := by
      simp [seeks, WorkerCtx.hasKey, Book.subturn, Root.SlotMatches]
    rw [List.countP_append, List.countP_append, List.countP_singleton, List.countP_singleton, hnew]
    omega
  · rcases List.mem_append.mp hslot with hslot | hslot
    · exact h.targets slot hslot
    · rw [List.mem_singleton.mp hslot]
      exact htarget
  · rcases List.mem_append.mp hctx with hctx | hctx
    · exact h.agents ctx hctx
    · rw [List.mem_singleton.mp hctx]
      exact htarget
  · rcases List.mem_append.mp hctx with hctx | hctx
    · exact h.invoked ctx hctx
    · rw [List.mem_singleton.mp hctx]
      exact Option.some_ne_none invoker

/-- **Mentions are dispatched**, and every slot gets its worker. -/
theorem Covered.fansOut {invoker : Bytes} {names : List Bytes} {k : ℕ}
    {faults : List (Option DispatchFault)} {started : List (WorkerCtx × Bool)}
    (h : Covered b ctxs)
    (hfans : FansOut invoker b (names.zipIdx k) (faults.drop k) b' started)
    (hknown : ∀ entry ∈ names.zipIdx k, entry.1 ∈ b.agentNames)
    (hworkers : ∀ entry ∈ names.zipIdx k, faults[entry.2]?.join.all (!·.orphans)) :
    Covered b' (ctxs ++ started.map Prod.fst) := by
  induction names generalizing k b ctxs started with
  | nil =>
    cases hfans
    rw [List.map_nil, List.append_nil]
    exact h
  | cons name names ih =>
    rw [List.zipIdx_cons] at hfans hknown hworkers
    have htail := fun entry hentry => hknown entry (List.mem_cons_of_mem _ hentry)
    have hrestWorkers := fun entry hentry => hworkers entry (List.mem_cons_of_mem _ hentry)
    cases hfans with
    | refused _ _ hfault hrest =>
      rw [List.tail_drop] at hrest
      exact ih h hrest htail hrestWorkers
    | failed _ _ errorName hfault hrest =>
      rw [List.head?_drop] at hfault
      have hworker := hworkers _ List.mem_cons_self
      rw [hfault] at hworker
      exact absurd hworker (by simp [DispatchFault.orphans])
    | started _ _ watched hfault hrest =>
      rw [List.tail_drop] at hrest
      rw [List.map_cons, List.append_cons]
      exact ih (h.start invoker _ (spelled_canonical (hknown _ List.mem_cons_self))) hrest htail
        hrestWorkers

/-- What is dispatched is known. -/
theorem known_plan (b : Book) (p : DonePayload) : ∀ entry ∈ b.plan p, entry.1 ∈ b.agentNames := by
  intro entry hentry
  rw [Book.plan] at hentry
  split at hentry
  · cases hentry
  · have hfound := List.mem_of_mem_take (List.fst_mem_of_mem_zipIdx hentry)
    exact (Mention.mentions_findAll p.output b.agentNames p.targetAgent).known entry.1 hfound

/-- **A reply is scanned** in an orderly run. -/
theorem Covered.scan {b₁ : Book} {invoker : Bytes} {next : Option Bytes} {p : DonePayload}
    {faults : List (Option DispatchFault)} {started : List (WorkerCtx × Bool)}
    (h : Covered b₁ ctxs)
    (hfans : FansOut invoker { b₁ with invokerToResume := next } (b.plan p) faults b' started)
    (hnames : b₁.agentNames = b.agentNames)
    (hworkers : ∀ entry ∈ b.plan p, faults[entry.2]?.join.all (!·.orphans)) :
    Covered b' (ctxs ++ started.map Prod.fst) := by
  have hknown := known_plan b p
  obtain ⟨names, hplan, -⟩ := plan_eq_zipIdx b p
  rw [hplan] at hfans hknown hworkers
  rw [← hnames] at hknown
  exact (h.invoker next).fansOut (k := 0) hfans hknown hworkers

/-- A completion or a timeout in the queue is that of the worker that it comes from. -/
structure Posted.Genuine (posted : Posted) : Prop where
  done : ∀ p, posted.event = .done p → ∃ output, p = donePayload posted.ctx output
  timeout : ∀ epoch invoker target mentionIdx,
    posted.event = .subturnTimeout epoch invoker target mentionIdx →
      posted.event = timeoutPayload posted.ctx

/-- A turn of an agent is over. -/
theorem covered_done {ctx : WorkerCtx} {output : Bytes} {faults : List (Option DispatchFault)}
    {started : List (WorkerCtx × Bool)} (h : Covered b ctxs)
    (hworkers : Scans b (donePayload ctx output) → ∀ entry ∈ b.plan (donePayload ctx output),
      faults[entry.2]?.join.all (!·.orphans))
    (hhandled : Handled b faults (.done (donePayload ctx output)) b' started) :
    Covered b' (ctxs.erase ctx ++ started.map Prod.fst) := by
  cases hhandled with
  | quiet _ hquiet =>
    rw [List.map_nil, List.append_nil]
    exact h.miss fun hinvoker hepoch hkind => hquiet _ rfl hepoch hkind hinvoker
  | scanned _ next hepoch hkind hfans =>
    exact (h.miss fun _ _ hsubturn => absurd hsubturn hkind).scan hfans rfl
      (hworkers ⟨hepoch, fun hsubturn => absurd hsubturn hkind⟩)
  | completed _ i next hepoch hkind hfind hfans =>
    have hsettled := h.settle (f := .complete output) hfind
      (fun _ => SlotState.noConfusion) fun _ => rfl
    have hnames : (b.settle i (.complete output)).maybeResume.agentNames = b.agentNames := by
      rw [maybeResume_frame]
      rfl
    refine hsettled.maybeResume.scan hfans hnames (hworkers ⟨hepoch, fun _ => ?_⟩)
    rw [hfind]
    exact Option.some_ne_none i

/-- The time of a sub-turn is over. -/
theorem covered_timeout (host : Host) {r : Root} (ctx : WorkerCtx) (h : Covered r.book ctxs)
    (now : ℤ) (faults : List (Option DispatchFault)) :
    (r.handleUserEvent host now faults (timeoutPayload ctx)).2 = [] ∧
      Covered (r.handleUserEvent host now faults (timeoutPayload ctx)).1.book
        (ctxs.erase ctx) := by
  by_cases hstale : r.dropStaleIfNeeded (timeoutPayload ctx) = true
  · rw [handleUserEvent_stale hstale]
    refine ⟨rfl, h.miss fun _ hepoch _ => ?_⟩
    have hepoch : ctx.epoch = r.turnEpoch := hepoch
    simp [Root.dropStaleIfNeeded, timeoutPayload, UserEvent.epoch, hepoch] at hstale
  · unfold Root.handleUserEvent
    rw [if_neg hstale]
    refine ⟨rfl, ?_⟩
    show Covered (r.onSubturnTimeout ctx.sessionId ctx.mentionOrderIdx).book _
    rw [Root.onSubturnTimeout]
    split
    · rename_i hfind
      exact h.miss fun _ _ _ => hfind
    · rename_i i hfind
      rw [book_maybeResume]
      exact (h.settle (f := SubturnSlot.timeOut) hfind (fun _ => SlotState.noConfusion)
        fun _ => rfl).maybeResume

/-- An event that does not end a sub-turn. -/
theorem covered_other {ue : UserEvent} {faults : List (Option DispatchFault)}
    {started : List (WorkerCtx × Bool)} (h : Covered b ctxs) (hdone : ∀ p, ue ≠ .done p)
    (htimeout : ∀ epoch invoker target mentionIdx,
      ue ≠ .subturnTimeout epoch invoker target mentionIdx)
    (hhandled : Handled b faults ue b' started) : Covered b' (ctxs ++ started.map Prod.fst) := by
  cases hhandled with
  | quiet =>
    rw [List.map_nil, List.append_nil]
    exact h
  | scanned p => exact absurd rfl (hdone p)
  | completed p => exact absurd rfl (hdone p)
  | timedOut epoch invoker target mentionIdx => exact absurd rfl (htimeout _ _ _ _)

/-- **The event at the head of the queue**, in an orderly run. -/
theorem covered_handle {host : Host} {r : Root} {posted : Posted}
    (h : Covered r.book ledger.subturns) (hgenuine : posted.Genuine) (now : ℤ)
    (faults : List (Option DispatchFault))
    (hworkers : ∀ p ∈ posted.completion, Scans r.book p → ∀ entry ∈ r.book.plan p,
      faults[entry.2]?.join.all (!·.orphans)) :
    Covered (r.handleUserEvent host now faults posted.event).1.book
      ((ledger.deliver posted).subturns ++
        (r.handleUserEvent host now faults posted.event).2.map Prod.fst) := by
  have hhandled := handled_handleUserEvent host r now faults posted.event
  obtain ⟨event, ctx⟩ := posted
  cases event with
  | done p =>
    obtain ⟨output, hp⟩ := hgenuine.done p rfl
    have hp : p = donePayload ctx output := hp
    subst hp
    exact covered_done h (hworkers _ rfl) hhandled
  | subturnTimeout epoch invoker target mentionIdx =>
    obtain ⟨hstarted, hcovered⟩ := covered_timeout host ctx h now faults
    rw [hgenuine.timeout epoch invoker target mentionIdx rfl, hstarted, List.map_nil,
      List.append_nil]
    exact hcovered
  | _ =>
    exact covered_other h (fun _ => UserEvent.noConfusion)
      (fun _ _ _ _ => UserEvent.noConfusion) hhandled

/-! ## All along a run -/

/-- What every state of an orderly run satisfies. -/
structure Truthful (host : Host) (w : World) (ledger : Ledger) : Prop where
  shaped : Shaped host.toFormat w.root
  awaited : Awaited w.root.turnEpoch ledger.calls w.root.signs
  covered : Covered w.root.book ledger.subturns
  genuine : ∀ posted ∈ w.queue, posted.Genuine

/-- **Whoever is listed works.** -/
theorem Truthful.works {host : Host} {w : World} (h : Truthful host w ledger) :
    ∀ entry ∈ w.root.upperStatusEntries, ledger.Works w.root.turnEpoch entry.agent := by
  intro entry hentry
  rcases mem_upperStatusEntries hentry with ⟨s, hs, hrunning, hspeaker⟩ |
    ⟨slot, hslot, hstate, htarget⟩
  · obtain ⟨agent, id, hagent, -, hcall⟩ := h.awaited.running s hs hrunning
    exact .inl ⟨_, hcall, rfl, Option.some.inj (hagent.symm.trans hspeaker)⟩
  · obtain ⟨ctx, hctx, hepoch, hagent⟩ := h.covered.worker hslot hstate
    exact .inr ⟨ctx, hctx, hepoch, hagent.trans htarget⟩

/-- The user or a worker does something to which neither rows nor slots belong. -/
theorem Truthful.keep {host : Host} {w w' : World} (h : Truthful host w ledger)
    (hshaped : Shaped host.toFormat w'.root) (hsigns : w'.root.signs = w.root.signs)
    (hbook : w'.root.book = w.root.book) (hqueue : ∀ posted ∈ w'.queue, posted.Genuine) :
    Truthful host w' ledger := by
  refine ⟨hshaped, ?_, ?_, hqueue⟩
  · have hepoch : w'.root.turnEpoch = w.root.turnEpoch := congrArg Book.turnEpoch hbook
    rw [hsigns, hepoch]
    exact h.awaited
  · rw [hbook]
    exact h.covered

/-- Something is posted. -/
theorem Truthful.post {host : Host} {w : World} (h : Truthful host w ledger) {posted : Posted}
    (hgenuine : posted.Genuine) : ∀ other ∈ w.queue ++ [posted], other.Genuine := by
  intro other hother
  rcases List.mem_append.mp hother with hother | hother
  · exact h.genuine other hother
  · rw [List.mem_singleton.mp hother]
    exact hgenuine

theorem genuine_post (ctx : WorkerCtx) (turnEpoch : UInt64) (event : WorkerEvent) :
    Posted.Genuine ⟨event.payload ctx turnEpoch, ctx⟩ := by
  refine ⟨fun p hp => ?_, fun _ _ _ _ htimeout => ?_⟩
  · cases event with
    | _ => exact UserEvent.noConfusion hp
  · cases event with
    | _ => exact UserEvent.noConfusion htimeout

theorem Truthful.submit {host : Host} {w w' : World} (h : Truthful host w ledger) {now : ℤ}
    {spawnError : Option Bytes} {text : Bytes} (ha : Orderly w (.submit now spawnError text))
    (hroot : w'.root = (w.root.onSubmit host now spawnError text).1) (hqueue : w'.queue = w.queue) :
    Truthful host w' ledger := by
  have hsigns := signs_onSubmit host w.root now spawnError text
  refine ⟨?_, ?_, ?_, hqueue ▸ h.genuine⟩
  · rw [hroot]
    exact h.shaped.onSubmit now spawnError text
  · rw [hroot, hsigns]
    by_cases hbegins : w.root.BeginsTurn text
    · -- no row is running, whatever the epoch is now
      exact ⟨fun s hs hrunning => absurd hrunning (ha hbegins s hs), h.awaited.distinct⟩
    · rw [turnEpoch_onSubmit hbegins]
      exact h.awaited
  · have hsubmitted := submitted_onSubmit host w.root now spawnError text
    rw [hroot]
    generalize (w.root.onSubmit host now spawnError text).1.book = b at hsubmitted
    generalize (w.root.onSubmit host now spawnError text).2 = started at hsubmitted
    cases hsubmitted with
    | kept => exact h.covered
    | failed => exact h.covered.of_nil rfl rfl
    | begun sessionId => exact h.covered.of_nil rfl rfl

theorem Truthful.handle {host : Host} {w w' : World} (h : Truthful host w ledger) {now : ℤ}
    {faults : List (Option DispatchFault)} (ha : Orderly w (.handle now faults)) {posted : Posted}
    {queue : List Posted} (hqueue : w.queue = posted :: queue)
    (hshaped : Shaped host.toFormat w'.root)
    (hroot : w'.root = (w.root.handleUserEvent host now faults posted.event).1)
    (hworkers : w'.workers =
      w.workers ++ (w.root.handleUserEvent host now faults posted.event).2.map Prod.fst)
    (hrest : w'.queue = queue) :
    Truthful host w' (ledger.note w w' (.handle now faults)) := by
  have hgenuine := h.genuine posted (hqueue ▸ List.mem_cons_self)
  have hsigned := signed_handleUserEvent h.shaped now faults posted.event
  have hsame := sameTurn_handled (handled_handleUserEvent host w.root now faults posted.event)
  have hepoch : w'.root.turnEpoch = w.root.turnEpoch := hroot ▸ hsame.epoch
  have hstaffed : ∀ p ∈ posted.completion, Scans w.root.book p → ∀ entry ∈ w.root.book.plan p,
      faults[entry.2]?.join.all (!·.orphans) := by
    intro p hp
    rw [Orderly, hqueue] at ha
    exact ha p hp
  have hnote : ledger.note w w' (.handle now faults) = { ledger.deliver posted with
      subturns := (ledger.deliver posted).subturns ++
        (w.root.handleUserEvent host now faults posted.event).2.map Prod.fst } := by
    rw [Ledger.note, hqueue, hworkers, List.drop_left]
  rw [hnote]
  refine ⟨hshaped, ?_, ?_, fun other hother => ?_⟩
  · rw [hepoch, hroot]
    exact h.awaited.deliver hsigned
  · rw [hroot]
    exact covered_handle h.covered hgenuine now faults hstaffed
  · rw [hrest] at hother
    exact h.genuine other (hqueue ▸ List.mem_cons_of_mem _ hother)

theorem truthful_step {host : Host} {s s' : World × Ledger} {a : Action}
    (h : Truthful host s.1 s.2) (ha : Orderly s.1 a) (hstep : stepNoted host s a = some s') :
    Truthful host s'.1 s'.2 := by
  obtain ⟨w, ledger⟩ := s
  obtain ⟨w', hw', rfl⟩ := Option.map_eq_some_iff.mp hstep
  have hshaped := shaped_step h.shaped hw'
  cases a with
  | submit now spawnError text =>
    obtain rfl := Option.some.inj hw'
    exact h.submit ha rfl rfl
  | escape =>
    rw [step] at hw'
    split at hw'
    · cases hw'
    · obtain rfl := Option.some.inj hw'
      exact h.keep hshaped (Notes.escape w.root).signs (Root.book_escape w.root) h.genuine
  | toggle =>
    obtain rfl := Option.some.inj hw'
    exact h.keep hshaped (signs_toggleAllToolExpand host.toFormat w.root) rfl h.genuine
  | post i event =>
    rw [step] at hw'
    split at hw'
    · cases hw'
    · rename_i ctx hctx
      obtain rfl := Option.some.inj hw'
      exact h.keep hshaped rfl rfl (h.post (genuine_post ctx w.root.turnEpoch event))
  | finish i output =>
    rw [step] at hw'
    split at hw'
    · cases hw'
    · rename_i ctx hctx
      obtain rfl := Option.some.inj hw'
      refine h.keep hshaped rfl rfl (h.post ⟨fun p hp => ?_, fun _ _ _ _ => UserEvent.noConfusion⟩)
      exact ⟨output, (UserEvent.done.inj hp).symm⟩
  | takeReply i =>
    rw [step] at hw'
    split at hw'
    · cases hw'
    · obtain rfl := Option.some.inj hw'
      exact h.keep hshaped rfl rfl h.genuine
  | expire i =>
    rw [step] at hw'
    split at hw'
    · cases hw'
    · rename_i ctx hctx
      obtain rfl := Option.some.inj hw'
      exact h.keep hshaped rfl rfl (h.post ⟨fun _ => UserEvent.noConfusion, fun _ _ _ _ _ => rfl⟩)
  | handle now faults =>
    rw [step] at hw'
    split at hw'
    · cases hw'
    · rename_i posted queue hqueue
      obtain rfl := Option.some.inj hw'
      exact h.handle ha hqueue hshaped rfl rfl rfl

/-- **Only those are listed as busy who work**, in every state of an orderly run. -/
theorem works_of_orderly (host : Host) (agentNames : List Bytes) (sessionId userName : Bytes)
    (maxCalls : UInt8) (timeoutSecs : UInt32) {history : List Line}
    (hhistory : ∀ line ∈ history, line.role ≠ .tool) {as : List Action}
    (horderly : StepMachine.Along (stepNoted host) (fun s => Orderly s.1)
      (start agentNames sessionId userName maxCalls timeoutSecs history, {}) as) :
    ∀ before w ledger, before <+: as → StepMachine.run (stepNoted host)
      (start agentNames sessionId userName maxCalls timeoutSecs history, {}) before =
        some (w, ledger) →
      ∀ entry ∈ w.root.upperStatusEntries, ledger.Works w.root.turnEpoch entry.agent := by
  have hnone : history.filterMap Line.sign = [] :=
    List.filterMap_eq_nil_iff.mpr fun line hline => sign_of_ne (hhistory line hline)
  have hstart : Truthful host
      (start agentNames sessionId userName maxCalls timeoutSecs history) {} := by
    refine ⟨⟨fun line hline hrole => absurd hrole (hhistory line hline), fun _ h => nomatch h⟩,
      ?_, ⟨fun _ _ => Nat.le_refl _, fun _ h => (nomatch h), fun _ h => (nomatch h),
        fun _ h => (nomatch h)⟩, fun _ h => nomatch h⟩
    show Awaited _ _ (history.filterMap Line.sign)
    rw [hnone]
    exact ⟨fun _ h => (nomatch h), List.nodup_nil⟩
  intro before w ledger hbefore hrun
  have htruthful := StepMachine.invariant_along (I := fun s => Truthful host s.1 s.2)
    (fun s a s' hs ha hstep => truthful_step hs ha hstep) hstart horderly before (w, ledger)
    hbefore hrun
  exact htruthful.works

/-- Two agents at work, one after the other. -/
def relay : List Action :=
  [.submit 1 none (ascii "hi"), .post 0 (.toolStart (ascii "t1") (ascii "bash") (ascii "ls")),
    .handle 2 [], .post 0 (.toolDone (ascii "t1") (ascii "bash") (ascii "ok") false), .handle 3 [],
    .finish 0 (ascii "@b @c"), .handle 4 [],
    .post 0 (.toolStart (ascii "t2") (ascii "grep") (ascii "x")), .handle 5 []]

theorem works_relay : ∃ w ledger, StepMachine.run (stepNoted plain)
      (start [ascii "a", ascii "b", ascii "c"] (ascii "a") [] 8 0 [], {}) relay =
        some (w, ledger) ∧
    w.root.upperStatusEntries = [⟨ascii "b", ascii "grepping", ascii "x"⟩,
      ⟨ascii "c", ascii "thinking", []⟩] ∧
    ∀ entry ∈ w.root.upperStatusEntries, ledger.Works w.root.turnEpoch entry.agent := by
  have horderly : StepMachine.Along (stepNoted plain) (fun s => Orderly s.1)
      (start [ascii "a", ascii "b", ascii "c"] (ascii "a") [] 8 0 [], {}) relay := by decide
  have hnone : ∀ line ∈ ([] : List Line), line.role ≠ .tool := fun _ h => nomatch h
  refine ⟨_, _, rfl, by decide, ?_⟩
  exact works_of_orderly plain _ _ _ _ _ hnone horderly relay _ _ (List.prefix_refl _) rfl

/-- The user goes on while a sub-turn runs a tool, which then returns. -/
def leftRunning : List Action :=
  [.submit 1 none (ascii "hi"), .finish 0 (ascii "@b"), .handle 2 [],
    .post 0 (.toolStart (ascii "t") (ascii "bash") (ascii "ls")), .handle 3 [],
    .submit 4 none (ascii "next"),
    .post 0 (.toolDone (ascii "t") (ascii "bash") (ascii "ok") false), .handle 5 [],
    .finish 0 (ascii "done"), .handle 6 []]

/-- A row that outlives its turn, and a slot without a worker. -/
theorem not_works_leftRunning :
    (∃ w ledger, StepMachine.run (stepNoted plain)
        (start [ascii "a", ascii "b"] (ascii "a") [] 8 0 [], {}) leftRunning = some (w, ledger) ∧
      w.queue = [] ∧ w.root.upperStatusEntries = [⟨ascii "b", ascii "running", ascii "ls"⟩] ∧
      ledger = {} ∧
      ¬ ∀ entry ∈ w.root.upperStatusEntries, ledger.Works w.root.turnEpoch entry.agent) ∧
    ∃ w ledger, StepMachine.run (stepNoted plain)
        (start [ascii "a", ascii "b"] (ascii "a") [] 8 0 [], {}) orphaned = some (w, ledger) ∧
      w.queue = [] ∧ w.root.upperStatusEntries = [⟨ascii "b", ascii "thinking", []⟩] ∧
      ledger = {} ∧
      ¬ ∀ entry ∈ w.root.upperStatusEntries, ledger.Works w.root.turnEpoch entry.agent := by
  constructor
  · exact ⟨_, _, rfl, by decide, by decide, by decide, by decide⟩
  · exact ⟨_, _, rfl, by decide, by decide, by decide, by decide⟩

end Chat
end Tui
end TigerClaw
