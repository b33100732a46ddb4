import TigerClaw.Tui.Root

/-!
# The sub-turns of the widget

The part of `Root` that the sub-turns are kept in, and what the calls of the widget do to it.

* `book_onChunk` and the others: most calls leave it as it is.
* `FansOut`, `fansOut_fanOut`: the loop over the mentions, one dispatch after the other.
* `Handled`, `handled_handleUserEvent`: what the handling of an event does.
* `Submitted`, `submitted_onSubmit`: what a line of the user does.
-/

namespace TigerClaw
namespace Tui

structure Book where
  subturnSlots : List SubturnSlot
  invokerToResume : Option Bytes
  pendingSubturns : ℕ
  autoDispatchCalls : UInt8
  autoDispatchMaxCalls : UInt8
  autoDispatchSubturnTimeoutSecs : UInt32
  turnEpoch : UInt64
  agentNames : List Bytes
  serials : ℕ
  turns : ℕ

namespace Root

def book (self : Root) : Book where
  subturnSlots := self.subturnSlots
  invokerToResume := self.invokerToResume
  pendingSubturns := self.pendingSubturns
  autoDispatchCalls := self.autoDispatchCalls
  autoDispatchMaxCalls := self.autoDispatchMaxCalls
  autoDispatchSubturnTimeoutSecs := self.autoDispatchSubturnTimeoutSecs
  turnEpoch := self.turnEpoch
  agentNames := self.agentNames
  serials := self.serials
  turns := self.turns

variable (self : Root)

/-! ## Calls that leave it as it is -/

@[simp] theorem book_modifyLine (i : ℕ) (f : Line → Line) :
    (self.modifyLine i f).book = self.book := rfl

@[simp] theorem book_setPendingAgentLine (agent : Bytes) (idx : ℕ) :
    (self.setPendingAgentLine agent idx).book = self.book := by
  rw [setPendingAgentLine]
  split <;> rfl

@[simp] theorem book_rerenderTurnTools (fmt : Format) (turnId : UInt32) :
    (self.rerenderTurnTools fmt turnId).book = self.book := by
  rw [rerenderTurnTools]
  split <;> rfl

theorem book_onChunk (agent text : Bytes) : (self.onChunk agent text).book = self.book := by
  rw [onChunk]
  cases self.getPendingAgentLine agent with
  | some idx => rfl
  | none =>
    rw [book_modifyLine, book_setPendingAgentLine]
    rfl

theorem book_onToolStart (fmt : Format) (now : ℤ) (agent id name argsSummary : Bytes) :
    (self.onToolStart fmt now agent id name argsSummary).book = self.book := by
  rw [onToolStart]
  split
  · split
    · rfl
    · rw [book_rerenderTurnTools]
      rfl
  · rfl

theorem book_onToolProgress (fmt : Format) (id chunk : Bytes) :
    (self.onToolProgress fmt id chunk).book = self.book := by
  rw [onToolProgress]
  split
  · dsimp only
    split <;> rfl
  · rfl

theorem book_onToolDone (fmt : Format) (now : ℤ) (agent id name output : Bytes)
    (isError : Bool) :
    (self.onToolDone fmt now agent id name output isError).book = self.book := by
  rw [onToolDone]
  split <;> rfl

theorem book_dispatchCommand (effect : CommandEffect) :
    (self.dispatchCommand effect).book = self.book := by
  have hlines : ∀ (lines : List Bytes) (self : Root),
      (lines.foldl (fun self line => self.appendLine .system line) self).book = self.book := by
    intro lines
    induction lines with
    | nil => exact fun _ => rfl
    | cons line lines ih => exact fun self => ih (self.appendLine .system line)
  exact hlines effect.lines self

theorem book_escape : self.escape.book = self.book := by
  rw [escape]
  dsimp only
  split
  · split <;> rfl
  · split <;> rfl

end Root

/-! ## Dispatching -/

namespace Book

def addSlot (self : Book) (target : Bytes) (mentionIdx : UInt8) : Book :=
  { self with
    subturnSlots := self.subturnSlots ++ [{ target, mentionIdx, serial := self.serials }]
    pendingSubturns := self.pendingSubturns + 1
    serials := self.serials + 1 }

def count (self : Book) : Book := { self with autoDispatchCalls := self.autoDispatchCalls + 1 }

/-- An agent's name as the list of agents has it. -/
def canonical (self : Book) (name : Bytes) : Bytes :=
  (self.agentNames.find? (eqlIgnoreCase · name)).getD name

/-- A turn begins. -/
def begin (self : Book) : Book :=
  { self with
    subturnSlots := []
    invokerToResume := none
    pendingSubturns := 0
    autoDispatchCalls := 0
    turnEpoch := self.turnEpoch + 1
    turns := self.turns + 1 }

/-- A slot reaches its end. -/
def settle (self : Book) (i : ℕ) (f : SubturnSlot → SubturnSlot) : Book :=
  { self with
    subturnSlots := self.subturnSlots.modify i f
    pendingSubturns := self.pendingSubturns - 1 }

def maybeResume (self : Book) : Book :=
  if self.pendingSubturns ≠ 0 then self
  else if self.invokerToResume = none then self
  else { self with subturnSlots := [], invokerToResume := none }

def findSlot (self : Book) (target : Bytes) (mentionIdx : UInt8) : Option ℕ :=
  self.subturnSlots.findIdx? (Root.SlotMatches target mentionIdx)

/-- The mentions of a reply that there is room for, with their places. -/
def plan (self : Book) (p : DonePayload) : List (Bytes × ℕ) :=
  let found := Mention.findAll p.output self.agentNames p.targetAgent
  let used := self.autoDispatchCalls.toNat
  let cap := self.autoDispatchMaxCalls.toNat
  if self.agentNames = [] ∨ p.output = [] ∨ used + 1 ≥ cap then []
  else (found.take (min found.length (cap - used - 1))).zipIdx

/-- The context of the next worker, if it runs a sub-turn. -/
def subturn (self : Book) (invoker target : Bytes) (mentionIdx : UInt8) : WorkerCtx where
  sessionId := target
  epoch := self.turnEpoch
  dispatchKind := .subturn
  invoker := some invoker
  mentionOrderIdx := mentionIdx
  serial := self.serials
  turn := self.turns

end Book

/-- The dispatches of the mentions of a reply, one after the other: refused before there is a slot,
failed with the slot left behind, or started. -/
inductive FansOut (invoker : Bytes) : Book → List (Bytes × ℕ) → List (Option DispatchFault) → Book →
    List (WorkerCtx × Bool) → Prop
  | nil (b : Book) (faults : List (Option DispatchFault)) : FansOut invoker b [] faults b []
  | refused {b b' : Book} {rest : List (Bytes × ℕ)} {faults : List (Option DispatchFault)}
      {started : List (WorkerCtx × Bool)} (name : Bytes) (idx : ℕ)
      (hfault : faults.head?.join = some .slot)
      (hrest : FansOut invoker b rest faults.tail b' started) :
      FansOut invoker b ((name, idx) :: rest) faults b' started
  | failed {b b' : Book} {rest : List (Bytes × ℕ)} {faults : List (Option DispatchFault)}
      {started : List (WorkerCtx × Bool)} (name : Bytes) (idx : ℕ) (errorName : Bytes)
      (hfault : faults.head?.join = some (.worker errorName))
      (hrest : FansOut invoker (b.addSlot (b.canonical name) (UInt8.ofNat idx)) rest faults.tail b'
        started) :
      FansOut invoker b ((name, idx) :: rest) faults b' started
  | started {b b' : Book} {rest : List (Bytes × ℕ)} {faults : List (Option DispatchFault)}
      {started : List (WorkerCtx × Bool)} (name : Bytes) (idx : ℕ) (watched : Bool)
      (hfault : faults.head?.join ≠ some .slot)
      (hrest : FansOut invoker (b.addSlot (b.canonical name) (UInt8.ofNat idx)).count rest
        faults.tail b' started) :
      FansOut invoker b ((name, idx) :: rest) faults b'
        ((b.subturn invoker (b.canonical name) (UInt8.ofNat idx), watched) :: started)

/-- A dispatch that starts a worker, or would but for its timeout. -/
theorem fanOut_started (invoker name : Bytes) (idx : ℕ) (rest : List (Bytes × ℕ))
    {faults : List (Option DispatchFault)} (self : Root)
    (hslot : faults.head?.join ≠ some .slot)
    (hworker : ∀ errorName, faults.head?.join ≠ some (.worker errorName)) :
    ∃ (self' : Root) (watched : Bool),
      self'.book = (self.book.addSlot (self.book.canonical name) (UInt8.ofNat idx)).count ∧
      Root.fanOut invoker ((name, idx) :: rest) faults self =
        ((Root.fanOut invoker rest faults.tail self').1,
          (self.book.subturn invoker (self.book.canonical name) (UInt8.ofNat idx), watched) ::
            (Root.fanOut invoker rest faults.tail self').2) := by
  rw [Root.fanOut, Root.dispatchSubturn, if_neg hslot]
  cases hfault : faults.head?.join with
  | none => exact ⟨_, _, rfl, rfl⟩
  | some fault =>
    cases fault with
    | slot => exact absurd hfault hslot
    | worker errorName => exact absurd hfault (hworker errorName)
    | watchdog => exact ⟨_, _, rfl, rfl⟩

/-- A dispatch that leaves its slot behind. -/
theorem fanOut_failed (invoker name : Bytes) (idx : ℕ) (rest : List (Bytes × ℕ))
    {faults : List (Option DispatchFault)} {errorName : Bytes} (self : Root)
    (hfault : faults.head?.join = some (.worker errorName)) :
    ∃ self' : Root,
      self'.book = self.book.addSlot (self.book.canonical name) (UInt8.ofNat idx) ∧
      Root.fanOut invoker ((name, idx) :: rest) faults self =
        Root.fanOut invoker rest faults.tail self' := by
  rw [Root.fanOut, Root.dispatchSubturn, hfault, if_neg (by simp)]
  exact ⟨_, rfl, rfl⟩

/-- A dispatch that does not come to its slot. -/
theorem fanOut_refused (invoker name : Bytes) (idx : ℕ) (rest : List (Bytes × ℕ))
    {faults : List (Option DispatchFault)} (self : Root)
    (hfault : faults.head?.join = some .slot) :
    ∃ self' : Root, self'.book = self.book ∧
      Root.fanOut invoker ((name, idx) :: rest) faults self =
        Root.fanOut invoker rest faults.tail self' := by
  rw [Root.fanOut, Root.dispatchSubturn, hfault, if_pos rfl]
  exact ⟨self.appendLine .system _, rfl, rfl⟩

/-- **The loop over the mentions.** -/
theorem fansOut_fanOut (invoker : Bytes) (names : List (Bytes × ℕ))
    (faults : List (Option DispatchFault)) (self : Root) :
    FansOut invoker self.book names faults (Root.fanOut invoker names faults self).1.book
      (Root.fanOut invoker names faults self).2 := by
  induction names generalizing faults self with
  | nil => exact .nil _ _
  | cons entry rest ih =>
    obtain ⟨name, idx⟩ := entry
    by_cases hslot : faults.head?.join = some .slot
    · obtain ⟨self', hbook, heq⟩ := fanOut_refused invoker name idx rest self hslot
      rw [heq, ← hbook]
      exact .refused name idx hslot (ih faults.tail self')
    · by_cases hworker : ∃ errorName, faults.head?.join = some (.worker errorName)
      · obtain ⟨errorName, hfault⟩ := hworker
        obtain ⟨self', hbook, heq⟩ := fanOut_failed invoker name idx rest self hfault
        rw [heq]
        exact .failed name idx errorName hfault (hbook ▸ ih faults.tail self')
      · obtain ⟨self', watched, hbook, heq⟩ := fanOut_started invoker name idx rest self hslot
          (not_exists.mp hworker)
        rw [heq]
        exact .started name idx watched hslot (hbook ▸ ih faults.tail self')

/-- **A reply is scanned.** -/
theorem fansOut_scanAndFanOut (faults : List (Option DispatchFault)) (p : DonePayload)
    (self : Root) :
    ∃ invoker, FansOut p.targetAgent { self.book with invokerToResume := invoker }
      (self.book.plan p) faults (self.scanAndFanOut faults p).1.book
      (self.scanAndFanOut faults p).2 := by
  rw [Root.scanAndFanOut]
  split
  · rename_i hnames
    rw [Book.plan, if_pos (.inl hnames)]
    exact ⟨self.invokerToResume, .nil _ _⟩
  · rename_i hnames
    split
    · rename_i houtput
      rw [Book.plan, if_pos (.inr (.inl houtput))]
      exact ⟨self.invokerToResume, .nil _ _⟩
    · rename_i houtput
      dsimp only
      split
      · rename_i hfound
        have hplan : self.book.plan p = [] := by
          have hfound : Mention.findAll p.output self.book.agentNames p.targetAgent = [] := hfound
          rw [Book.plan, hfound]
          split <;> rfl
        rw [hplan]
        exact ⟨self.invokerToResume, .nil _ _⟩
      · split
        · rename_i hcap
          rw [Book.plan, if_pos (.inr (.inr hcap))]
          exact ⟨self.invokerToResume, .nil _ _⟩
        · rename_i hcap
          have hnot := not_or.mpr ⟨hnames, not_or.mpr ⟨houtput, hcap⟩⟩
          rw [show self.book.plan p = _ from if_neg hnot]
          refine ⟨some p.targetAgent, ?_⟩
          split
          · exact fansOut_fanOut _ _ _ { self with invokerToResume := some p.targetAgent }
          · exact fansOut_fanOut _ _ _ { self with invokerToResume := some p.targetAgent }

/-- A resume is about the slots and the invoker only. -/
theorem maybeResume_frame (b : Book) :
    b.maybeResume = { b with
      subturnSlots := b.maybeResume.subturnSlots
      invokerToResume := b.maybeResume.invokerToResume } := by
  rw [Book.maybeResume]
  split
  · rfl
  · split <;> rfl

theorem plan_maybeResume (b : Book) (i : ℕ) (f : SubturnSlot → SubturnSlot) (p : DonePayload) :
    (b.settle i f).maybeResume.plan p = b.plan p := by
  rw [maybeResume_frame]
  rfl

theorem book_maybeResume (self : Root) : self.maybeResume.book = self.book.maybeResume := by
  rw [Root.maybeResume, Book.maybeResume]
  show _ = if self.pendingSubturns ≠ 0 then _ else if self.invokerToResume = none then _ else _
  split
  · rfl
  · split <;> rfl

/-! ## The calls of the widget -/

/-- A slot is done. -/
def SubturnSlot.complete (output : Bytes) (slot : SubturnSlot) : SubturnSlot :=
  { slot with reply := some output, state := .done }

/-- The time of a slot is over. -/
def SubturnSlot.timeOut (slot : SubturnSlot) : SubturnSlot :=
  { slot with state := .timedOut, errorReason := some (ascii "timeout") }

/-- **What the handling of an event does to the sub-turns.** -/
inductive Handled (b : Book) (faults : List (Option DispatchFault)) :
    UserEvent → Book → List (WorkerCtx × Bool) → Prop
  | quiet (ue : UserEvent)
      (hquiet : ∀ p, ue = .done p → p.epoch = b.turnEpoch → p.dispatchKind = .subturn →
        p.invoker ≠ none → b.findSlot p.targetAgent p.mentionIdx = none) :
      Handled b faults ue b []
  | scanned {b' : Book} {started : List (WorkerCtx × Bool)} (p : DonePayload)
      (invoker : Option Bytes) (hepoch : p.epoch = b.turnEpoch) (hkind : p.dispatchKind ≠ .subturn)
      (hfans : FansOut p.targetAgent { b with invokerToResume := invoker } (b.plan p) faults b'
        started) :
      Handled b faults (.done p) b' started
  | completed {b' : Book} {started : List (WorkerCtx × Bool)} (p : DonePayload) (i : ℕ)
      (invoker : Option Bytes) (hepoch : p.epoch = b.turnEpoch) (hkind : p.dispatchKind = .subturn)
      (hfind : b.findSlot p.targetAgent p.mentionIdx = some i)
      (hfans : FansOut p.targetAgent
        { (b.settle i (.complete p.output)).maybeResume with invokerToResume := invoker }
        (b.plan p) faults b' started) :
      Handled b faults (.done p) b' started
  | timedOut (epoch : UInt64) (invoker target : Bytes) (mentionIdx : UInt8) (i : ℕ)
      (hfind : b.findSlot target mentionIdx = some i) :
      Handled b faults (.subturnTimeout epoch invoker target mentionIdx)
        (b.settle i SubturnSlot.timeOut).maybeResume []

/-- An event that does not end a sub-turn. -/
theorem Handled.other {b : Book} {faults : List (Option DispatchFault)} {ue : UserEvent}
    (hue : ∀ p, ue ≠ .done p) : Handled b faults ue b [] :=
  .quiet ue fun p hp => absurd hp (hue p)

theorem handled_onDone (host : Host) (self : Root) (faults : List (Option DispatchFault))
    (p : DonePayload) (hepoch : p.epoch = self.turnEpoch) :
    Handled self.book faults (.done p) (self.onDone host.toFormat host.markdown faults p).1.book
      (self.onDone host.toFormat host.markdown faults p).2 := by
  -- what comes after the sub-turns is about lines
  cases hkind : p.dispatchKind with
  | subturn =>
    have hbook : (self.onDone host.toFormat host.markdown faults p).1.book =
        (self.onSubturnDone faults p).1.book := by
      rw [Root.onDone, hkind]
      exact Root.book_rerenderTurnTools _ _ _
    have hstarted : (self.onDone host.toFormat host.markdown faults p).2 =
        (self.onSubturnDone faults p).2 := by
      rw [Root.onDone, hkind]
    rw [hbook, hstarted]
    rw [Root.onSubturnDone]
    split
    · rename_i hinvoker
      refine .quiet _ fun q hq _ _ hne => ?_
      obtain rfl := UserEvent.done.inj hq
      exact absurd hinvoker hne
    · rename_i invoker hinvoker
      split
      · rename_i hfind
        refine .quiet _ fun q hq _ _ _ => ?_
        obtain rfl := UserEvent.done.inj hq
        exact hfind
      · rename_i i hfind
        obtain ⟨next, hfans⟩ := fansOut_scanAndFanOut faults p
          (self.settleSlot i (.complete p.output)).maybeResume
        rw [book_maybeResume] at hfans
        have hplan := plan_maybeResume self.book i (.complete p.output) p
        exact .completed p i next hepoch hkind hfind (hplan ▸ hfans)
  | primary =>
    have hbook : (self.onDone host.toFormat host.markdown faults p).1.book =
        (self.scanAndFanOut faults p).1.book := by
      rw [Root.onDone, hkind]
      exact Root.book_rerenderTurnTools _ _ _
    have hstarted : (self.onDone host.toFormat host.markdown faults p).2 =
        (self.scanAndFanOut faults p).2 := by
      rw [Root.onDone, hkind]
    obtain ⟨next, hfans⟩ := fansOut_scanAndFanOut faults p self
    rw [hbook, hstarted]
    exact .scanned p next hepoch (by rw [hkind]; simp) hfans
  | resume_ =>
    have hbook : (self.onDone host.toFormat host.markdown faults p).1.book =
        (self.scanAndFanOut faults p).1.book := by
      rw [Root.onDone, hkind]
      exact Root.book_rerenderTurnTools _ _ _
    have hstarted : (self.onDone host.toFormat host.markdown faults p).2 =
        (self.scanAndFanOut faults p).2 := by
      rw [Root.onDone, hkind]
    obtain ⟨next, hfans⟩ := fansOut_scanAndFanOut faults p self
    rw [hbook, hstarted]
    exact .scanned p next hepoch (by rw [hkind]; simp) hfans

/-- **The handling of an event.** -/
theorem handled_handleUserEvent (host : Host) (self : Root) (now : ℤ)
    (faults : List (Option DispatchFault)) (ue : UserEvent) :
    Handled self.book faults ue (self.handleUserEvent host now faults ue).1.book
      (self.handleUserEvent host now faults ue).2 := by
  unfold Root.handleUserEvent
  split
  · rename_i hstale
    refine .quiet ue fun p hp hepoch _ _ => ?_
    rw [hp, Root.dropStaleIfNeeded] at hstale
    have hepoch : p.epoch = self.turnEpoch := hepoch
    simp [UserEvent.epoch, hepoch] at hstale
  · rename_i hfresh
    cases ue with
    | chunk epoch agent text =>
      rw [Root.book_onChunk]
      exact .other fun _ h => nomatch h
    | toolStart epoch agent id name argsSummary =>
      rw [Root.book_onToolStart]
      exact .other fun _ h => nomatch h
    | toolProgress epoch agent id bytes =>
      rw [Root.book_onToolProgress]
      exact .other fun _ h => nomatch h
    | toolDone epoch agent id name output isError =>
      rw [Root.book_onToolDone]
      exact .other fun _ h => nomatch h
    | askUser epoch question => exact .other fun _ h => nomatch h
    | askUserCancel => exact .other fun _ h => nomatch h
    | usage epoch ctxUsed => exact .other fun _ h => nomatch h
    | error epoch message => exact .other fun _ h => nomatch h
    | done p =>
      refine handled_onDone host self faults p ?_
      by_contra hne
      refine hfresh ?_
      simp [Root.dropStaleIfNeeded, UserEvent.epoch, hne]
    | subturnTimeout epoch invoker target mentionIdx =>
      show Handled _ _ _ (self.onSubturnTimeout target mentionIdx).book []
      rw [Root.onSubturnTimeout]
      split
      · exact .other fun _ h => nomatch h
      · rename_i i hfind
        rw [book_maybeResume]
        exact .timedOut epoch invoker target mentionIdx i hfind

/-- **What a line of the user does to the sub-turns**: nothing, or a turn begins, with its worker or
without. -/
inductive Submitted (b : Book) : Book → List WorkerCtx → Prop
  | kept : Submitted b b []
  | failed : Submitted b b.begin []
  | begun (sessionId : Bytes) : Submitted b { b.begin with serials := b.serials + 1 }
      [{ sessionId, epoch := b.turnEpoch + 1, serial := b.serials, turn := b.turns + 1 }]

theorem submitted_submitBody (self : Root) (now : ℤ) (spawnError : Option Bytes) (text : Bytes) :
    Submitted self.book (self.submitBody now spawnError text).1.book
      (self.submitBody now spawnError text).2 := by
  rw [Root.submitBody]
  split
  · exact .kept
  · cases spawnError with
    | none => exact .begun self.sessionId
    | some errorName => exact .failed

/-- **A line of the user.** -/
theorem submitted_onSubmit (host : Host) (self : Root) (now : ℤ) (spawnError : Option Bytes)
    (text : Bytes) :
    Submitted self.book (self.onSubmit host now spawnError text).1.book
      (self.onSubmit host now spawnError text).2 := by
  rw [Root.onSubmit]
  split
  · exact .kept
  · split
    · exact .kept
    · split
      · rw [Root.book_dispatchCommand]
        exact .kept
      · dsimp only
        split
        · exact submitted_submitBody self now spawnError text
        · split
          · split
            · exact .kept
            · exact submitted_submitBody (self.setActiveAgent _) now spawnError text
          · exact .kept

end Tui
end TigerClaw
