import TigerClaw.Context.DefaultEngine
import TigerClaw.Library.Digits
import TigerClaw.Library.StepMachine
import Mathlib.Data.List.Nodup

/-!
# Compaction loses nothing, while the ids are in order

The runner numbers the messages it ingests, and a compaction marker covers the ids between two of
them.  The numbers are in order of arrival; as strings the ids are not, since `msg-10` comes before
`msg-2`.  So a marker can miss a message that its summary is about, and cover one that came later.

* `LiveAgentRunner`: the engine with its counter.  `Archive`: the runner together with the messages
  that went into each summary.
* `Archive.Partitioned`: every message is either in the history or in one summary.
* `OrderAgrees`: the ids that a call compares are in the order of arrival.
* `partitioned_iff`: a run keeps the messages partitioned exactly if its calls do so.
-/

namespace TigerClaw
namespace Context

open DefaultEngine Digits StepMachine

/-! ## The runner -/

/-- What `LiveAgentRunner` has to do with the engine; the counter is `next_message_id`. -/
structure LiveAgentRunner where
  contextEngine : DefaultEngine := {}
  counter : UInt64 := 0

def messageId (id : ℕ) : Bytes := ascii "msg-" ++ decimal id

/-- `nextMessageId`. -/
def LiveAgentRunner.nextMessageId (self : LiveAgentRunner) :
    Outcome PlugError (Bytes × LiveAgentRunner) :=
  if self.counter.toNat + 1 < UInt64.size then
    .ok (messageId self.counter.toNat, { self with counter := self.counter + 1 })
  else .trap .overflow

inductive Call where
  | ingest (sessionId : Bytes) (role : Role) (content : Bytes)
      (blocks : Option (List ContentBlock)) (isHeartbeat : Bool)
  | compact (params : CompactParams) (nowNs : ℤ)

/-- One call of the engine, with an id from the counter for a new message. -/
def LiveAgentRunner.call (self : LiveAgentRunner) : Call → Outcome PlugError LiveAgentRunner
  | .ingest sessionId role content blocks isHeartbeat => do
    let (messageId, self) ← self.nextMessageId
    let params : StoredMsg := { sessionId, messageId, role, content, blocks, isHeartbeat }
    pure { self with contextEngine := (self.contextEngine.ingest params).2 }
  | .compact params nowNs => do
    let (_, engine) ← self.contextEngine.compact params nowNs
    pure { self with contextEngine := engine }

/-- **What `ingest` does under a new id**: the message comes last, and the counter goes on. -/
theorem LiveAgentRunner.call_ingest {self self' : LiveAgentRunner} {sessionId content : Bytes}
    {role : Role} {blocks : Option (List ContentBlock)} {isHeartbeat : Bool}
    (hfresh : ∀ m ∈ self.contextEngine.messages, m.messageId ≠ messageId self.counter.toNat)
    (h : self.call (.ingest sessionId role content blocks isHeartbeat) = .ok self') :
    self'.contextEngine.messages = self.contextEngine.messages ++
        [⟨sessionId, messageId self.counter.toNat, role, content, blocks, isHeartbeat⟩] ∧
      self'.contextEngine.markers = self.contextEngine.markers ∧
      self'.counter.toNat = self.counter.toNat + 1 := by
  obtain ⟨⟨id, next⟩, hnext, h⟩ := Outcome.bind_eq_ok.mp h
  rw [LiveAgentRunner.nextMessageId] at hnext
  split at hnext
  swap
  · cases hnext
  rename_i hroom
  obtain ⟨rfl, rfl⟩ := Prod.mk.inj (Outcome.ok.inj hnext)
  obtain rfl := Outcome.ok.inj h
  have hnew : (self.contextEngine.messages.any fun m => m.sessionId == sessionId &&
      m.messageId == messageId self.counter.toNat) = false := by
    refine List.any_eq_false.mpr fun m hm hboth => ?_
    rw [Bool.and_eq_true, beq_iff_eq, beq_iff_eq] at hboth
    exact hfresh m hm hboth.2
  have hcounter : (self.counter + 1).toNat = self.counter.toNat + 1 := by
    rw [UInt64.toNat_add, UInt64.toNat_one]
    exact Nat.mod_eq_of_lt hroom
  refine ⟨?_, ?_, hcounter⟩
  · show (self.contextEngine.ingest _).2.messages = _
    rw [ingest, hnew, if_neg Bool.false_ne_true]
  · show (self.contextEngine.ingest _).2.markers = _
    rw [ingest, hnew, if_neg Bool.false_ne_true]

/-- The runner, with the messages that were written into the summary of each marker. -/
structure Archive where
  runner : LiveAgentRunner := {}
  written : List (CompactionMarker × List StoredMsg) := []

namespace Archive

abbrev engine (self : Archive) : DefaultEngine := self.runner.contextEngine

/-- The markers that a call has appended, with the messages it wrote into their summary. -/
def newLines (self : Archive) (after : DefaultEngine) :
    Call → List (CompactionMarker × List StoredMsg)
  | .ingest .. => []
  | .compact params _ =>
    (after.markers.items.drop self.engine.markers.items.length).map fun mk =>
      (mk, ((self.engine.compactableRange params.sessionId).map
        (self.engine.summarized params.sessionId)).getD [])

def step (self : Archive) (c : Call) : Option Archive :=
  (self.runner.call c).toOption.map fun runner =>
    { runner, written := self.written ++ self.newLines runner.contextEngine c }

/-- How many markers of its session have a line for the message in their summary. -/
def timesWritten (self : Archive) (m : StoredMsg) : ℕ :=
  self.written.countP fun w => decide (w.1.sessionId = m.sessionId ∧ m ∈ w.2)

/-- **Nothing is lost, and nothing is there twice**: a message that is no heartbeat is either a
section of the history, or it has its line in one summary. -/
def Partitioned (self : Archive) : Prop :=
  ∀ m ∈ self.engine.messages, m.isHeartbeat = false →
    m ∈ self.engine.history m.sessionId ∧ self.timesWritten m = 0 ∨
      m ∉ self.engine.history m.sessionId ∧ self.timesWritten m = 1

/-- The ids that the call compares are, as strings, in the order of arrival: a new message is not
under an earlier marker, and of the messages in view just those that came before the end of a new
marker are under it. -/
def OrderAgrees (self : Archive) : Call → Prop
  | .ingest sessionId _ _ _ isHeartbeat => isHeartbeat = false →
    self.engine.markers.coversSession sessionId (messageId self.runner.counter.toNat) = false
  | .compact params _ => ∀ range first stop, self.engine.Writes params range first stop →
    ∀ i m, self.engine.messages[i]? = some m → self.engine.isCompactable params.sessionId m →
      ((lessThan m.messageId first.messageId = false ∧
        lessThan m.messageId stop.messageId = true) ↔ i < range.stop)

/-! ## What a call does -/

/-- What the archive knows about its messages and its summaries. -/
structure Sound (a : Archive) : Prop where
  numbered : ∃ ks : List ℕ, a.engine.messages.map (·.messageId) = ks.map messageId ∧
    ks.Pairwise (· < ·) ∧ ∀ k ∈ ks, k < a.runner.counter.toNat
  recorded : a.written.map Prod.fst = a.engine.markers.items
  texts : ∀ w ∈ a.written, w.1.summaryText = summaryText w.2
  lines : ∀ w ∈ a.written, ∀ m ∈ w.2, m ∈ a.engine.messages ∧ m.sessionId = w.1.sessionId
  starts : ∀ w ∈ a.written, ∃ m ∈ w.2, m.messageId = w.1.rangeStartId
  stops : ∀ w ∈ a.written, ∃ m ∈ a.engine.messages, m.messageId = w.1.rangeEndId

theorem messageId_injective : Function.Injective messageId := by
  intro i j h
  have hdecimal : decimal i = decimal j := List.append_cancel_left h
  have hparse := parseUnsigned_decimal i
  rw [hdecimal, parseUnsigned_decimal] at hparse
  exact (Option.some.inj hparse).symm

variable {a a' : Archive}

theorem Sound.nodup (h : a.Sound) : (a.engine.messages.map (·.messageId)).Nodup := by
  obtain ⟨ks, hids, hlt, -⟩ := h.numbered
  rw [hids]
  exact (hlt.imp Nat.ne_of_lt).map _ fun _ _ hne heq => hne (messageId_injective heq)

/-- The first messages are those at the first indices. -/
theorem Sound.mem_take_iff (h : a.Sound) {i : ℕ} {m : StoredMsg}
    (hi : a.engine.messages[i]? = some m) (n : ℕ) : m ∈ a.engine.messages.take n ↔ i < n := by
  obtain ⟨hlt, rfl⟩ := List.getElem?_eq_some_iff.mp hi
  constructor
  · intro hmem
    obtain ⟨j, hj, heq⟩ := List.mem_take_iff_getElem.mp hmem
    have hij := (List.Nodup.of_map _ h.nodup).getElem_inj_iff.mp heq
    omega
  · exact fun hin => List.mem_take_iff_getElem.mpr ⟨i, by omega, rfl⟩

/-- The id that the counter has next is new. -/
theorem Sound.fresh (h : a.Sound) {m : StoredMsg} (hm : m ∈ a.engine.messages) :
    m.messageId ≠ messageId a.runner.counter.toNat := by
  obtain ⟨ks, hids, -, hbound⟩ := h.numbered
  obtain ⟨k, hk, hid⟩ := List.mem_map.mp (hids ▸ List.mem_map_of_mem hm)
  intro heq
  have hkc := messageId_injective (hid.trans heq)
  exact absurd (hbound k hk) (by omega)

theorem mem_history {engine : DefaultEngine} {sessionId : Bytes} {m : StoredMsg} :
    m ∈ engine.history sessionId ↔ m ∈ engine.messages ∧ m.sessionId = sessionId ∧
      engine.markers.coversSession sessionId m.messageId = false := by
  rw [DefaultEngine.history, List.mem_filter, isVisible, Bool.and_eq_true, beq_iff_eq,
    Bool.not_eq_true']

theorem isCompactable_iff {engine : DefaultEngine} {sessionId : Bytes} {m : StoredMsg} :
    engine.isCompactable sessionId m = true ↔ m.sessionId = sessionId ∧
      engine.markers.coversSession sessionId m.messageId = false ∧ m.isHeartbeat = false := by
  rw [isCompactable, isVisible, Bool.and_eq_true, Bool.and_eq_true, beq_iff_eq, Bool.not_eq_true',
    Bool.not_eq_true', and_assoc]

/-- A new message comes last, under the next id. -/
theorem step_ingest (h : a.Sound) {sessionId content : Bytes} {role : Role}
    {blocks : Option (List ContentBlock)} {isHeartbeat : Bool}
    (hstep : a.step (.ingest sessionId role content blocks isHeartbeat) = some a') :
    ∃ m : StoredMsg, m.sessionId = sessionId ∧ m.isHeartbeat = isHeartbeat ∧
      m.messageId = messageId a.runner.counter.toNat ∧
      a'.engine.messages = a.engine.messages ++ [m] ∧ a'.engine.markers = a.engine.markers ∧
      a'.runner.counter.toNat = a.runner.counter.toNat + 1 ∧ a'.written = a.written := by
  obtain ⟨runner, hcall, rfl⟩ := Option.map_eq_some_iff.mp hstep
  rw [Outcome.toOption_eq_some] at hcall
  obtain ⟨hmessages, hmarkers, hcounter⟩ := LiveAgentRunner.call_ingest (fun m => h.fresh) hcall
  exact ⟨_, rfl, rfl, rfl, hmessages, hmarkers, hcounter, List.append_nil _⟩

/-- A compaction leaves everything as it is, or it appends a marker, and the lines under it. -/
theorem step_compact {params : CompactParams} {nowNs : ℤ}
    (hstep : a.step (.compact params nowNs) = some a') :
    (a' = a ∧ ∀ range first stop, a.engine.Writes params range first stop →
      ∃ mk ∈ a.engine.markers.items,
        mk.sessionId = params.sessionId ∧ mk.rangeStartId = first.messageId) ∨
    ∃ range first stop marker, a.engine.Writes params range first stop ∧
      marker.sessionId = params.sessionId ∧ marker.rangeStartId = first.messageId ∧
      marker.rangeEndId = stop.messageId ∧
      marker.summaryText = summaryText (a.engine.summarized params.sessionId range) ∧
      a'.engine.messages = a.engine.messages ∧
      a'.engine.markers.items = a.engine.markers.items ++ [marker] ∧
      a'.runner.counter = a.runner.counter ∧
      a'.written = a.written ++ [(marker, a.engine.summarized params.sessionId range)] := by
  obtain ⟨runner, hcall, rfl⟩ := Option.map_eq_some_iff.mp hstep
  rw [Outcome.toOption_eq_some] at hcall
  obtain ⟨⟨res, engine⟩, hcompact, hcall⟩ := Outcome.bind_eq_ok.mp hcall
  obtain rfl := Outcome.ok.inj hcall
  have hidle : ∀ engine' : DefaultEngine, engine' = a.engine →
      ({ runner := { a.runner with contextEngine := engine' }
         written := a.written ++ a.newLines engine' (.compact params nowNs) } : Archive) = a := by
    rintro _ rfl
    simp [newLines]
  rcases compact_eq_ok hcompact with ⟨rfl, hnot⟩ | ⟨range, first, stop, marker, hwrites, hsession,
    hstart, hstop, htext, rfl⟩
  · exact .inl ⟨hidle _ rfl, fun range first stop hwrites => absurd hwrites (hnot _ _ _)⟩
  by_cases hthere : (a.engine.markers.items.any fun existing =>
      existing.sessionId == marker.sessionId && existing.rangeStartId == marker.rangeStartId &&
        existing.rangeEndId == marker.rangeEndId) = true
  · refine .inl ⟨hidle _ (by rw [MarkerLog.append, if_pos hthere]), ?_⟩
    intro range' first' stop' hwrites'
    obtain ⟨rfl, rfl, -⟩ := hwrites.unique hwrites'
    obtain ⟨mk, hmk, heq⟩ := List.any_eq_true.mp hthere
    rw [Bool.and_eq_true, Bool.and_eq_true, beq_iff_eq, beq_iff_eq, beq_iff_eq] at heq
    exact ⟨mk, hmk, heq.1.1.trans hsession, heq.1.2.trans hstart⟩
  · have happend : (a.engine.markers.append marker).items = a.engine.markers.items ++ [marker] := by
      rw [MarkerLog.append, if_neg hthere]
    refine .inr ⟨range, first, stop, marker, hwrites, hsession, hstart, hstop, htext, rfl, happend,
      rfl, ?_⟩
    show a.written ++ (((a.engine.markers.append marker).items.drop _).map _) = _
    rw [happend, List.drop_left, hwrites.range_eq]
    rfl

theorem sound_init : ({} : Archive).Sound where
  numbered := ⟨[], rfl, List.Pairwise.nil, by simp⟩
  recorded := rfl
  texts := by simp
  lines := by simp
  starts := by simp
  stops := by simp

/-- What a range of the session takes. -/
theorem summarized_of_writes {params : CompactParams} {range : MessageRange}
    {first stop : StoredMsg} (h : a.engine.Writes params range first stop) :
    first ∈ a.engine.summarized params.sessionId range ∧
      ∀ m, m ∈ a.engine.summarized params.sessionId range ↔
        a.engine.isCompactable params.sessionId m = true ∧
          m ∈ a.engine.messages.take range.stop := by
  obtain ⟨hlong, hfirst, -, -, htake, hsummarized⟩ := compactableRange_eq_some h.range_eq
  constructor
  · rw [h.first_eq] at hfirst
    have hmem := List.mem_of_getElem? (List.getElem?_take_of_lt
      (show 0 < (a.engine.compactable params.sessionId).length - 2 by omega) |>.trans hfirst.symm)
    rw [hsummarized]
    exact hmem
  · intro m
    rw [hsummarized, ← htake, List.mem_filter, and_comm]

theorem Sound.step {c : Call} (h : a.Sound) (hstep : a.step c = some a') : a'.Sound := by
  cases c with
  | ingest sessionId role content blocks isHeartbeat =>
    obtain ⟨m, -, -, hid, hmessages, hmarkers, hcounter, hwritten⟩ := step_ingest h hstep
    obtain ⟨ks, hids, hlt, hbound⟩ := h.numbered
    refine ⟨⟨ks ++ [a.runner.counter.toNat], ?_, ?_, ?_⟩, ?_, ?_, ?_, ?_, ?_⟩
    · rw [hmessages, List.map_append, List.map_append, hids, List.map_singleton, hid,
        List.map_singleton]
    · refine List.pairwise_append.mpr ⟨hlt, List.pairwise_singleton _ _, ?_⟩
      intro k hk k' hk'
      rw [List.mem_singleton.mp hk']
      exact hbound k hk
    · intro k hk
      rw [hcounter]
      rcases List.mem_append.mp hk with hk | hk
      · exact Nat.lt_succ_of_lt (hbound k hk)
      · rw [List.mem_singleton.mp hk]
        exact Nat.lt_succ_self _
    · rw [hwritten, hmarkers, h.recorded]
    · rw [hwritten]
      exact h.texts
    · rw [hwritten, hmessages]
      exact fun w hw m hm =>
        ⟨List.mem_append_left _ (h.lines w hw m hm).1, (h.lines w hw m hm).2⟩
    · rw [hwritten]
      exact h.starts
    · rw [hwritten, hmessages]
      intro w hw
      obtain ⟨m', hm', hid'⟩ := h.stops w hw
      exact ⟨m', List.mem_append_left _ hm', hid'⟩
  | compact params nowNs =>
    rcases step_compact hstep with ⟨rfl, -⟩ | ⟨range, first, stop, marker, hwrites, hsession,
      hstart, hstop, htext, hmessages, hmarkers, hcounter, hwritten⟩
    · exact h
    obtain ⟨hfirst, htaken⟩ := summarized_of_writes hwrites
    refine ⟨by rw [hmessages, hcounter]; exact h.numbered, ?_, ?_, ?_, ?_, ?_⟩
    · rw [hwritten, hmarkers, List.map_append, h.recorded]
      rfl
    · rw [hwritten]
      exact List.forall_mem_append.mpr ⟨h.texts, by simpa using htext⟩
    · rw [hwritten, hmessages]
      refine List.forall_mem_append.mpr ⟨h.lines, ?_⟩
      rintro w hw m hm
      obtain rfl := List.mem_singleton.mp hw
      obtain ⟨hcompactable, hmem⟩ := (htaken m).mp hm
      exact ⟨List.mem_of_mem_take hmem, (isCompactable_iff.mp hcompactable).1.trans hsession.symm⟩
    · rw [hwritten]
      refine List.forall_mem_append.mpr ⟨h.starts, ?_⟩
      rintro w hw
      obtain rfl := List.mem_singleton.mp hw
      exact ⟨first, hfirst, hstart.symm⟩
    · rw [hwritten, hmessages]
      refine List.forall_mem_append.mpr ⟨h.stops, ?_⟩
      rintro w hw
      obtain rfl := List.mem_singleton.mp hw
      exact ⟨stop, List.mem_of_getElem? hwrites.stop_eq, hstop.symm⟩

/-! ## One call -/

theorem timesWritten_concat {w : CompactionMarker × List StoredMsg}
    (hwritten : a'.written = a.written ++ [w]) (m : StoredMsg) :
    a'.timesWritten m =
      a.timesWritten m + if w.1.sessionId = m.sessionId ∧ m ∈ w.2 then 1 else 0 := by
  rw [timesWritten, hwritten, List.countP_append, timesWritten, List.countP_singleton]
  simp only [decide_eq_true_eq]

theorem coversSession_concat {log log' : MarkerLog} {marker : CompactionMarker}
    (h : log'.items = log.items ++ [marker]) (sessionId id : Bytes) :
    log'.coversSession sessionId id =
      (log.coversSession sessionId id || marker.covers sessionId id) := by
  simp only [MarkerLog.coversSession, h, List.any_append, List.any_cons, List.any_nil,
      Bool.or_false]

/-- A message that no summary has taken yet is not in any. -/
theorem timesWritten_eq_zero {m : StoredMsg} :
    a.timesWritten m = 0 ↔ ∀ w ∈ a.written, w.1.sessionId = m.sessionId → m ∉ w.2 := by
  rw [timesWritten, List.countP_eq_zero]
  simp only [decide_eq_true_eq, not_and]

theorem ingest_partitioned_iff (h : a.Sound) (hp : a.Partitioned) {sessionId content : Bytes}
    {role : Role} {blocks : Option (List ContentBlock)} {isHeartbeat : Bool}
    (hstep : a.step (.ingest sessionId role content blocks isHeartbeat) = some a') :
    a'.Partitioned ↔ a.OrderAgrees (.ingest sessionId role content blocks isHeartbeat) := by
  obtain ⟨m, rfl, rfl, hid, hmessages, hmarkers, -, hwritten⟩ := step_ingest h hstep
  have hnew : m ∉ a.engine.messages := fun hm => h.fresh hm hid
  have hunwritten : a'.timesWritten m = 0 := timesWritten_eq_zero.mpr fun w hw _ hmem =>
    hnew (h.lines w (hwritten ▸ hw) m hmem).1
  have hhistory : ∀ m', m' ∈ a'.engine.history m'.sessionId ↔
      (m' ∈ a.engine.messages ∨ m' = m) ∧
        a.engine.markers.coversSession m'.sessionId m'.messageId = false := by
    intro m'
    rw [mem_history, hmessages, hmarkers, List.mem_append, List.mem_singleton]
    exact and_congr_right fun _ => and_iff_right rfl
  constructor
  · intro hp' hbeat
    rw [← hid]
    rcases hp' m (by rw [hmessages]; simp) hbeat with ⟨hmem, -⟩ | ⟨-, hone⟩
    · exact ((hhistory m).mp hmem).2
    · exact absurd (hunwritten.symm.trans hone) Nat.zero_ne_one
  · intro hagrees m' hm' hbeat
    rw [hmessages, List.mem_append, List.mem_singleton] at hm'
    rcases hm' with hm' | rfl
    · have hsame : a'.timesWritten m' = a.timesWritten m' := by
        rw [timesWritten, timesWritten, hwritten]
      have hold := hp m' hm' hbeat
      rw [mem_history] at hold
      rw [hhistory, hsame]
      simpa [hm'] using hold
    · refine .inl ⟨(hhistory m').mpr ⟨.inr rfl, ?_⟩, hunwritten⟩
      rw [hid]
      exact hagrees hbeat

/-- Among messages in view, the marker of a range covers what its summary has taken. -/
theorem compact_partitioned_iff' (hp : a.Partitioned) {sessionId : Bytes}
    {marker : CompactionMarker} {taken : List StoredMsg} (hsession : marker.sessionId = sessionId)
    (htaken : ∀ m ∈ taken, a.engine.isCompactable sessionId m = true)
    (hmessages : a'.engine.messages = a.engine.messages)
    (hmarkers : a'.engine.markers.items = a.engine.markers.items ++ [marker])
    (hwritten : a'.written = a.written ++ [(marker, taken)]) :
    a'.Partitioned ↔ ∀ m ∈ a.engine.messages, a.engine.isCompactable sessionId m = true →
      (marker.covers sessionId m.messageId = true ↔ m ∈ taken) := by
  have hhistory : ∀ m, m ∈ a'.engine.history m.sessionId ↔
      m ∈ a.engine.history m.sessionId ∧ marker.covers m.sessionId m.messageId = false := by
    intro m
    rw [mem_history, mem_history, hmessages, coversSession_concat hmarkers, Bool.or_eq_false_iff]
    tauto
  have htimes := timesWritten_concat (w := (marker, taken)) hwritten
  have hview : ∀ m ∈ a.engine.messages, a.engine.isCompactable sessionId m = true →
      m ∈ a.engine.history m.sessionId ∧ a.timesWritten m = 0 := by
    intro m hm hcompactable
    obtain ⟨rfl, hcovers, hbeat⟩ := isCompactable_iff.mp hcompactable
    have hmem : m ∈ a.engine.history m.sessionId := mem_history.mpr ⟨hm, rfl, hcovers⟩
    rcases hp m hm hbeat with hin | hout
    · exact hin
    · exact absurd hmem hout.1
  constructor
  · intro hp' m hm hcompactable
    obtain ⟨rfl, -, hbeat⟩ := isCompactable_iff.mp hcompactable
    obtain ⟨hmem, hzero⟩ := hview m hm hcompactable
    have hnow := hp' m (hmessages ▸ hm) hbeat
    rw [hhistory, htimes, hzero] at hnow
    by_cases htake : m ∈ taken
    · cases hc : marker.covers m.sessionId m.messageId <;>
          simp [hmem, hsession, htake, hc] at hnow ⊢
    · cases hc : marker.covers m.sessionId m.messageId <;> simp [hmem, htake, hc] at hnow ⊢
  · intro hcover m hm hbeat
    rw [hmessages] at hm
    rw [hhistory, htimes]
    by_cases hcompactable : a.engine.isCompactable sessionId m = true
    · obtain ⟨hmem, hzero⟩ := hview m hm hcompactable
      obtain rfl := (isCompactable_iff.mp hcompactable).1
      have hiff := hcover m hm hcompactable
      by_cases htake : m ∈ taken
      · exact .inr ⟨fun hin => by simp [hiff.mpr htake] at hin, by simp [hzero, hsession, htake]⟩
      · have hc : marker.covers m.sessionId m.messageId = false :=
          Bool.eq_false_iff.mpr fun hc => htake (hiff.mp hc)
        exact .inl ⟨⟨hmem, hc⟩, by simp [hzero, htake]⟩
    -- the compaction has not taken the message, and neither the marker nor a line is about it
    · have htake : m ∉ taken := fun htake => hcompactable (htaken m htake)
      rw [if_neg fun hboth => htake hboth.2, Nat.add_zero]
      rcases hp m hm hbeat with ⟨hmem, hzero⟩ | ⟨hmem, hone⟩
      · have hother : m.sessionId ≠ sessionId := by
          rintro rfl
          exact hcompactable (isCompactable_iff.mpr ⟨rfl, (mem_history.mp hmem).2.2, hbeat⟩)
        have hc : marker.covers m.sessionId m.messageId = false := by
          rw [CompactionMarker.covers, hsession, beq_false_of_ne hother.symm, Bool.false_and,
            Bool.false_and]
        exact .inl ⟨⟨hmem, hc⟩, hzero⟩
      · exact .inr ⟨fun hin => hmem hin.1, hone⟩

theorem compact_partitioned_iff (h : a.Sound) (hp : a.Partitioned) {params : CompactParams}
    {nowNs : ℤ} (hstep : a.step (.compact params nowNs) = some a') :
    a'.Partitioned ↔ a.OrderAgrees (.compact params nowNs) := by
  rcases step_compact hstep with ⟨rfl, hrepeated⟩ | ⟨range, first, stop, marker, hwrites, hsession,
    hstart, hstop, -, hmessages, hmarkers, -, hwritten⟩
  · -- a marker over the same messages would be in the record, with the first of them in its lines
    refine iff_of_true hp fun range first stop hwrites => ?_
    obtain ⟨mk, hmk, hsession, hstart⟩ := hrepeated range first stop hwrites
    rw [← h.recorded] at hmk
    obtain ⟨w, hw, rfl⟩ := List.mem_map.mp hmk
    obtain ⟨m, hm, hid⟩ := h.starts w hw
    obtain ⟨hfirst, htaken⟩ := summarized_of_writes hwrites
    obtain ⟨hcompactable, hmem⟩ := (htaken first).mp hfirst
    obtain ⟨hmsession, hcovers, hbeat⟩ := isCompactable_iff.mp hcompactable
    have hsame : m = first := List.inj_on_of_nodup_map h.nodup (h.lines w hw m hm).1
      (List.mem_of_mem_take hmem) (hid.trans hstart)
    subst hsame
    rcases hp m (List.mem_of_mem_take hmem) hbeat with ⟨-, hzero⟩ | ⟨hout, -⟩
    · exact absurd hm (timesWritten_eq_zero.mp hzero w hw (hsession.trans hmsession.symm))
    · exact absurd (mem_history.mpr ⟨List.mem_of_mem_take hmem, rfl, hmsession ▸ hcovers⟩) hout
  · obtain ⟨-, htaken⟩ := summarized_of_writes hwrites
    rw [compact_partitioned_iff' hp hsession (fun m hm => ((htaken m).mp hm).1) hmessages hmarkers
      hwritten]
    have hcovers : ∀ id, marker.covers params.sessionId id = true ↔
        lessThan id first.messageId = false ∧ lessThan id stop.messageId = true := by
      intro id
      rw [CompactionMarker.covers, hsession, hstart, hstop, beq_self_eq_true, Bool.true_and,
        Bool.and_eq_true, Bool.not_eq_true']
    constructor
    · intro hcover range' first' stop' hwrites' i m hi hcompactable
      obtain ⟨rfl, rfl, rfl⟩ := hwrites.unique hwrites'
      rw [← hcovers, hcover m (List.mem_of_getElem? hi) hcompactable, htaken,
        h.mem_take_iff hi range.stop]
      exact and_iff_right hcompactable
    · intro hagrees m hm hcompactable
      obtain ⟨i, hi⟩ := List.getElem?_of_mem hm
      rw [hcovers, hagrees range first stop hwrites i m hi hcompactable, htaken,
        h.mem_take_iff hi range.stop]
      exact (and_iff_right hcompactable).symm

theorem partitioned_step_iff {c : Call} (h : a.Sound) (hp : a.Partitioned)
    (hstep : a.step c = some a') : a'.Partitioned ↔ a.OrderAgrees c := by
  cases c with
  | ingest => exact ingest_partitioned_iff h hp hstep
  | compact => exact compact_partitioned_iff h hp hstep

/-! ## The first ten messages -/

/-- Ids of one digit are in the order of their numbers. -/
theorem lessThan_messageId {i j : ℕ} (hi : i < 10) (hj : j < 10) :
    lessThan (messageId i) (messageId j) = decide (i < j) := by
  have hall : ∀ i < 10, ∀ j < 10, lessThan (messageId i) (messageId j) = decide (i < j) := by
    decide +kernel
  exact hall i hi j hj

/-- Where messages stand and how their ids compare, as long as there are ten at most. -/
theorem Sound.lessThan_iff (h : a.Sound) (hfew : a.runner.counter.toNat ≤ 10) {i j : ℕ}
    {m m' : StoredMsg} (hi : a.engine.messages[i]? = some m)
    (hj : a.engine.messages[j]? = some m') :
    lessThan m.messageId m'.messageId = true ↔ i < j := by
  obtain ⟨ks, hids, hlt, hbound⟩ := h.numbered
  have hnumber : ∀ (i : ℕ) (m : StoredMsg), a.engine.messages[i]? = some m →
      ∃ k : ℕ, ks[i]? = some k ∧ k < 10 ∧ m.messageId = messageId k := by
    intro i m hi
    have hget : (ks.map messageId)[i]? = some m.messageId := by
      rw [← hids, List.getElem?_map, hi]
      rfl
    rw [List.getElem?_map] at hget
    obtain ⟨k, hk, hid⟩ := Option.map_eq_some_iff.mp hget
    have := hbound k (List.mem_of_getElem? hk)
    exact ⟨k, hk, by omega, hid.symm⟩
  obtain ⟨k, hk, hk10, hid⟩ := hnumber i m hi
  obtain ⟨k', hk', hk10', hid'⟩ := hnumber j m' hj
  rw [hid, hid', lessThan_messageId hk10 hk10', decide_eq_true_eq]
  obtain ⟨hilt, rfl⟩ := List.getElem?_eq_some_iff.mp hk
  obtain ⟨hjlt, rfl⟩ := List.getElem?_eq_some_iff.mp hk'
  have hpair := List.pairwise_iff_getElem.mp hlt
  rcases lt_trichotomy i j with hij | rfl | hij
  · exact iff_of_true (hpair i j hilt hjlt hij) hij
  · exact iff_of_false (lt_irrefl _) (lt_irrefl _)
  · exact iff_of_false (lt_asymm (hpair j i hjlt hilt hij)) (lt_asymm hij)

/-- The ids of the first ten messages are in order. -/
theorem orderAgrees_of_few (h : a.Sound) {c : Call} (hstep : a.step c = some a')
    (hfew : a'.runner.counter.toNat ≤ 10) : a.OrderAgrees c := by
  cases c with
  | ingest sessionId role content blocks isHeartbeat =>
    obtain ⟨-, -, -, -, -, -, hcounter, -⟩ := step_ingest h hstep
    intro _
    refine List.any_eq_false.mpr fun mk hmk hcovers => ?_
    rw [← h.recorded] at hmk
    obtain ⟨w, hw, rfl⟩ := List.mem_map.mp hmk
    obtain ⟨m, hm, hid⟩ := h.stops w hw
    obtain ⟨ks, hids, -, hbound⟩ := h.numbered
    obtain ⟨k, hk, hid'⟩ := List.mem_map.mp (hids ▸ List.mem_map_of_mem hm)
    rw [CompactionMarker.covers, Bool.and_eq_true, ← hid, ← hid',
      lessThan_messageId (by omega) (by have := hbound k hk; omega), decide_eq_true_eq] at hcovers
    exact absurd (hbound k hk) (by omega)
  | compact params nowNs =>
    intro range first stop hwrites i m hi hcompactable
    have hcounter : a.runner.counter.toNat ≤ 10 := by
      rcases step_compact hstep with ⟨rfl, -⟩ | ⟨-, -, -, -, -, -, -, -, -, -, -, hcounter, -⟩
      · exact hfew
      · exact hcounter ▸ hfew
    have hstart : ¬ i < range.start := by
      intro hlt
      have hnone := (compactableRange_eq_some hwrites.range_eq).2.2.2.1
      have hmem := List.mem_filter.mpr ⟨(h.mem_take_iff hi range.start).mpr hlt, hcompactable⟩
      rw [hnone] at hmem
      exact absurd hmem List.not_mem_nil
    rw [← Bool.not_eq_true, h.lessThan_iff hcounter hi hwrites.first_eq,
      h.lessThan_iff hcounter hi hwrites.stop_eq]
    exact and_iff_right hstart

theorem counter_le_step {c : Call} (h : a.Sound) (hstep : a.step c = some a') :
    a.runner.counter.toNat ≤ a'.runner.counter.toNat := by
  cases c with
  | ingest =>
    obtain ⟨-, -, -, -, -, -, hcounter, -⟩ := step_ingest h hstep
    omega
  | compact =>
    rcases step_compact hstep with ⟨rfl, -⟩ | ⟨-, -, -, -, -, -, -, -, -, -, -, hcounter, -⟩
    · exact le_refl _
    · exact le_of_eq (congrArg UInt64.toNat hcounter.symm)

/-- **A run that hands out ten ids at most keeps to their order**, and so loses nothing. -/
theorem along_of_few {calls : List Call} {t : Archive} (h : a.Sound)
    (hrun : run step a calls = some t) (hfew : t.runner.counter.toNat ≤ 10) :
    Along step OrderAgrees a calls := by
  induction calls generalizing a with
  | nil => trivial
  | cons c calls ih =>
    obtain ⟨a', hstep, hrest⟩ := run_cons_eq_some hrun
    have hle : a'.runner.counter.toNat ≤ t.runner.counter.toNat :=
      le_run (fun _ _ _ hs hstep => Sound.step hs hstep)
        (fun _ _ _ hs hstep => counter_le_step hs hstep) (h.step hstep) hrest
    exact (along_cons hstep).mpr
      ⟨orderAgrees_of_few h hstep (hle.trans hfew), ih (h.step hstep) hrest⟩

/-! ## Runs -/

/-- **Compaction loses nothing, exactly while the ids are in the order of arrival.**  Every marker
has its summary from the messages that are recorded for it, and the messages are partitioned after
every call of a run if and only if the ids that its calls compare agree with their order. -/
theorem partitioned_iff {calls : List Call} {t : Archive} (h : run step {} calls = some t) :
    (t.written.map Prod.fst = t.engine.markers.items ∧
        ∀ w ∈ t.written, w.1.summaryText = summaryText w.2) ∧
      ((∀ before s, before <+: calls → run step {} before = some s → s.Partitioned) ↔
        Along step OrderAgrees {} calls) := by
  have hsound := invariant_run (fun _ _ _ hs hstep => Sound.step hs hstep) sound_init h
  refine ⟨⟨hsound.recorded, hsound.texts⟩, ?_⟩
  exact always_iff_along (fun _ _ _ hs hstep => Sound.step hs hstep)
    (fun _ _ _ hs hp hstep => partitioned_step_iff hs hp hstep) sound_init
    (fun m hm => absurd hm List.not_mem_nil) h

/-- A message of a user. -/
def say (text : Bytes) : Call := .ingest (ascii "s") .user text none false

def compactNow : Call := .compact { sessionId := ascii "s", tokenBudget := 0, force := true } 0

/-- Three messages, the first of them compacted. -/
theorem partitioned_three :
    ∃ t, run step {} [say (ascii "a"), say (ascii "b"), say (ascii "c"), compactNow] = some t ∧
      t.engine.markers.items.map (·.summaryText) = [ascii "Compacted earlier turns:\n- user: a\n"] ∧
      t.Partitioned := by
  have heval : ((run step {} [say (ascii "a"), say (ascii "b"), say (ascii "c"), compactNow]).any
      fun t => t.engine.markers.items.map (·.summaryText) ==
        [ascii "Compacted earlier turns:\n- user: a\n"] && t.runner.counter == 3) = true := by
    decide +kernel
  obtain ⟨t, ht, hboth⟩ := (Option.any_eq_true _ _).mp heval
  rw [Bool.and_eq_true, beq_iff_eq, beq_iff_eq] at hboth
  have halong := along_of_few sound_init ht (by rw [hboth.2]; decide)
  exact ⟨t, ht, hboth.1, (partitioned_iff ht).2.mpr halong _ t (List.prefix_refl _) ht⟩

/-- **The eleventh message is lost**: after a compaction of eleven messages it stands neither in the
history nor in the summary, since `msg-10` comes before `msg-9`. -/
theorem not_partitioned :
    ∃ t, run step {} (List.replicate 11 (say (ascii "hi")) ++ [compactNow]) = some t ∧
      ∃ m ∈ t.engine.messages, m.messageId = ascii "msg-10" ∧ m.isHeartbeat = false ∧
        m ∉ t.engine.history m.sessionId ∧ t.timesWritten m = 0 ∧ ¬ t.Partitioned := by
  have heval : ((run step {} (List.replicate 11 (say (ascii "hi")) ++ [compactNow])).any
      fun t => t.engine.messages.any fun m => m.messageId == ascii "msg-10" &&
        !m.isHeartbeat && !t.engine.isVisible m.sessionId m && t.timesWritten m == 0) = true := by
    decide +kernel
  obtain ⟨t, ht, hlost⟩ := (Option.any_eq_true _ _).mp heval
  obtain ⟨m, hm, hlost⟩ := List.any_eq_true.mp hlost
  simp only [Bool.and_eq_true, beq_iff_eq, Bool.not_eq_true'] at hlost
  obtain ⟨⟨⟨hid, hbeat⟩, hhidden⟩, hzero⟩ := hlost
  have hout : m ∉ t.engine.history m.sessionId := fun hin =>
    absurd (List.mem_filter.mp hin).2 (by rw [hhidden]; exact Bool.false_ne_true)
  refine ⟨t, ht, m, hm, hid, hbeat, hout, hzero, fun hp => ?_⟩
  rcases hp m hm hbeat with ⟨hin, -⟩ | ⟨-, hone⟩
  · exact hout hin
  · exact absurd (hzero.symm.trans hone) Nat.zero_ne_one

end Archive
end Context
end TigerClaw
