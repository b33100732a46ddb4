import TigerClaw.Context.Assemble

/-!
# The default context engine

The engine keeps the messages of all sessions in the order in which they came.  `compact` puts a
marker over the older messages of a session and writes a summary in their place; `assemble` leaves
out what a marker covers.  A marker is a half-open range of message ids, compared as strings.

* `MarkerLog`, `StoredMsg`, `DefaultEngine`: what the engine stores.
* `ingest`, `assemble`, `compact`: its calls.
* `compactableRange_eq_some`: the range of a compaction in terms of the messages it can take.
-/

namespace TigerClaw
namespace Context

/-! ## Markers -/

/-- `CompactionMarker`: the entries from `rangeStartId`, short of `rangeEndId`. -/
structure CompactionMarker where
  sessionId : Bytes := []
  rangeStartId : Bytes
  rangeEndId : Bytes
  summaryText : Bytes
  summaryEntryId : Bytes
  createdAtMs : ℤ

/-- Does the marker stand over this entry of the session? -/
def CompactionMarker.covers (self : CompactionMarker) (sessionId entryId : Bytes) : Bool :=
  self.sessionId == sessionId && !lessThan entryId self.rangeStartId &&
    lessThan entryId self.rangeEndId

structure MarkerLog where
  items : List CompactionMarker := []

/-- `append`: a range that is there already is not appended again. -/
def MarkerLog.append (self : MarkerLog) (m : CompactionMarker) : MarkerLog :=
  if self.items.any fun existing => existing.sessionId == m.sessionId &&
      existing.rangeStartId == m.rangeStartId && existing.rangeEndId == m.rangeEndId then self
  else { items := self.items ++ [m] }

def MarkerLog.coversSession (self : MarkerLog) (sessionId entryId : Bytes) : Bool :=
  self.items.any fun m => m.covers sessionId entryId

/-! ## Messages -/

structure StoredMsg where
  sessionId : Bytes
  messageId : Bytes
  role : Role
  content : Bytes
  blocks : Option (List ContentBlock) := none
  isHeartbeat : Bool := false
  deriving DecidableEq

/-- `DefaultEngine`. -/
structure DefaultEngine where
  messages : List StoredMsg := []
  markers : MarkerLog := {}

namespace DefaultEngine

def keepRecentMessages : ℕ := 2

def maxSummaryContentBytes : ℕ := 160

/-- `estimateTokens`: a token for four bytes, and one at least. -/
def estimateTokens (s : Bytes) : Outcome PlugError UInt32 := do
  let est ← UInt32.castNat ((s.length + 3) / 4)
  pure (if est = 0 then 1 else est)

/-- `ingest`, with `IngestParams` in the form of the message that is stored: whether it was new,
and the engine after it. -/
def ingest (self : DefaultEngine) (params : StoredMsg) : Bool × DefaultEngine :=
  if self.messages.any fun m => m.sessionId == params.sessionId && m.messageId == params.messageId
  then (false, self)
  else (true, { self with messages := self.messages ++ [params] })

/-- The messages of a session that no marker covers. -/
def isVisible (self : DefaultEngine) (sessionId : Bytes) (m : StoredMsg) : Bool :=
  m.sessionId == sessionId && !self.markers.coversSession sessionId m.messageId

def history (self : DefaultEngine) (sessionId : Bytes) : List StoredMsg :=
  self.messages.filter (self.isVisible sessionId)

def markersOf (self : DefaultEngine) (sessionId : Bytes) : List CompactionMarker :=
  self.markers.items.filter fun mk => mk.sessionId == sessionId

def historySection (m : StoredMsg) : Outcome PlugError Section := do
  let tokenEstimate ← estimateTokens m.content
  pure { kind := .historyTurn, role := m.role, content := m.content, blocks := m.blocks
         priority := 50, tokenEstimate, origin := ascii "default-engine/history" }

def summarySection (mk : CompactionMarker) : Outcome PlugError Section := do
  let tokenEstimate ← estimateTokens mk.summaryText
  pure { kind := .compactionSummary, role := .system, content := mk.summaryText
         priority := 40, tokenEstimate, origin := ascii "default-engine/summary" }

def promptSection (prompt : Bytes) : Outcome PlugError Section := do
  let tokenEstimate ← estimateTokens prompt
  pure { kind := .currentPrompt, role := .user, content := prompt
         priority := 0, tokenEstimate, origin := ascii "default-engine/prompt" }

/-- `assemble_fn` before the budget pass: a section for every visible message, one for every
marker, and the prompt. -/
def sections (self : DefaultEngine) (sessionId prompt : Bytes) :
    Outcome PlugError (List Section) := do
  let history ← (self.history sessionId).mapM' historySection
  let summaries ← (self.markersOf sessionId).mapM' summarySection
  let prompt ← promptSection prompt
  pure (history ++ summaries ++ [prompt])

/-- `assemble_fn`. -/
def assemble (self : DefaultEngine) (sessionId prompt : Bytes) (tokenBudget : UInt32) :
    Outcome PlugError FitResult := do
  let sections ← self.sections sessionId prompt
  fit sections tokenBudget

/-! ## Compaction -/

/-- `visibleTokenCount`. -/
def visibleTokenCount (self : DefaultEngine) (sessionId : Bytes) : Outcome PlugError UInt32 := do
  let add := fun (total : UInt32) (s : Bytes) => do
    let est ← estimateTokens s
    pure (UInt32.satAdd total est)
  let total ← ((self.history sessionId).map (·.content)).foldlM add 0
  ((self.markersOf sessionId).map (·.summaryText)).foldlM add total

/-- The messages that a compaction of the session can take. -/
def isCompactable (self : DefaultEngine) (sessionId : Bytes) (m : StoredMsg) : Bool :=
  self.isVisible sessionId m && !m.isHeartbeat

/-- The index of the `n`-th entry of `p`, counted from zero. -/
def findNth {α : Type} (p : α → Bool) : ℕ → List α → Option ℕ
  | _, [] => none
  | 0, a :: l => if p a then some 0 else (findNth p 0 l).map (· + 1)
  | n + 1, a :: l => (findNth p (if p a then n else n + 1) l).map (· + 1)

/-- `MessageRange`, as indices. -/
structure MessageRange where
  start : ℕ
  stop : ℕ

/-- `compactableRange`: from the first message that can be taken, short of the last two. -/
def compactableRange (self : DefaultEngine) (sessionId : Bytes) : Option MessageRange :=
  let eligible := self.messages.countP (self.isCompactable sessionId)
  if eligible ≤ keepRecentMessages then none
  else do
    let first ← findNth (self.isCompactable sessionId) 0 self.messages
    let stop ← findNth (self.isCompactable sessionId) (eligible - keepRecentMessages) self.messages
    pure { start := first, stop }

def roleName : Role → Bytes
  | .system => ascii "system"
  | .user => ascii "user"
  | .assistant => ascii "assistant"
  | .tool => ascii "tool"

def snippetFor (content : Bytes) : Bytes := content.take maxSummaryContentBytes

/-- The messages of a range that go into its summary. -/
def summarized (self : DefaultEngine) (sessionId : Bytes) (range : MessageRange) :
    List StoredMsg :=
  ((self.messages.take range.stop).drop range.start).filter (self.isCompactable sessionId)

def summaryLine (m : StoredMsg) : Bytes :=
  ascii "- " ++ roleName m.role ++ ascii ": " ++ snippetFor m.content ++ ascii "\n"

def summaryText (lines : List StoredMsg) : Bytes :=
  ascii "Compacted earlier turns:\n" ++ lines.flatMap summaryLine

/-- `buildSummary`. -/
def buildSummary (self : DefaultEngine) (sessionId : Bytes) (range : MessageRange) : Bytes :=
  summaryText (self.summarized sessionId range)

structure CompactParams where
  sessionId : Bytes
  tokenBudget : UInt32
  force : Bool := false
  currentTokenCount : Option UInt32 := none

structure CompactResult where
  compacted : Bool
  summaryEntryId : Option Bytes := none
  tokensBefore : UInt32
  tokensAfter : Option UInt32 := none
  reason : Option Bytes := none

/-- `created_at_ms`, an `i64`. -/
def createdAtMs (nowNs : ℤ) : Outcome PlugError ℤ :=
  let ms := nowNs.tdiv 1000000
  if -0x8000000000000000 ≤ ms ∧ ms < 0x8000000000000000 then .ok ms else .trap .intCast

/-- The marker that a compaction of the range appends. -/
def markerFor (self : DefaultEngine) (sessionId : Bytes) (range : MessageRange) (nowNs : ℤ)
    (first stop : StoredMsg) : Outcome PlugError CompactionMarker := do
  let createdAtMs ← createdAtMs nowNs
  pure { sessionId, rangeStartId := first.messageId, rangeEndId := stop.messageId
         summaryText := self.buildSummary sessionId range
         summaryEntryId := ascii "summary:" ++ first.messageId ++ ascii ":" ++ stop.messageId
         createdAtMs }

/-- The caller's count, or the engine's own. -/
def tokensBefore (self : DefaultEngine) (params : CompactParams) : Outcome PlugError UInt32 :=
  match params.currentTokenCount with
  | some count => pure count
  | none => self.visibleTokenCount params.sessionId

/-- `compactFn`. -/
def compact (self : DefaultEngine) (params : CompactParams) (nowNs : ℤ) :
    Outcome PlugError (CompactResult × DefaultEngine) := do
  let tokensBefore ← self.tokensBefore params
  if !params.force && tokensBefore ≤ params.tokenBudget then
    pure ({ compacted := false, tokensBefore, reason := some (ascii "within token budget") }, self)
  else
    match self.compactableRange params.sessionId with
    | none =>
      pure ({ compacted := false, tokensBefore
              reason := some (ascii "not enough compactable history") }, self)
    | some range =>
      match self.messages[range.start]?, self.messages[range.stop]? with
      | some first, some stop => do
        let marker ← self.markerFor params.sessionId range nowNs first stop
        let self := { self with markers := self.markers.append marker }
        let tokensAfter ← self.visibleTokenCount params.sessionId
        pure ({ compacted := true, summaryEntryId := some marker.summaryEntryId
                tokensBefore, tokensAfter := some tokensAfter }, self)
      | _, _ => .trap .bounds

/-! ## What a compaction takes -/

theorem findNth_eq_some {α : Type} {p : α → Bool} {n i : ℕ} {l : List α}
    (h : findNth p n l = some i) :
    l[i]? = (l.filter p)[n]? ∧ i < l.length ∧ (l.take i).filter p = (l.filter p).take n := by
  induction l generalizing n i with
  | nil => simp [findNth] at h
  | cons a l ih =>
    cases n with
    | zero =>
      rw [findNth] at h
      split at h
      · rename_i hp
        obtain rfl := Option.some.inj h
        simp [hp]
      · rename_i hp
        obtain ⟨j, hj, rfl⟩ := Option.map_eq_some_iff.mp h
        obtain ⟨hget, hlt, htake⟩ := ih hj
        simp [hp, ← hget, hlt, htake]
    | succ n =>
      rw [findNth] at h
      obtain ⟨j, hj, rfl⟩ := Option.map_eq_some_iff.mp h
      obtain ⟨hget, hlt, htake⟩ := ih hj
      by_cases hp : p a = true
      · rw [if_pos hp] at hget htake
        simp [hp, ← hget, hlt, htake]
      · rw [if_neg hp] at hget htake
        simp [hp, ← hget, hlt, htake]

variable {self : DefaultEngine} {sessionId : Bytes}

/-- The messages that a compaction of the session can take, in their order. -/
def compactable (self : DefaultEngine) (sessionId : Bytes) : List StoredMsg :=
  self.messages.filter (self.isCompactable sessionId)

/-- The range starts at the first message that can be taken and stops at the last but one; its
summary is about those in between. -/
theorem compactableRange_eq_some {range : MessageRange}
    (h : self.compactableRange sessionId = some range) :
    2 < (self.compactable sessionId).length ∧
      self.messages[range.start]? = (self.compactable sessionId)[0]? ∧
      self.messages[range.stop]? =
        (self.compactable sessionId)[(self.compactable sessionId).length - 2]? ∧
      (self.messages.take range.start).filter (self.isCompactable sessionId) = [] ∧
      (self.messages.take range.stop).filter (self.isCompactable sessionId) =
        (self.compactable sessionId).take ((self.compactable sessionId).length - 2) ∧
      self.summarized sessionId range =
        (self.compactable sessionId).take ((self.compactable sessionId).length - 2) := by
  rw [compactableRange, List.countP_eq_length_filter, ← compactable] at h
  split at h
  · cases h
  rename_i hlong
  rw [keepRecentMessages] at h hlong
  obtain ⟨first, hfirst, h⟩ := Option.bind_eq_some_iff.mp h
  obtain ⟨stop, hstop, h⟩ := Option.bind_eq_some_iff.mp h
  obtain rfl := Option.some.inj h
  obtain ⟨hgetFirst, -, htakeFirst⟩ := findNth_eq_some hfirst
  obtain ⟨hgetStop, -, htakeStop⟩ := findNth_eq_some hstop
  refine ⟨by omega, hgetFirst, hgetStop, htakeFirst, htakeStop, ?_⟩
  -- nothing that can be taken stands before the first such message
  have hnone : ((self.messages.take stop).take first).filter (self.isCompactable sessionId) =
      [] := by
    refine List.eq_nil_of_sublist_nil ?_
    rw [List.take_take, Nat.min_comm, ← List.take_take]
    exact ((List.take_sublist stop _).filter _).trans (htakeFirst ▸ List.Sublist.refl _)
  have hsplit := List.filter_append (p := self.isCompactable sessionId)
    ((self.messages.take stop).take first) ((self.messages.take stop).drop first)
  rw [List.take_append_drop, hnone, List.nil_append] at hsplit
  exact hsplit.symm.trans htakeStop

/-- The call writes a marker over this range. -/
structure Writes (engine : DefaultEngine) (params : CompactParams) (range : MessageRange)
    (first stop : StoredMsg) : Prop where
  due : ∃ tokens, engine.tokensBefore params = .ok tokens ∧
    (params.force = true ∨ params.tokenBudget < tokens)
  range_eq : engine.compactableRange params.sessionId = some range
  first_eq : engine.messages[range.start]? = some first
  stop_eq : engine.messages[range.stop]? = some stop

/-- The engine alone says what a call writes. -/
theorem Writes.unique {params : CompactParams} {range range' : MessageRange}
    {first first' stop stop' : StoredMsg} (h : self.Writes params range first stop)
    (h' : self.Writes params range' first' stop') :
    range = range' ∧ first = first' ∧ stop = stop' := by
  obtain rfl := Option.some.inj (h.range_eq.symm.trans h'.range_eq)
  exact ⟨rfl, Option.some.inj (h.first_eq.symm.trans h'.first_eq),
    Option.some.inj (h.stop_eq.symm.trans h'.stop_eq)⟩

/-- **What a compaction does**: nothing, or it appends a marker with a summary of what it takes. -/
theorem compact_eq_ok {params : CompactParams} {nowNs : ℤ} {res : CompactResult}
    {self' : DefaultEngine} (h : self.compact params nowNs = .ok (res, self')) :
    (self' = self ∧ ∀ range first stop, ¬ self.Writes params range first stop) ∨
    ∃ range first stop marker, self.Writes params range first stop ∧
      marker.sessionId = params.sessionId ∧ marker.rangeStartId = first.messageId ∧
      marker.rangeEndId = stop.messageId ∧
      marker.summaryText = summaryText (self.summarized params.sessionId range) ∧
      self' = { self with markers := self.markers.append marker } := by
  obtain ⟨tokens, htokens, h⟩ := Outcome.bind_eq_ok.mp h
  split at h
  · rename_i hidle
    obtain ⟨-, rfl⟩ := Prod.mk.inj (Outcome.ok.inj h)
    refine .inl ⟨rfl, fun range first stop hwrites => ?_⟩
    obtain ⟨tokens', htokens', hdue⟩ := hwrites.due
    obtain rfl := Outcome.ok.inj (htokens.symm.trans htokens')
    simp only [Bool.and_eq_true, Bool.not_eq_true', decide_eq_true_eq, UInt32.le_iff_toNat_le]
      at hidle
    rcases hdue with hforce | hover
    · exact absurd (hidle.1.symm.trans hforce) Bool.false_ne_true
    · exact absurd hidle.2 (by rw [UInt32.lt_iff_toNat_lt] at hover; omega)
  rename_i hdue
  have hdue' : params.force = true ∨ params.tokenBudget < tokens := by
    by_cases hforce : params.force = true
    · exact .inl hforce
    · refine .inr ?_
      simp only [hforce, Bool.not_false, Bool.true_and, decide_eq_true_eq,
        UInt32.le_iff_toNat_le] at hdue
      rw [UInt32.lt_iff_toNat_lt]
      omega
  split at h
  · rename_i hrange
    obtain ⟨-, rfl⟩ := Prod.mk.inj (Outcome.ok.inj h)
    refine .inl ⟨rfl, fun range first stop hwrites => ?_⟩
    exact absurd (hrange.symm.trans hwrites.range_eq) (by simp)
  rename_i range hrange
  split at h
  · rename_i first stop hfirst hstop
    obtain ⟨marker, hmarker, h⟩ := Outcome.bind_eq_ok.mp h
    obtain ⟨createdAtMs, -, hmarker⟩ := Outcome.bind_eq_ok.mp hmarker
    obtain ⟨tokensAfter, -, h⟩ := Outcome.bind_eq_ok.mp h
    obtain ⟨-, rfl⟩ := Prod.mk.inj (Outcome.ok.inj h)
    obtain rfl := Outcome.ok.inj hmarker
    exact .inr ⟨range, first, stop, _, ⟨⟨tokens, htokens, hdue'⟩, hrange, hfirst, hstop⟩, rfl, rfl,
      rfl, rfl, rfl⟩
  · cases h

end DefaultEngine
end Context
end TigerClaw
