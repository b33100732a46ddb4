import Mathlib.Data.List.Nodup
import Mathlib.Data.List.Perm.Basic
import TigerClaw.Tui.Cascades

/-!
# Slots and their workers

A sub-turn has a slot in the widget and a worker, and the completion of the worker finds the slot by
the agent and the place of the mention.  A dispatch that fails once its slot is there leaves it
behind, and a cascade may use an agent and a place again while their last sub-turn is under way.

* `Kept`: the slots are counted, a slot in flight has a worker, a reply is from the slot's own.
* `Careful`: a dispatch does not fail half way, and takes a key that no sub-turn under way has.
* `Backed`: which worker is for which slot.
* `kept_of_careful`: what holds all along a careful run.
-/

namespace TigerClaw
namespace Tui

/-- The key by which the completion of a worker finds its slot. -/
def WorkerCtx.hasKey (target : Bytes) (mentionIdx : UInt8) (ctx : WorkerCtx) : Bool :=
  ctx.dispatchKind = .subturn && ctx.mentionOrderIdx == mentionIdx &&
    eqlIgnoreCase ctx.sessionId target

/-- The slot has been appended, and its worker does not start. -/
def DispatchFault.orphans : DispatchFault → Bool
  | .worker _ => true
  | .slot | .watchdog => false

namespace Chat

def Posted.completion (posted : Posted) : Option DonePayload :=
  match posted.event with
  | .done p => some p
  | _ => none

/-- The workers whose turn runs, and those whose completion is still in the queue. -/
def unfinished (workers : List WorkerCtx) (queue : List Posted) : List WorkerCtx :=
  workers ++ (queue.filter (·.completion.isSome)).map Posted.ctx

/-- **The bookkeeping of the sub-turns.**  A worker is known by its number, and returns once. -/
structure Kept (w : World) : Prop where
  pending : w.root.pendingSubturns = w.root.subturnSlots.countP (·.state = .inFlight)
  worker : ∀ slot ∈ w.root.subturnSlots, slot.state = .inFlight →
    ∃ ctx ∈ unfinished w.workers w.queue, ctx.serial = slot.serial ∧ ctx.turn = w.root.turns
  reply : ∀ slot ∈ w.root.subturnSlots, slot.state = .done →
    ∃ output, slot.reply = some output ∧ (slot.serial, output) ∈ w.outputs
  once : (w.outputs.map Prod.fst).Nodup

/-! ## Careful runs -/

/-- Whether the reply is scanned for mentions. -/
def Scans (b : Book) (p : DonePayload) : Prop :=
  p.epoch = b.turnEpoch ∧
    (p.dispatchKind = .subturn → b.findSlot p.targetAgent p.mentionIdx ≠ none)

/-- A mention that gets a slot gets a worker, and no worker under way has its key. -/
def Clear (b : Book) (live : List WorkerCtx) (faults : List (Option DispatchFault))
    (entry : Bytes × ℕ) : Prop :=
  faults[entry.2]?.join ≠ some .slot →
    faults[entry.2]?.join.all (!·.orphans) ∧
      ∀ ctx ∈ live, ctx.epoch = b.turnEpoch →
        ctx.hasKey (b.canonical entry.1) (UInt8.ofNat entry.2) = false

/-- Every mention that is dispatched is clear. -/
def Careful (w : World) : Action → Prop
  | .handle _ faults =>
    ∀ p ∈ w.queue.head?.bind Posted.completion, Scans w.root.book p →
      ∀ entry ∈ w.root.book.plan p,
        Clear w.root.book (unfinished w.workers w.queue.tail) faults entry
  | _ => True

instance (b : Book) (p : DonePayload) : Decidable (Scans b p) := inferInstanceAs (Decidable (_ ∧ _))

instance (b : Book) (live : List WorkerCtx) (faults : List (Option DispatchFault))
    (entry : Bytes × ℕ) : Decidable (Clear b live faults entry) :=
  inferInstanceAs (Decidable (_ → _))

instance (w : World) : ∀ a, Decidable (Careful w a)
  | .handle _ faults => inferInstanceAs (Decidable
      (∀ p ∈ w.queue.head?.bind Posted.completion, Scans w.root.book p →
        ∀ entry ∈ w.root.book.plan p,
          Clear w.root.book (unfinished w.workers w.queue.tail) faults entry))
  | .submit .. | .escape | .toggle | .post .. | .finish .. | .takeReply _ | .expire _ =>
    isTrue trivial

/-! ## Which worker is for which slot -/

/-- The worker that has been started for the slot. -/
structure Runs (b : Book) (ctx : WorkerCtx) (slot : SubturnSlot) : Prop where
  serial : ctx.serial = slot.serial
  epoch : ctx.epoch = b.turnEpoch
  turn : ctx.turn = b.turns
  invoker : ctx.invoker ≠ none
  key : ctx.hasKey slot.target slot.mentionIdx = true

/-- Every slot in flight has its worker among `live`, and no other that could pass for it. -/
structure Backed (b : Book) (live : List WorkerCtx) (outputs : List (ℕ × Bytes)) : Prop where
  pending : b.pendingSubturns = b.subturnSlots.countP (·.state = .inFlight)
  worker : ∀ slot ∈ b.subturnSlots, slot.state = .inFlight → ∃ ctx ∈ live, Runs b ctx slot
  alone : ∀ slot ∈ b.subturnSlots, slot.state = .inFlight → ∀ ctx ∈ live,
    ctx.epoch = b.turnEpoch → ctx.hasKey slot.target slot.mentionIdx = true →
      ctx.serial = slot.serial
  reply : ∀ slot ∈ b.subturnSlots, slot.state = .done →
    ∃ output, slot.reply = some output ∧ (slot.serial, output) ∈ outputs
  distinct : (b.subturnSlots.map SubturnSlot.serial).Nodup
  fresh : ∀ slot ∈ b.subturnSlots, slot.serial < b.serials

theorem hasKey_congr {ctx : WorkerCtx} {s t : Bytes} {i j : UInt8}
    (hs : ctx.hasKey s i = true) (ht : ctx.hasKey t j = true) :
    i = j ∧ eqlIgnoreCase s t = true := by
  simp only [WorkerCtx.hasKey, Bool.and_eq_true, beq_iff_eq] at hs ht
  refine ⟨hs.1.2.symm.trans ht.1.2, ?_⟩
  rw [← eqlIgnoreCase_congr hs.2 t]
  exact ht.2

variable {b b' : Book} {live live' : List WorkerCtx} {outputs : List (ℕ × Bytes)}

/-- Without slots there is nothing to back. -/
theorem Backed.of_nil (hpending : b.pendingSubturns = 0) (hslots : b.subturnSlots = []) :
    Backed b live outputs := by
  refine ⟨?_, ?_, ?_, ?_, ?_, ?_⟩
  · rw [hpending, hslots]
    rfl
  · rw [hslots]
    exact fun _ h => nomatch h
  · rw [hslots]
    exact fun _ h => nomatch h
  · rw [hslots]
    exact fun _ h => nomatch h
  · rw [hslots]
    exact List.nodup_nil
  · rw [hslots]
    exact fun _ h => nomatch h

/-- A worker goes that is for no slot in flight. -/
theorem Backed.forget (h : Backed b live outputs) (hsub : ∀ ctx ∈ live', ctx ∈ live)
    (hruns : ∀ slot ∈ b.subturnSlots, slot.state = .inFlight → ∀ ctx ∈ live, Runs b ctx slot →
      ctx ∈ live') : Backed b live' outputs where
  pending := h.pending
  worker slot hslot hstate := by
    obtain ⟨ctx, hctx, hrun⟩ := h.worker slot hslot hstate
    exact ⟨ctx, hruns slot hslot hstate ctx hctx hrun, hrun⟩
  alone slot hslot hstate ctx hctx := h.alone slot hslot hstate ctx (hsub ctx hctx)
  reply := h.reply
  distinct := h.distinct
  fresh := h.fresh

/-- A worker has returned. -/
theorem Backed.output (h : Backed b live outputs) (entry : ℕ × Bytes) :
    Backed b live (outputs ++ [entry]) where
  pending := h.pending
  worker := h.worker
  alone := h.alone
  reply slot hslot hstate := by
    obtain ⟨output, hreply, hmem⟩ := h.reply slot hslot hstate
    exact ⟨output, hreply, List.mem_append_left _ hmem⟩
  distinct := h.distinct
  fresh := h.fresh

/-- The next invoker is of no account. -/
theorem Backed.invoker (h : Backed b live outputs) (invoker : Option Bytes) :
    Backed { b with invokerToResume := invoker } live outputs :=
  ⟨h.pending, fun slot hslot hstate =>
    (h.worker slot hslot hstate).imp fun _ hctx => ⟨hctx.1, ⟨hctx.2.1, hctx.2.2, hctx.2.3,
      hctx.2.4, hctx.2.5⟩⟩, h.alone, h.reply, h.distinct, h.fresh⟩

theorem Backed.maybeResume (h : Backed b live outputs) : Backed b.maybeResume live outputs := by
  rw [Book.maybeResume]
  split
  · exact h
  · rename_i hpending
    split
    · exact h
    · exact .of_nil (not_not.mp hpending) rfl

/-- A dispatch under a key that no worker under way has. -/
theorem Backed.start (h : Backed b live outputs) (invoker target : Bytes) (mentionIdx : UInt8)
    (hclear : ∀ ctx ∈ live, ctx.epoch = b.turnEpoch → ctx.hasKey target mentionIdx = false) :
    Backed (b.addSlot target mentionIdx).count (live ++ [b.subturn invoker target mentionIdx])
      outputs := by
  have hkey : (b.subturn invoker target mentionIdx).hasKey target mentionIdx = true := by
    simp [WorkerCtx.hasKey, Book.subturn]
  refine ⟨?_, ?_, ?_, ?_, ?_, ?_⟩
  · show b.pendingSubturns + 1 = (b.subturnSlots ++ [_]).countP _
    rw [List.countP_append, ← h.pending]
    rfl
  · intro slot hslot hstate
    rcases List.mem_append.mp hslot with hslot | hslot
    · obtain ⟨ctx, hctx, hrun⟩ := h.worker slot hslot hstate
      exact ⟨ctx, List.mem_append_left _ hctx, ⟨hrun.serial, hrun.epoch, hrun.turn, hrun.invoker,
        hrun.key⟩⟩
    · obtain rfl := List.mem_singleton.mp hslot
      exact ⟨_, List.mem_append_right _ (List.mem_singleton_self _),
        ⟨rfl, rfl, rfl, Option.some_ne_none invoker, hkey⟩⟩
  · intro slot hslot hstate ctx hctx hepoch hctxKey
    rcases List.mem_append.mp hslot with hslot | hslot
    · rcases List.mem_append.mp hctx with hctx | hctx
      · exact h.alone slot hslot hstate ctx hctx hepoch hctxKey
      · -- the new key would be that of the worker of the slot
        obtain rfl := List.mem_singleton.mp hctx
        obtain ⟨old, hold, hrun⟩ := h.worker slot hslot hstate
        have hsame := hasKey_congr hctxKey hkey
        have hclearOld := hclear old hold hrun.epoch
        have holdKey : old.hasKey target mentionIdx = true := by
          have hrunKey := hrun.key
          simp only [WorkerCtx.hasKey, Bool.and_eq_true, beq_iff_eq] at hrunKey ⊢
          refine ⟨⟨hrunKey.1.1, hrunKey.1.2.trans hsame.1⟩, ?_⟩
          rw [eqlIgnoreCase_congr hrunKey.2]
          exact hsame.2
        exact absurd holdKey (by rw [hclearOld]; simp)
    · obtain rfl := List.mem_singleton.mp hslot
      rcases List.mem_append.mp hctx with hctx | hctx
      · exact absurd hctxKey (by rw [hclear ctx hctx hepoch]; simp)
      · obtain rfl := List.mem_singleton.mp hctx
        rfl
  · intro slot hslot hstate
    rcases List.mem_append.mp hslot with hslot | hslot
    · exact h.reply slot hslot hstate
    · obtain rfl := List.mem_singleton.mp hslot
      exact nomatch hstate
  · show ((b.subturnSlots ++ [_]).map SubturnSlot.serial).Nodup
    rw [List.map_append, List.nodup_append]
    refine ⟨h.distinct, List.pairwise_singleton _ _, fun n hn m hm => ?_⟩
    obtain ⟨slot, hslot, rfl⟩ := List.mem_map.mp hn
    obtain rfl := List.mem_singleton.mp hm
    exact Nat.ne_of_lt (h.fresh slot hslot)
  · intro slot hslot
    show slot.serial < b.serials + 1
    rcases List.mem_append.mp hslot with hslot | hslot
    · exact Nat.lt_succ_of_lt (h.fresh slot hslot)
    · obtain rfl := List.mem_singleton.mp hslot
      exact Nat.lt_succ_self _

/-- A list around one of its entries. -/
theorem split_at {α : Type*} {l : List α} {i : ℕ} {x : α} (h : l[i]? = some x) (f : α → α) :
    l = l.take i ++ x :: l.drop (i + 1) ∧ l.modify i f = l.take i ++ f x :: l.drop (i + 1) := by
  obtain ⟨hi, rfl⟩ := List.getElem?_eq_some_iff.mp h
  refine ⟨?_, List.modify_eq_take_cons_drop hi⟩
  rw [List.getElem_cons_drop, List.take_append_drop]

/-- **A slot reaches its end**, and with it a worker may go. -/
theorem Backed.settle (h : Backed b live outputs) {i : ℕ} {slot : SubturnSlot}
    {f : SubturnSlot → SubturnSlot} (hslot : b.subturnSlots[i]? = some slot)
    (hstate : slot.state = .inFlight) (hended : (f slot).state ≠ .inFlight)
    (hserial : (f slot).serial = slot.serial)
    (hreply : (f slot).state = .done →
      ∃ output, (f slot).reply = some output ∧ (slot.serial, output) ∈ outputs)
    (hsub : ∀ ctx ∈ live', ctx ∈ live)
    (hlive : ∀ ctx ∈ live, ctx ∈ live' ∨ ctx.serial = slot.serial) :
    Backed (b.settle i f) live' outputs := by
  obtain ⟨hsplit, hmodify⟩ := split_at hslot f
  generalize b.subturnSlots.take i = before at hsplit hmodify
  generalize b.subturnSlots.drop (i + 1) = after at hsplit hmodify
  have hslots : (b.settle i f).subturnSlots = before ++ f slot :: after := hmodify
  have hdistinct := h.distinct
  rw [hsplit, List.map_append, List.map_cons, List.nodup_middle, List.nodup_cons] at hdistinct
  -- the slots in flight are others, and were there before
  have hothers : ∀ other ∈ (b.settle i f).subturnSlots, other.state = .inFlight →
      other ∈ b.subturnSlots ∧ other.serial ≠ slot.serial := by
    intro other hother hflight
    have hmem : other ∈ before ++ after := by
      rw [hslots, List.mem_append, List.mem_cons] at hother
      rcases hother with hother | rfl | hother
      · exact List.mem_append_left _ hother
      · exact absurd hflight hended
      · exact List.mem_append_right _ hother
    refine ⟨?_, fun hsame => hdistinct.1 ?_⟩
    · rw [hsplit, List.mem_append, List.mem_cons]
      exact (List.mem_append.mp hmem).imp_right .inr
    · rw [← List.map_append, ← hsame]
      exact List.mem_map_of_mem hmem
  refine ⟨?_, ?_, ?_, ?_, ?_, ?_⟩
  · have hpending := h.pending
    rw [hsplit, List.countP_append, List.countP_cons_of_pos (by simpa using hstate)] at hpending
    rw [hslots, List.countP_append, List.countP_cons_of_neg (by simpa using hended)]
    show b.pendingSubturns - 1 = _
    omega
  · intro other hother hflight
    obtain ⟨hmem, hne⟩ := hothers other hother hflight
    obtain ⟨ctx, hctx, hrun⟩ := h.worker other hmem hflight
    rcases hlive ctx hctx with hctx | hsame
    · exact ⟨ctx, hctx, ⟨hrun.serial, hrun.epoch, hrun.turn, hrun.invoker, hrun.key⟩⟩
    · exact absurd (hrun.serial.symm.trans hsame) hne
  · intro other hother hflight ctx hctx hepoch hkey
    exact h.alone other (hothers other hother hflight).1 hflight ctx (hsub ctx hctx) hepoch hkey
  · intro other hother hdone
    rw [hslots, List.mem_append, List.mem_cons] at hother
    rcases hother with hother | rfl | hother
    · exact h.reply other (by rw [hsplit]; exact List.mem_append_left _ hother) hdone
    · rw [hserial]
      exact hreply hdone
    · refine h.reply other ?_ hdone
      rw [hsplit]
      exact List.mem_append_right _ (List.mem_cons_of_mem _ hother)
  · rw [hslots, List.map_append, List.map_cons, hserial, List.nodup_middle, List.nodup_cons]
    exact hdistinct
  · intro other hother
    rw [hslots, List.mem_append, List.mem_cons] at hother
    show other.serial < b.serials
    rcases hother with hother | rfl | hother
    · exact h.fresh other (by rw [hsplit]; exact List.mem_append_left _ hother)
    · rw [hserial]
      exact h.fresh slot (List.mem_of_getElem? hslot)
    · refine h.fresh other ?_
      rw [hsplit]
      exact List.mem_append_right _ (List.mem_cons_of_mem _ hother)

/-- What is clear stays so while other mentions are dispatched. -/
theorem Clear.next {faults : List (Option DispatchFault)} {entry : Bytes × ℕ} {started : WorkerCtx}
    {b' : Book} (h : Clear b live faults entry) (hepoch : b'.turnEpoch = b.turnEpoch)
    (hnames : b'.agentNames = b.agentNames)
    (hne : started.mentionOrderIdx ≠ UInt8.ofNat entry.2) :
    Clear b' (live ++ [started]) faults entry := by
  intro hslot
  obtain ⟨hworker, hkey⟩ := h hslot
  refine ⟨hworker, fun ctx hctx hctxEpoch => ?_⟩
  rcases List.mem_append.mp hctx with hctx | hctx
  · have hkey := hkey ctx hctx (hctxEpoch.trans hepoch)
    rw [Book.canonical] at hkey ⊢
    rw [hnames]
    exact hkey
  · obtain rfl := List.mem_singleton.mp hctx
    simp [WorkerCtx.hasKey, hne]

/-- **Clear mentions are dispatched.** -/
theorem Backed.fansOut {invoker : Bytes} {names : List Bytes} {k : ℕ}
    {faults : List (Option DispatchFault)} {started : List (WorkerCtx × Bool)}
    (h : Backed b live outputs)
    (hfans : FansOut invoker b (names.zipIdx k) (faults.drop k) b' started)
    (hlen : names.length + k ≤ 256)
    (hclear : ∀ entry ∈ names.zipIdx k, Clear b live faults entry) :
    Backed b' (live ++ started.map Prod.fst) outputs := by
  induction names generalizing k b live started with
  | nil =>
    cases hfans
    rw [List.map_nil, List.append_nil]
    exact h
  | cons name names ih =>
    rw [List.zipIdx_cons] at hfans hclear
    rw [List.length_cons] at hlen
    have hhead := hclear _ List.mem_cons_self
    have htail := fun entry hentry => hclear entry (List.mem_cons_of_mem _ hentry)
    cases hfans with
    | refused _ _ hfault hrest =>
      rw [List.tail_drop] at hrest
      exact ih h hrest (by omega) htail
    | failed _ _ errorName hfault hrest =>
      rw [List.head?_drop] at hfault
      obtain ⟨hworker, -⟩ := hhead (by rw [hfault]; simp)
      rw [hfault] at hworker
      exact absurd hworker (by simp [DispatchFault.orphans])
    | started _ _ watched hfault hrest =>
      rw [List.head?_drop] at hfault
      rw [List.tail_drop] at hrest
      obtain ⟨-, hkey⟩ := hhead hfault
      rw [List.map_cons, List.append_cons]
      refine ih (h.start invoker _ _ hkey) hrest (by omega) fun entry hentry => ?_
      refine (htail entry hentry).next rfl rfl fun hsame => ?_
      -- places below 256 are told apart by a byte
      have hlt := List.snd_lt_of_mem_zipIdx hentry
      have hle := List.le_snd_of_mem_zipIdx hentry
      have hsame := congrArg UInt8.toNat hsame
      have hsame : (UInt8.ofNat k).toNat = (UInt8.ofNat entry.2).toNat := hsame
      rw [UInt8.toNat_ofNat', UInt8.toNat_ofNat'] at hsame
      omega

/-! ## The numbers of the workers -/

/-- The numbers that a fan-out gives are new. -/
structure NewNumbers (b b' : Book) (started : List (WorkerCtx × Bool)) : Prop where
  le : b.serials ≤ b'.serials
  nodup : (started.map fun entry => entry.1.serial).Nodup
  new : ∀ entry ∈ started, b.serials ≤ entry.1.serial ∧ entry.1.serial < b'.serials

theorem NewNumbers.nil (h : b.serials ≤ b'.serials) : NewNumbers b b' [] :=
  ⟨h, List.nodup_nil, fun _ hentry => nomatch hentry⟩

theorem newNumbers_fansOut {invoker : Bytes} {names : List (Bytes × ℕ)}
    {faults : List (Option DispatchFault)} {started : List (WorkerCtx × Bool)}
    (h : FansOut invoker b names faults b' started) : NewNumbers b b' started := by
  induction h with
  | nil => exact .nil (Nat.le_refl _)
  | refused name idx hfault hrest ih => exact ih
  | @failed b _ _ _ _ name idx errorName hfault hrest ih =>
    have hnext : b.serials ≤ b.serials + 1 := Nat.le_succ _
    exact ⟨hnext.trans ih.le, ih.nodup, fun entry hentry =>
      ⟨hnext.trans (ih.new entry hentry).1, (ih.new entry hentry).2⟩⟩
  | @started b b' _ _ rest name idx watched hfault hrest ih =>
    have hle : b.serials + 1 ≤ b'.serials := ih.le
    have hnew : ∀ entry ∈ rest, b.serials + 1 ≤ entry.1.serial ∧ entry.1.serial < b'.serials :=
      ih.new
    refine ⟨by omega, ?_, fun entry hentry => ?_⟩
    · rw [List.map_cons, List.nodup_cons]
      refine ⟨fun hmem => ?_, ih.nodup⟩
      obtain ⟨entry, hentry, hsame⟩ := List.mem_map.mp hmem
      have hsame : entry.1.serial = b.serials := hsame
      have hle := (hnew entry hentry).1
      omega
    · rcases List.mem_cons.mp hentry with rfl | hentry
      · exact ⟨Nat.le_refl _, hle⟩
      · have hentry := hnew entry hentry
        exact ⟨by omega, hentry.2⟩

theorem newNumbers_handled {faults : List (Option DispatchFault)} {ue : UserEvent}
    {started : List (WorkerCtx × Bool)} (h : Handled b faults ue b' started) :
    NewNumbers b b' started := by
  have hresume : ∀ i f, (b.settle i f).maybeResume.serials = b.serials := by
    intro i f
    rw [maybeResume_frame]
    rfl
  cases h with
  | quiet => exact .nil (Nat.le_refl _)
  | scanned p invoker hepoch hkind hfans =>
    obtain ⟨hle, hnodup, hnew⟩ := newNumbers_fansOut hfans
    exact ⟨hle, hnodup, hnew⟩
  | completed p i invoker hepoch hkind hfind hfans =>
    obtain ⟨hle, hnodup, hnew⟩ := newNumbers_fansOut hfans
    dsimp only at hle hnew
    rw [hresume] at hle hnew
    exact ⟨hle, hnodup, hnew⟩
  | timedOut epoch invoker target mentionIdx i hfind => exact .nil (hresume i _).ge

/-- No two workers have one number, and a worker returns once. -/
structure Numbered (w : World) : Prop where
  nodup : (w.workers.map WorkerCtx.serial ++ w.outputs.map Prod.fst).Nodup
  fresh : ∀ n ∈ w.workers.map WorkerCtx.serial ++ w.outputs.map Prod.fst, n < w.root.serials

/-- Workers with new numbers are started. -/
theorem Numbered.start {w : World} (h : Numbered w) {root : Root} (more : List WorkerCtx)
    (hle : w.root.serials ≤ root.serials) (hnodup : (more.map WorkerCtx.serial).Nodup)
    (hnew : ∀ ctx ∈ more, w.root.serials ≤ ctx.serial ∧ ctx.serial < root.serials)
    (queue : List Posted) (watchdogs : List WorkerCtx) (subturns : ℕ) :
    Numbered { w with root, queue, watchdogs, subturns, workers := w.workers ++ more } := by
  have hperm : List.Perm ((w.workers ++ more).map WorkerCtx.serial ++ w.outputs.map Prod.fst)
      ((w.workers.map WorkerCtx.serial ++ w.outputs.map Prod.fst) ++
        more.map WorkerCtx.serial) := by
    rw [List.map_append, List.append_assoc, List.append_assoc]
    exact List.perm_append_comm.append_left _
  refine ⟨hperm.nodup_iff.mpr ?_, fun n hn => ?_⟩
  · refine List.nodup_append.mpr ⟨h.nodup, hnodup, fun n hn m hm => ?_⟩
    obtain ⟨ctx, hctx, rfl⟩ := List.mem_map.mp hm
    have hlt := h.fresh n hn
    have hge := (hnew ctx hctx).1
    omega
  · rcases List.mem_append.mp (hperm.mem_iff.mp hn) with hn | hn
    · exact Nat.lt_of_lt_of_le (h.fresh n hn) hle
    · obtain ⟨ctx, hctx, rfl⟩ := List.mem_map.mp hn
      exact (hnew ctx hctx).2

theorem numbered_step {w w' : World} {a : Action} (hs : Numbered w) (h : Moves w a w') :
    Numbered w' := by
  cases h with
  | submitted now spawnError text root started hsubmitted =>
    generalize hb : root.book = b at hsubmitted
    cases hsubmitted with
    | kept =>
      have hserials : root.serials = w.root.serials := congrArg Book.serials hb
      exact hs.start [] hserials.ge List.nodup_nil (fun _ h => nomatch h) _ _ _
    | failed =>
      have hserials : root.serials = w.root.serials := congrArg Book.serials hb
      exact hs.start [] hserials.ge List.nodup_nil (fun _ h => nomatch h) _ _ _
    | begun sessionId =>
      have hserials : root.serials = w.root.serials + 1 := congrArg Book.serials hb
      refine hs.start [_] (by omega) (List.pairwise_singleton _ _) (fun ctx hctx => ?_) _ _ _
      obtain rfl := List.mem_singleton.mp hctx
      exact ⟨Nat.le_refl _, hserials ▸ Nat.lt_succ_self _⟩
  | touched _ root hbook =>
    have hserials : root.serials = w.root.serials := congrArg Book.serials hbook
    exact ⟨hs.nodup, fun n hn => hserials ▸ hs.fresh n hn⟩
  | posted i event ctx hctx => exact ⟨hs.nodup, hs.fresh⟩
  | finished i output ctx hctx =>
    obtain ⟨hi, rfl⟩ := List.getElem?_eq_some_iff.mp hctx
    have hperm : List.Perm
        ((w.workers.eraseIdx i).map WorkerCtx.serial ++
          (w.outputs ++ [(w.workers[i].serial, output)]).map Prod.fst)
        (w.workers.map WorkerCtx.serial ++ w.outputs.map Prod.fst) := by
      have hworkers := (List.getElem_cons_eraseIdx_perm hi).map WorkerCtx.serial
      refine .trans ?_ (hworkers.append_right _)
      rw [List.map_append, ← List.append_assoc]
      exact List.perm_append_singleton _ _
    exact ⟨hperm.nodup_iff.mpr hs.nodup, fun n hn => hs.fresh n (hperm.mem_iff.mp hn)⟩
  | expired i ctx hctx => exact ⟨hs.nodup, hs.fresh⟩
  | handled now faults event queue root started hqueue hhandled =>
    obtain ⟨hle, hnodup, hnew⟩ := newNumbers_handled hhandled
    refine hs.start _ hle ?_ (fun ctx hctx => ?_) _ _ _
    · rw [List.map_map]
      exact hnodup
    · obtain ⟨entry, hentry, rfl⟩ := List.mem_map.mp hctx
      exact hnew entry hentry

/-! ## Steps of a careful run -/

/-- What every state of a careful run satisfies. -/
structure Tracked (w : World) : Prop where
  backed : Backed w.root.book (unfinished w.workers w.queue) w.outputs
  posted : ∀ posted ∈ w.queue, ∀ p, posted.event = .done p →
    ∃ output, p = donePayload posted.ctx output ∧ (posted.ctx.serial, output) ∈ w.outputs

theorem unfinished_append (workers : List WorkerCtx) (queue : List Posted) (posted : Posted)
    (h : posted.completion = none) :
    unfinished workers (queue ++ [posted]) = unfinished workers queue := by
  rw [unfinished, unfinished, List.filter_append]
  simp [h]

theorem completion_post (ctx : WorkerCtx) (turnEpoch : UInt64) (event : WorkerEvent) :
    Posted.completion ⟨event.payload ctx turnEpoch, ctx⟩ = none := by
  cases event <;> rfl

/-- An event is added to the queue that is not a completion. -/
theorem Tracked.post {w : World} (hs : Tracked w) (posted : Posted)
    (hposted : posted.completion = none) (watchdogs : List WorkerCtx) :
    Tracked { w with watchdogs, queue := w.queue ++ [posted] } := by
  refine ⟨?_, fun other hother p hp => ?_⟩
  · show Backed _ (unfinished w.workers (w.queue ++ [posted])) _
    rw [unfinished_append w.workers w.queue posted hposted]
    exact hs.backed
  · rcases List.mem_append.mp hother with hother | hother
    · exact hs.posted other hother p hp
    · obtain rfl := List.mem_singleton.mp hother
      rw [Posted.completion, hp] at hposted
      cases hposted

/-- A worker returns, and its completion is in the queue. -/
theorem Tracked.finish {w : World} (hs : Tracked w) {i : ℕ} {ctx : WorkerCtx}
    (hctx : w.workers[i]? = some ctx) (output : Bytes) :
    Tracked { w with
      workers := w.workers.eraseIdx i
      queue := w.queue ++ [⟨.done (donePayload ctx output), ctx⟩]
      outputs := w.outputs ++ [(ctx.serial, output)] } := by
  have hlive : ∀ other, other ∈ unfinished (w.workers.eraseIdx i)
      (w.queue ++ [⟨.done (donePayload ctx output), ctx⟩]) ↔
      other ∈ unfinished w.workers w.queue := by
    intro other
    have hworkers : other ∈ w.workers ↔ other ∈ w.workers.eraseIdx i ∨ other = ctx := by
      obtain ⟨hi, rfl⟩ := List.getElem?_eq_some_iff.mp hctx
      rw [← (List.getElem_cons_eraseIdx_perm hi).mem_iff, List.mem_cons, or_comm]
    simp only [unfinished, List.mem_append, hworkers, List.filter_append, List.map_append]
    simp only [Posted.completion, Option.isSome_some, List.filter_cons_of_pos, List.filter_nil,
      List.map_cons, List.map_nil, List.mem_singleton]
    tauto
  refine ⟨?_, fun other hother p hp => ?_⟩
  · exact (hs.backed.output (ctx.serial, output)).forget (fun other => (hlive other).mp)
      fun _ _ _ other hother _ => (hlive other).mpr hother
  · rcases List.mem_append.mp hother with hother | hother
    · obtain ⟨output, hdone, hmem⟩ := hs.posted other hother p hp
      exact ⟨output, hdone, List.mem_append_left _ hmem⟩
    · obtain rfl := List.mem_singleton.mp hother
      exact ⟨output, (UserEvent.done.inj hp).symm,
        List.mem_append_right _ (List.mem_singleton_self _)⟩

/-- The places of a plan are below 256. -/
theorem plan_eq_zipIdx (b : Book) (p : DonePayload) :
    ∃ names : List Bytes, b.plan p = names.zipIdx ∧ names.length ≤ 256 := by
  have hle := length_plan_le b p
  have hlt := b.autoDispatchMaxCalls.toNat_lt
  rw [Book.plan] at hle ⊢
  split
  · exact ⟨[], rfl, Nat.zero_le _⟩
  · rename_i hplan
    rw [if_neg hplan, List.length_zipIdx] at hle
    exact ⟨_, rfl, by omega⟩

/-- **A reply is scanned** in a careful run. -/
theorem Backed.scan {invoker : Bytes} {next : Option Bytes} {p : DonePayload}
    {faults : List (Option DispatchFault)} {started : List (WorkerCtx × Bool)} {b₁ : Book}
    (h : Backed b₁ live outputs)
    (hfans : FansOut invoker { b₁ with invokerToResume := next } (b.plan p) faults b' started)
    (hepoch : b₁.turnEpoch = b.turnEpoch) (hnames : b₁.agentNames = b.agentNames)
    (hclear : ∀ entry ∈ b.plan p, Clear b live faults entry) :
    Backed b' (live ++ started.map Prod.fst) outputs := by
  obtain ⟨names, hplan, hlen⟩ := plan_eq_zipIdx b p
  rw [hplan] at hfans hclear
  refine (h.invoker next).fansOut (k := 0) hfans hlen fun entry hentry hslot => ?_
  obtain ⟨hworker, hkey⟩ := hclear entry hentry hslot
  refine ⟨hworker, fun ctx hctx hctxEpoch => ?_⟩
  have hkey := hkey ctx hctx (hctxEpoch.trans hepoch)
  rw [Book.canonical] at hkey ⊢
  rw [show ({ b₁ with invokerToResume := next } : Book).agentNames = b.agentNames from hnames]
  exact hkey

/-- A slot that a completion or a timeout has found. -/
theorem findSlot_eq_some {target : Bytes} {mentionIdx : UInt8} {i : ℕ}
    (h : b.findSlot target mentionIdx = some i) :
    ∃ slot, b.subturnSlots[i]? = some slot ∧ slot.state = .inFlight ∧
      slot.mentionIdx = mentionIdx ∧ eqlIgnoreCase slot.target target = true := by
  rw [Book.findSlot, List.findIdx?_eq_some_iff_getElem] at h
  obtain ⟨hi, hmatch, -⟩ := h
  simp only [Root.SlotMatches, Bool.and_eq_true, beq_iff_eq, decide_eq_true_eq] at hmatch
  exact ⟨_, List.getElem?_eq_getElem hi, hmatch.1.1, hmatch.1.2, hmatch.2⟩

/-- A completion that is not for a slot in flight is dropped. -/
theorem Backed.drop {ctx : WorkerCtx} (h : Backed b (ctx :: live) outputs)
    (hidle : ∀ slot ∈ b.subturnSlots, slot.state = .inFlight → ¬ Runs b ctx slot) :
    Backed b live outputs := by
  refine h.forget (fun _ => List.mem_cons_of_mem _) fun slot hslot hstate other hother hrun => ?_
  rcases List.mem_cons.mp hother with rfl | hother
  · exact absurd hrun (hidle slot hslot hstate)
  · exact hother

/-- **A completion finds its own slot.** -/
theorem Backed.complete {ctx : WorkerCtx} {output : Bytes} {i : ℕ}
    (h : Backed b (ctx :: live) outputs) (hepoch : ctx.epoch = b.turnEpoch)
    (hkind : ctx.dispatchKind = .subturn)
    (hfind : b.findSlot ctx.sessionId ctx.mentionOrderIdx = some i)
    (houtput : (ctx.serial, output) ∈ outputs) :
    Backed (b.settle i (.complete output)) live outputs := by
  obtain ⟨slot, hslot, hstate, hidx, htarget⟩ := findSlot_eq_some hfind
  have hkey : ctx.hasKey slot.target slot.mentionIdx = true := by
    rw [eqlIgnoreCase_comm] at htarget
    simp [WorkerCtx.hasKey, hkind, hidx, htarget]
  have hown : ctx.serial = slot.serial :=
    h.alone slot (List.mem_of_getElem? hslot) hstate ctx List.mem_cons_self hepoch hkey
  refine h.settle hslot hstate (fun hended => nomatch hended) rfl (fun _ => ?_)
    (fun _ => List.mem_cons_of_mem _) fun other hother => ?_
  · exact ⟨output, rfl, hown ▸ houtput⟩
  · rcases List.mem_cons.mp hother with rfl | hother
    · exact .inr hown
    · exact .inl hother

/-- A worker whose completion finds no slot is for none. -/
theorem not_runs_of_findSlot {ctx : WorkerCtx} {slot : SubturnSlot}
    (hfind : b.findSlot ctx.sessionId ctx.mentionOrderIdx = none) (hslot : slot ∈ b.subturnSlots)
    (hstate : slot.state = .inFlight) : ¬ Runs b ctx slot := by
  intro hrun
  have hkey := hrun.key
  simp only [WorkerCtx.hasKey, Bool.and_eq_true, beq_iff_eq] at hkey
  rw [Book.findSlot, List.findIdx?_eq_none_iff] at hfind
  have hmatch := hfind slot hslot
  rw [Root.SlotMatches, eqlIgnoreCase_comm, hkey.2, ← hkey.1.2] at hmatch
  simp [hstate] at hmatch

/-- **The event at the head of the queue**, in a careful run. -/
theorem backed_handled {event : Posted} {faults : List (Option DispatchFault)}
    {started : List (WorkerCtx × Bool)} {workers : List WorkerCtx} {queue : List Posted}
    (h : Backed b (unfinished workers (event :: queue)) outputs)
    (hposted : ∀ p, event.event = .done p →
      ∃ output, p = donePayload event.ctx output ∧ (event.ctx.serial, output) ∈ outputs)
    (hcareful : ∀ p, event.event = .done p → Scans b p → ∀ entry ∈ b.plan p,
      Clear b (unfinished workers queue) faults entry)
    (hhandled : Handled b faults event.event b' started) :
    Backed b' (unfinished workers queue ++ started.map Prod.fst) outputs := by
  obtain ⟨ue, ctx⟩ := event
  -- without a completion, and with one
  have hother : (∀ p, ue ≠ .done p) → Backed b (unfinished workers queue) outputs := by
    intro hne
    have hnone : Posted.completion ⟨ue, ctx⟩ = none := by
      cases ue with
      | done p => exact absurd rfl (hne p)
      | _ => rfl
    rw [unfinished, List.filter_cons_of_neg (by simp [hnone])] at h
    exact h
  have hdone : ∀ p, ue = .done p → Backed b (ctx :: unfinished workers queue) outputs := by
    rintro p rfl
    rw [unfinished, List.filter_cons_of_pos rfl, List.map_cons] at h
    refine h.forget (fun c => ?_) fun _ _ _ c hc _ => ?_
    · exact List.perm_middle.mem_iff.mpr
    · exact List.perm_middle.mem_iff.mp hc
  generalize hue : ue = ue' at hhandled
  cases hhandled with
  | quiet _ hquiet =>
    rw [List.map_nil, List.append_nil]
    by_cases hcompletion : ∃ p, ue = .done p
    · obtain ⟨p, hp⟩ := hcompletion
      obtain ⟨output, rfl, -⟩ := hposted p hp
      refine (hdone _ hp).drop fun slot hslot hstate hrun => ?_
      have hkey := hrun.key
      simp only [WorkerCtx.hasKey, Bool.and_eq_true, decide_eq_true_eq] at hkey
      have hfind := hquiet _ (hue.symm.trans hp) hrun.epoch hkey.1.1 hrun.invoker
      exact not_runs_of_findSlot hfind hslot hstate hrun
    · exact hother (not_exists.mp hcompletion)
  | scanned p invoker hepoch hkind hfans =>
    obtain ⟨output, rfl, -⟩ := hposted p hue
    refine Backed.scan ?_ hfans rfl rfl (hcareful _ hue ⟨hepoch, fun h => absurd h hkind⟩)
    refine (hdone _ hue).drop fun slot hslot hstate hrun => ?_
    have hkey := hrun.key
    simp only [WorkerCtx.hasKey, Bool.and_eq_true, decide_eq_true_eq] at hkey
    exact hkind hkey.1.1
  | completed p i invoker hepoch hkind hfind hfans =>
    obtain ⟨output, rfl, hmem⟩ := hposted p hue
    have hscans : Scans b (donePayload ctx output) :=
      ⟨hepoch, fun _ => by rw [hfind]; exact Option.some_ne_none i⟩
    have hkeep : ∀ f, (b.settle i f).maybeResume.turnEpoch = b.turnEpoch ∧
        (b.settle i f).maybeResume.agentNames = b.agentNames := by
      intro f
      rw [maybeResume_frame]
      exact ⟨rfl, rfl⟩
    exact ((hdone _ hue).complete hepoch hkind hfind hmem).maybeResume.scan hfans (hkeep _).1
      (hkeep _).2 (hcareful _ hue hscans)
  | timedOut epoch invoker target mentionIdx i hfind =>
    obtain ⟨slot, hslot, hstate, -⟩ := findSlot_eq_some hfind
    rw [List.map_nil, List.append_nil]
    have hne : ∀ p, ue ≠ .done p := fun p hp => UserEvent.noConfusion (hue.symm.trans hp)
    exact ((hother hne).settle hslot hstate SlotState.noConfusion rfl SlotState.noConfusion
      (fun _ => id) fun _ => .inl).maybeResume

theorem tracked_step {w w' : World} {a : Action} (hs : Tracked w) (ha : Careful w a)
    (h : Moves w a w') : Tracked w' := by
  cases h with
  | submitted now spawnError text root started hsubmitted =>
    refine ⟨?_, hs.posted⟩
    show Backed root.book (unfinished (w.workers ++ started) w.queue) w.outputs
    generalize root.book = b at hsubmitted
    cases hsubmitted with
    | kept =>
      rw [List.append_nil]
      exact hs.backed
    | failed => exact .of_nil rfl rfl
    | begun sessionId => exact .of_nil rfl rfl
  | touched _ root hbook =>
    refine ⟨?_, hs.posted⟩
    show Backed root.book _ _
    rw [hbook]
    exact hs.backed
  | posted i event ctx hctx => exact hs.post _ (completion_post ctx _ event) w.watchdogs
  | finished i output ctx hctx => exact hs.finish hctx output
  | expired i ctx hctx => exact hs.post _ rfl (w.watchdogs.eraseIdx i)
  | handled now faults event queue root started hqueue hhandled =>
    have hbacked := hs.backed
    rw [hqueue] at hbacked
    refine ⟨?_, fun other hother => hs.posted other (hqueue ▸ List.mem_cons_of_mem _ hother)⟩
    show Backed root.book (unfinished (w.workers ++ started.map Prod.fst) queue) w.outputs
    have hcareful : ∀ p, event.event = .done p → Scans w.root.book p →
        ∀ entry ∈ w.root.book.plan p, Clear w.root.book (unfinished w.workers queue) faults entry
      := by
      intro p hp hscans
      rw [Careful, hqueue] at ha
      refine ha p ?_ hscans
      rw [List.head?_cons, Option.bind_some, Posted.completion, hp]
      rfl
    have hnext := backed_handled hbacked (hs.posted event (hqueue ▸ List.mem_cons_self)) hcareful
      hhandled
    have hperm : List.Perm (unfinished (w.workers ++ started.map Prod.fst) queue)
        (unfinished w.workers queue ++ started.map Prod.fst) := by
      rw [unfinished, unfinished, List.append_assoc, List.append_assoc]
      exact List.perm_append_comm.append_left _
    exact hnext.forget (fun _ => hperm.mem_iff.mp) fun _ _ _ _ hctx _ => hperm.mem_iff.mpr hctx

/-- What a tracked state says of the bookkeeping. -/
theorem Tracked.kept {w : World} (hs : Tracked w) (hn : Numbered w) : Kept w where
  pending := hs.backed.pending
  worker slot hslot hstate := by
    obtain ⟨ctx, hctx, hrun⟩ := hs.backed.worker slot hslot hstate
    exact ⟨ctx, hctx, hrun.serial, hrun.turn⟩
  reply := hs.backed.reply
  once := (List.nodup_append.mp hn.nodup).2.1

/-- **The bookkeeping of the sub-turns holds all along a careful run.** -/
theorem kept_of_careful (host : Host) (agentNames : List Bytes) (sessionId userName : Bytes)
    (maxCalls : UInt8) (timeoutSecs : UInt32) (history : List Line) {as : List Action}
    (hcareful : StepMachine.Along (step host) Careful
      (start agentNames sessionId userName maxCalls timeoutSecs history) as) :
    ∀ before w, before <+: as → StepMachine.run (step host)
      (start agentNames sessionId userName maxCalls timeoutSecs history) before = some w →
        Kept w := by
  have htracked : Tracked (start agentNames sessionId userName maxCalls timeoutSecs history) :=
    ⟨.of_nil rfl rfl, fun _ h => nomatch h⟩
  have hnumbered : Numbered (start agentNames sessionId userName maxCalls timeoutSecs history) :=
    ⟨List.nodup_nil, fun _ h => nomatch h⟩
  have halong := StepMachine.invariant_along (I := fun w => Tracked w ∧ Numbered w)
    (fun w a w' hw ha hstep => ⟨tracked_step hw.1 ha (moves_of_step hstep),
      numbered_step hw.2 (moves_of_step hstep)⟩) ⟨htracked, hnumbered⟩ hcareful
  exact fun before w hbefore hrun =>
    (halong before w hbefore hrun).1.kept (halong before w hbefore hrun).2

/-- A cascade, a sub-turn that times out, and its late completion. -/
def handOver : List Action :=
  [.submit 1 none (ascii "hi"), .finish 0 (ascii "@b @c"), .handle 2 [], .finish 1 (ascii "@a"),
    .handle 3 [], .expire 0, .handle 4 [], .finish 0 (ascii "late"), .handle 5 [],
    .finish 0 (ascii "ok")]

theorem kept_handOver : ∃ w, StepMachine.run (step plain)
      (start [ascii "a", ascii "b", ascii "c"] (ascii "a") [] 8 5 []) handOver = some w ∧
    w.root.subturnSlots.map (fun slot => (slot.state, slot.reply)) =
      [(.timedOut, none), (.done, some (ascii "@a")), (.inFlight, none)] ∧ Kept w := by
  have hcareful : StepMachine.Along (step plain) Careful
      (start [ascii "a", ascii "b", ascii "c"] (ascii "a") [] 8 5 []) handOver := by decide
  refine ⟨_, rfl, by decide, ?_⟩
  exact kept_of_careful plain _ _ _ _ _ _ hcareful _ _ (List.prefix_refl _) rfl

/-- The thread of a sub-turn does not start. -/
def orphaned : List Action :=
  [.submit 1 none (ascii "hi"), .finish 0 (ascii "@b"),
    .handle 2 [some (.worker (ascii "SystemResources"))]]

/-- A cascade mentions an agent again, at the same place, and the second sub-turn ends first. -/
def crossed : List Action :=
  [.submit 1 none (ascii "hi"), .finish 0 (ascii "@b @c"), .handle 2 [], .finish 1 (ascii "@b"),
    .handle 3 [], .finish 1 (ascii "two"), .handle 4 []]

theorem not_kept_orphaned_crossed :
    (∃ w, StepMachine.run (step plain) (start [ascii "a", ascii "b"] (ascii "a") [] 8 0 [])
        orphaned = some w ∧ w.root.pendingSubturns = 1 ∧ w.workers = [] ∧ w.queue = [] ∧
      ¬ Kept w) ∧
    ∃ w, StepMachine.run (step plain)
        (start [ascii "a", ascii "b", ascii "c"] (ascii "a") [] 8 0 []) crossed = some w ∧
      w.root.subturnSlots.map (fun slot => (slot.serial, slot.state, slot.reply)) =
        [(1, .done, some (ascii "two")), (2, .done, some (ascii "@b")), (3, .inFlight, none)] ∧
      w.workers.map WorkerCtx.serial = [1] ∧ w.outputs.map Prod.fst = [0, 2, 3] ∧ ¬ Kept w := by
  refine ⟨⟨_, rfl, by decide, by decide, by decide, fun hkept => ?_⟩, ⟨_, rfl, by decide,
    by decide, by decide, fun hkept => ?_⟩⟩
  · obtain ⟨ctx, hctx, -⟩ := hkept.worker _ List.mem_cons_self rfl
    exact nomatch hctx
  · obtain ⟨output, -, hmem⟩ := hkept.reply _ List.mem_cons_self rfl
    have hserial : 1 ∈ [0, 2, 3] := List.mem_map_of_mem (f := Prod.fst) hmem
    exact absurd hserial (by decide)

end Chat
end Tui
end TigerClaw
