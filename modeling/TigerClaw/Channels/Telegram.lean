import Mathlib.Data.Int.Order.Basic
import TigerClaw.Channels.Spec
import TigerClaw.Library.Checked
import TigerClaw.Library.Digits
import TigerClaw.Library.Loop
import TigerClaw.Library.OffsetLog
import TigerClaw.Library.StepMachine

/-!
# The Telegram receiver

`extensions/channel-telegram/channel.zig` polls the Bot API.  The API is a log of updates that a
client reads from an offset, and that forgets what lies below the offset of a request.

* `fill`, `TelegramChannel.receiveRound`: the loop over a batch, and one round of the loop of
  `receiveFn`, which leaves with an answer or goes round again.
* `step`: the adapter and the API together, with the updates that arrive in between.
* `splitFull`: a batch falls into what fits the buffer and the rest; `fill_splitFull`: the adapter
  takes the former, and its offset passes over the first update of the latter too.
* `delivered_iff_fits`: in every run, nothing with a text is lost or handed over twice exactly if
  the update behind a full buffer never carries one.
-/

namespace TigerClaw
namespace Channels
namespace Telegram

open OffsetLog Loop

/-! ## The adapter -/

structure Chat where
  id : Int64

structure User where
  id : Int64

structure Message where
  chat : Chat
  messageThreadId : Option Int64 := none
  /-- `from`. -/
  sender : Option User := none
  text : Option Bytes := none

structure Update where
  updateId : Int64
  message : Option Message := none

/-- `{d}`. -/
def formatId (id : Int64) : Bytes := Digits.decimalInt id.toInt

/-- `buildInbound`, where the allocator grants its strings.  The cast of the clamped id to `u64`
cannot fail. -/
def buildInbound (updateId : Int64) (msg : Message) (text : Bytes) : InboundMessage :=
  { upstreamId := UInt64.ofNat (max updateId.toInt 0).toNat
    channelId := .telegram
    agentName := []
    conversationKey := formatId msg.chat.id
    threadKey := msg.messageThreadId.map formatId
    senderId := match msg.sender with
      | some u => formatId u.id
      | none => ascii "anonymous"
    text }

structure TelegramChannel where
  /-- Last update id observed. -/
  nextOffset : Option Int64 := none

/-- What the loop over a batch accumulates. -/
structure Filled where
  buf : List InboundMessage := []
  highest : Int64

/-- The loop over a batch, with a buffer of `room` slots.  `refused` are the updates whose strings
the allocator does not grant. -/
def fill (room : ℕ) (refused : List Int64) : List Update → Filled → Except ReceiveError Filled
  | [], f => .ok f
  | upd :: updates, f =>
    let f := if f.highest < upd.updateId then { f with highest := upd.updateId } else f
    if room ≤ f.buf.length then .ok f
    else
      match upd.message with
      | none => fill room refused updates f
      | some msg =>
        match msg.text with
        | none => fill room refused updates f
        | some text =>
          if upd.updateId ∈ refused then .error .transportFailure
          else
            fill room refused updates
              { f with buf := f.buf ++ [buildInbound upd.updateId msg text] }

/-! ## The Bot API -/

/-- What becomes of a request. -/
inductive Network where
  | lostRequest
  /-- The API has seen the request; its answer does not arrive, or cannot be read. -/
  | lostResponse
  | answered
  deriving DecidableEq

/-- The updates from the offset on. -/
def since (offset : Option Int64) (server : List Update) : List Update :=
  server.filter fun upd => offset.all fun o => o ≤ upd.updateId

/-- `getUpdates`: what the API still holds after the request, and what the caller is given.  An
empty batch is `null`. -/
def getUpdates (server : List Update) (offset : Option Int64) :
    Network → List Update × Except ReceiveError (Option (List Update))
  | .lostRequest => (server, .error .transportFailure)
  | .lostResponse => (since offset server, .error .transportFailure)
  | .answered =>
    let batch := since offset server
    (batch, .ok (if batch.isEmpty then none else some batch))

/-- What a round of `receiveFn` meets. -/
structure Env where
  /-- The cancel flag before the request. -/
  cancelBefore : Bool := false
  network : Network := .answered
  /-- The cancel flag after it. -/
  cancelAfter : Bool := false
  /-- The updates whose strings the allocator does not grant. -/
  refused : List Int64 := []
  deriving DecidableEq

namespace TelegramChannel

/-- `self.next_offset + 1`, if there is one. -/
def requestOffset (self : TelegramChannel) : Outcome Empty (Option Int64) :=
  match self.nextOffset with
  | none => .ok none
  | some o => do
    let offset ← Int64.checkedAdd o 1
    .ok (some offset)

/-- How a call ends: the adapter, and what the call returns. -/
abbrev Ended := TelegramChannel × Except ReceiveError (List InboundMessage)

/-- A batch is taken, and the offset passes over all of it. -/
def takeBatch (self : TelegramChannel) (room : ℕ) (refused : List Int64) (updates : List Update) :
    Round TelegramChannel Ended :=
  match fill room refused updates { highest := self.nextOffset.getD Int64.minValue } with
  | .error e => .leave (self, .error e)
  | .ok f =>
    let self := { self with nextOffset := some f.highest }
    if 0 < f.buf.length then .leave (self, .ok f.buf) else .again self

/-- One round of the loop of `receiveFn`, and what the API holds after it. -/
def receiveRound (self : TelegramChannel) (room : ℕ) (env : Env) (server : List Update) :
    Outcome Empty (List Update × Round TelegramChannel Ended) :=
  if env.cancelBefore then .ok (server, .leave (self, .ok []))
  else do
    let offset ← self.requestOffset
    let (server, updatesOpt) := getUpdates server offset env.network
    match updatesOpt with
    | .error e => .ok (server, .leave (self, .error e))
    | .ok updatesOpt =>
      if env.cancelAfter then .ok (server, .leave (self, .ok []))
      else
        match updatesOpt with
        | none => .ok (server, .again self)
        | some updates => .ok (server, self.takeBatch room env.refused updates)

end TelegramChannel

/-! ## Runs -/

structure World where
  channel : TelegramChannel := {}
  /-- What the API holds. -/
  server : List Update := []
  /-- The buffer of the call that is running. -/
  call : Option ℕ := none
  /-- Every update that has arrived. -/
  arrived : List Update := []
  /-- Every message that a call has returned. -/
  returned : List InboundMessage := []

inductive Action where
  /-- An update reaches the API. -/
  | arrive (upd : Update)
  /-- The receive thread calls `receive` with a buffer of that many slots. -/
  | call (room : ℕ)
  /-- A round of the call. -/
  | round (env : Env)

/-- A round ends the call or leaves it running. -/
def World.ended (self : World) : Round TelegramChannel TelegramChannel.Ended → World
  | .again channel => { self with channel }
  | .leave (channel, .error _) => { self with channel, call := none }
  | .leave (channel, .ok buf) =>
    { self with channel, call := none, returned := self.returned ++ buf }

def step (w : World) : Action → Option World
  | .arrive upd =>
    if ∀ b ∈ w.arrived, b.updateId < upd.updateId then
      some { w with server := w.server ++ [upd], arrived := w.arrived ++ [upd] }
    else none
  | .call room => if w.call = none ∧ 0 < room then some { w with call := some room } else none
  | .round env => do
    let room ← w.call
    let (server, round) ← (w.channel.receiveRound room env w.server).toOption
    some ({ w with server }.ended round)

/-! ## What a batch comes to -/

/-- The message of an update that carries a text. -/
def Update.inbound? (self : Update) : Option InboundMessage := do
  let msg ← self.message
  let text ← msg.text
  some (buildInbound self.updateId msg text)

def inbounds (updates : List Update) : List InboundMessage := updates.filterMap Update.inbound?

/-- The part of a batch that goes through the loop with `room` slots left, and the rest. -/
def splitFull : ℕ → List Update → List Update × List Update
  | _, [] => ([], [])
  | 0, upd :: updates => ([], upd :: updates)
  | room + 1, upd :: updates =>
    let (read, rest) := splitFull (if upd.inbound?.isSome then room else room + 1) updates
    (upd :: read, rest)

/-- The offset after updates have been observed. -/
def highestId (highest : Int64) (updates : List Update) : Int64 :=
  updates.foldl (fun h upd => if h < upd.updateId then upd.updateId else h) highest

@[simp] theorem inbounds_nil : inbounds [] = [] := rfl

theorem inbounds_append (l l' : List Update) : inbounds (l ++ l') = inbounds l ++ inbounds l' :=
  List.filterMap_append

theorem splitFull_append (room : ℕ) (updates : List Update) :
    (splitFull room updates).1 ++ (splitFull room updates).2 = updates := by
  induction updates generalizing room with
  | nil => cases room <;> rfl
  | cons upd updates ih =>
    cases room with
    | zero => rfl
    | succ room => rw [splitFull, List.cons_append, ih]

/-- The key of the log. -/
def Update.key (self : Update) : ℤ := self.updateId.toInt

/-- The offset is the last id, when the ids increase from it on. -/
theorem highestId_eq {highest : Int64} {updates : List Update} {last : Update}
    (hinc : Increasing Update.key updates) (hle : ∀ upd ∈ updates, highest.toInt ≤ upd.key)
    (hlast : updates.getLast? = some last) : highestId highest updates = last.updateId := by
  induction updates generalizing highest with
  | nil => simp at hlast
  | cons upd updates ih =>
    obtain ⟨hupd, hrest⟩ := List.pairwise_cons.mp hinc
    have hstep : (if highest < upd.updateId then upd.updateId else highest) = upd.updateId := by
      split
      · rfl
      · rename_i hlt
        rw [Int64.lt_iff_toInt_lt] at hlt
        exact Int64.toInt_inj.mp (le_antisymm (hle upd List.mem_cons_self) (not_lt.mp hlt))
    rw [highestId, List.foldl_cons, hstep]
    cases updates with
    | nil =>
      obtain rfl := Option.some.inj hlast
      rfl
    | cons next updates =>
      rw [List.getLast?_cons_cons] at hlast
      exact ih hrest (fun b hb => (hupd b hb).le) hlast

/-- **What the loop comes to.**  With a slot for every text it takes, it takes the part that fits;
the offset passes over one update more. -/
theorem fill_splitFull {room : ℕ} {refused : List Int64} {updates : List Update} (f : Filled)
    (left : ℕ) (hroom : room = f.buf.length + left) :
    fill room refused updates f =
      if ∃ upd ∈ (splitFull left updates).1, upd.inbound?.isSome ∧ upd.updateId ∈ refused then
        .error .transportFailure
      else .ok {
        buf := f.buf ++ inbounds (splitFull left updates).1
        highest := highestId f.highest
          ((splitFull left updates).1 ++ (splitFull left updates).2.head?.toList) } := by
  induction updates generalizing left f with
  | nil => cases left <;> simp [fill, splitFull, highestId]
  | cons upd updates ih =>
    -- the update is observed before anything else happens to it
    obtain ⟨g, hg, hbuf, hhigh⟩ : ∃ g : Filled,
        g = (if f.highest < upd.updateId then { f with highest := upd.updateId } else f) ∧
        g.buf = f.buf ∧ g.highest = if f.highest < upd.updateId then upd.updateId else f.highest :=
      ⟨_, rfl, by split <;> rfl, by split <;> rfl⟩
    have hobserve : ∀ l, highestId f.highest (upd :: l) = highestId g.highest l := fun l => by
      rw [highestId, List.foldl_cons, ← hhigh, highestId]
    rw [fill, ← hg]
    cases left with
    | zero =>
      have hend : highestId f.highest [upd] = g.highest := hobserve []
      rw [if_pos (by rw [hbuf]; omega)]
      simp only [splitFull, List.head?_cons, Option.toList_some, List.nil_append, hend,
        inbounds_nil, List.append_nil, List.not_mem_nil, false_and, exists_false, if_false]
      rw [← hbuf]
    | succ left =>
      have hskip : upd.inbound? = none → fill room refused updates g = _ := fun _ =>
        ih g (left + 1) (by rw [hbuf]; exact hroom)
      rw [if_neg (by rw [hbuf]; omega)]
      cases hmsg : upd.message with
      | none =>
        have hnone : upd.inbound? = none := by rw [Update.inbound?, hmsg]; rfl
        simp [splitFull, hnone, hskip, hobserve, inbounds, hbuf]
      | some msg =>
        cases htext : msg.text with
        | none =>
          have hnone : upd.inbound? = none := by simp [Update.inbound?, hmsg, htext]
          simp [splitFull, htext, hnone, hskip, hobserve, inbounds, hbuf]
        | some text =>
          have hsome : upd.inbound? = some (buildInbound upd.updateId msg text) := by
            simp [Update.inbound?, hmsg, htext]
          have htake := ih { g with buf := g.buf ++ [buildInbound upd.updateId msg text] } left
            (by simp only [List.length_append, List.length_singleton, hbuf]; omega)
          simp only [hbuf] at htake
          by_cases hrefused : upd.updateId ∈ refused
          · simp [splitFull, htext, hsome, hrefused]
          · simp [splitFull, htext, hsome, hrefused, htake, hobserve, inbounds, hbuf]

/-! ## What is still to be had -/

/-- The offset as a key of the log. -/
def TelegramChannel.through (self : TelegramChannel) : Option ℤ := self.nextOffset.map Int64.toInt

/-- What the API holds above the adapter's offset. -/
def World.waiting (self : World) : List Update :=
  above Update.key self.channel.through self.server

/-- **Nothing is lost, nothing comes twice, and the order is kept**: what has been returned and
what is still to be had are together what has arrived. -/
def World.Delivered (self : World) : Prop :=
  self.returned ++ inbounds self.waiting = inbounds self.arrived

structure World.Valid (w : World) : Prop where
  increasing : Increasing Update.key w.arrived
  observed : ∀ o ∈ w.channel.nextOffset, ∃ b ∈ w.arrived, b.updateId = o
  /-- The API has forgotten nothing above the offset. -/
  kept : w.waiting = above Update.key w.channel.through w.arrived
  room : ∀ room ∈ w.call, 0 < room

theorem valid_init : ({} : World).Valid where
  increasing := List.Pairwise.nil
  observed _ h := nomatch h
  kept := rfl
  room _ h := nomatch h

namespace World

variable {w w' : World}

theorem Valid.increasing_waiting (h : w.Valid) : Increasing Update.key w.waiting :=
  h.kept ▸ increasing_above h.increasing

/-- A request from behind the offset asks for what is still to be had. -/
theorem since_requestOffset {offset : Option Int64}
    (h : w.channel.requestOffset = .ok offset) : since offset w.server = w.waiting := by
  rw [TelegramChannel.requestOffset] at h
  cases ho : w.channel.nextOffset with
  | none =>
    rw [ho] at h
    obtain rfl := Outcome.ok.inj h
    simp [since, waiting, above, TelegramChannel.through, ho]
  | some o =>
    rw [ho] at h
    obtain ⟨next, hnext, h⟩ := Outcome.bind_eq_ok.mp h
    obtain rfl := Outcome.ok.inj h
    have hsum : next.toInt = o.toInt + 1 := Int64.checkedAdd_eq_ok.mp hnext
    refine List.filter_congr fun upd _ => Bool.eq_iff_iff.mpr ?_
    simp only [TelegramChannel.through, ho, Option.map_some, Option.all_some, decide_eq_true_eq,
      Int64.le_iff_toInt_le, hsum, Update.key, Int.add_one_le_iff]
    exact decide_eq_true_iff.symm

/-- The updates of the batch that go through the loop, with a buffer of `room` slots. -/
def read (w : World) (room : ℕ) : List Update := (splitFull room w.waiting).1

/-- The updates behind them. -/
def rest (w : World) (room : ℕ) : List Update := (splitFull room w.waiting).2

theorem read_append_rest (w : World) (room : ℕ) : w.read room ++ w.rest room = w.waiting :=
  splitFull_append room w.waiting

/-- The round reads the batch, and every string that it needs is granted. -/
def Takes (w : World) (room : ℕ) (env : Env) : Prop :=
  env.cancelBefore = false ∧ env.network = .answered ∧ env.cancelAfter = false ∧
    ∀ upd ∈ w.read room, upd.inbound?.isSome → upd.updateId ∉ env.refused

/-- A round with room passes over something. -/
theorem read_append_head?_ne_nil {room : ℕ} (hne : w.waiting ≠ []) (hroom : 0 < room) :
    w.read room ++ (w.rest room).head?.toList ≠ [] := by
  obtain ⟨room, rfl⟩ : ∃ n, room = n + 1 := ⟨room - 1, by omega⟩
  obtain ⟨upd, updates, hw⟩ := List.exists_cons_of_ne_nil hne
  simp [read, hw, splitFull]

/-- The offset after a batch, and what lies above it. -/
theorem above_highestId (h : w.Valid) {room : ℕ} (hne : w.waiting ≠ []) (hroom : 0 < room) :
    ∃ last ∈ w.waiting,
      highestId (w.channel.nextOffset.getD Int64.minValue)
        (w.read room ++ (w.rest room).head?.toList) = last.updateId ∧
      above Update.key (some last.key) w.waiting = (w.rest room).tail := by
  have hsplit : (w.read room ++ (w.rest room).head?.toList) ++ (w.rest room).tail = w.waiting := by
    rw [List.append_assoc, ← read_append_rest w room]
    cases w.rest room <;> rfl
  have hlast := List.getLast?_eq_some_getLast (read_append_head?_ne_nil hne hroom)
  generalize List.getLast _ _ = last at hlast
  have hinc := h.increasing_waiting
  rw [← hsplit] at hinc
  refine ⟨last, ?_, ?_, ?_⟩
  · rw [← hsplit]
    exact List.mem_append_left _ (List.mem_of_getLast? hlast)
  · refine highestId_eq (List.pairwise_append.mp hinc).1 (fun upd hupd => ?_) hlast
    have hmem : upd ∈ w.waiting := hsplit ▸ List.mem_append_left _ hupd
    cases ho : w.channel.nextOffset with
    | none => exact Int64.minValue_le_toInt upd.updateId
    | some o => exact ((mem_above.mp hmem).2 o.toInt (by simp [TelegramChannel.through, ho])).le
  · rw [← hsplit]
    exact above_of_through hinc hlast

/-- What a round brings up: the adapter, and the messages of an answer. -/
def brought : Round TelegramChannel TelegramChannel.Ended → TelegramChannel × List InboundMessage
  | .again channel => (channel, [])
  | .leave (channel, .error _) => (channel, [])
  | .leave (channel, .ok buf) => (channel, buf)

theorem ended_channel (round : Round TelegramChannel TelegramChannel.Ended) :
    (w.ended round).channel = (brought round).1 := by
  rcases round with channel | ⟨channel, e | buf⟩ <;> rfl

theorem ended_returned (round : Round TelegramChannel TelegramChannel.Ended) :
    (w.ended round).returned = w.returned ++ (brought round).2 := by
  rcases round with channel | ⟨channel, e | buf⟩ <;> simp [ended, brought]

theorem ended_server (round : Round TelegramChannel TelegramChannel.Ended) :
    (w.ended round).server = w.server := by
  rcases round with channel | ⟨channel, e | buf⟩ <;> rfl

theorem ended_arrived (round : Round TelegramChannel TelegramChannel.Ended) :
    (w.ended round).arrived = w.arrived := by
  rcases round with channel | ⟨channel, e | buf⟩ <;> rfl

theorem mem_of_mem_ended_call {round : Round TelegramChannel TelegramChannel.Ended} {room : ℕ}
    (h : room ∈ (w.ended round).call) : room ∈ w.call := by
  rcases round with channel | ⟨channel, e | buf⟩
  · exact h
  · exact nomatch h
  · exact nomatch h

/-- A batch that is taken. -/
theorem takeBatch_of_granted {room : ℕ} {refused : List Int64} (channel : TelegramChannel)
    {updates : List Update} (hgranted : ∀ upd ∈ (splitFull room updates).1,
      upd.inbound?.isSome → upd.updateId ∉ refused) :
    brought (channel.takeBatch room refused updates) =
      ({ channel with
          nextOffset := some (highestId (channel.nextOffset.getD Int64.minValue)
            ((splitFull room updates).1 ++ (splitFull room updates).2.head?.toList)) },
        inbounds (splitFull room updates).1) := by
  rw [TelegramChannel.takeBatch, fill_splitFull _ room (Nat.zero_add room).symm,
    if_neg (by push Not; exact hgranted)]
  rcases hin : inbounds (splitFull room updates).1 with - | ⟨msg, msgs⟩ <;> rfl

/-- A batch that is refused. -/
theorem takeBatch_of_refused {room : ℕ} {refused : List Int64} (channel : TelegramChannel)
    {updates : List Update} (hrefused : ¬ ∀ upd ∈ (splitFull room updates).1,
      upd.inbound?.isSome → upd.updateId ∉ refused) :
    brought (channel.takeBatch room refused updates) = (channel, []) := by
  push Not at hrefused
  rw [TelegramChannel.takeBatch, fill_splitFull _ room (Nat.zero_add room).symm, if_pos hrefused]
  rfl

/-- What a round of the loop brings up, and what the API holds after it. -/
theorem receiveRound_cases {room : ℕ} {env : Env} {server : List Update}
    {round : Round TelegramChannel TelegramChannel.Ended}
    (h : w.channel.receiveRound room env w.server = .ok (server, round)) :
    (server = w.server ∨ server = w.waiting) ∧
      ((w.Takes room env ∧ w.waiting ≠ [] ∧ brought round =
          ({ w.channel with
              nextOffset := some (highestId (w.channel.nextOffset.getD Int64.minValue)
                (w.read room ++ (w.rest room).head?.toList)) }, inbounds (w.read room))) ∨
        ((w.Takes room env → w.waiting = []) ∧ brought round = (w.channel, []))) := by
  rw [TelegramChannel.receiveRound] at h
  split at h
  · -- cancelled before the request
    rename_i hcancel
    obtain ⟨rfl, rfl⟩ := Prod.mk.inj (Outcome.ok.inj h)
    exact ⟨.inl rfl, .inr ⟨fun htakes => absurd htakes.1 (by simp [hcancel]), rfl⟩⟩
  rename_i hbefore
  obtain ⟨offset, hoffset, h⟩ := Outcome.bind_eq_ok.mp h
  have hsince := since_requestOffset hoffset
  cases hnet : env.network with
  | lostRequest =>
    rw [hnet] at h
    obtain ⟨rfl, rfl⟩ := Prod.mk.inj (Outcome.ok.inj h)
    exact ⟨.inl rfl, .inr ⟨fun htakes => absurd htakes.2.1 (by simp [hnet]), rfl⟩⟩
  | lostResponse =>
    rw [hnet] at h
    obtain ⟨rfl, rfl⟩ := Prod.mk.inj (Outcome.ok.inj h)
    exact ⟨.inr hsince, .inr ⟨fun htakes => absurd htakes.2.1 (by simp [hnet]), rfl⟩⟩
  | answered =>
    rw [hnet] at h
    simp only [getUpdates, hsince] at h
    split at h
    · -- cancelled after it
      rename_i hcancel
      obtain ⟨rfl, rfl⟩ := Prod.mk.inj (Outcome.ok.inj h)
      exact ⟨.inr rfl, .inr ⟨fun htakes => absurd htakes.2.2.1 (by simp [hcancel]), rfl⟩⟩
    · rename_i hafter
      cases hwait : w.waiting with
      | nil =>
        rw [hwait] at h
        obtain ⟨rfl, rfl⟩ := Prod.mk.inj (Outcome.ok.inj h)
        exact ⟨.inr rfl, .inr ⟨fun _ => rfl, rfl⟩⟩
      | cons upd updates =>
        rw [hwait] at h
        obtain ⟨rfl, rfl⟩ := Prod.mk.inj (Outcome.ok.inj h)
        refine ⟨.inr rfl, ?_⟩
        rw [← hwait]
        by_cases hgranted : ∀ upd ∈ w.read room, upd.inbound?.isSome → upd.updateId ∉ env.refused
        · refine .inl ⟨⟨by simpa using hbefore, hnet, by simpa using hafter, hgranted⟩,
            by simp [hwait], takeBatch_of_granted w.channel hgranted⟩
        · exact .inr ⟨fun htakes => absurd htakes.2.2.2 hgranted,
            takeBatch_of_refused w.channel hgranted⟩

/-- The offset stays, and so does what is still to be had. -/
theorem Valid.of_same_offset (h : w.Valid) (hchannel : w'.channel = w.channel)
    (hserver : w'.server = w.server ∨ w'.server = w.waiting) (harrived : w'.arrived = w.arrived)
    (hcall : ∀ room ∈ w'.call, room ∈ w.call) : w'.Valid ∧ w'.waiting = w.waiting := by
  have hwait : w'.waiting = w.waiting := by
    rw [waiting, hchannel]
    rcases hserver with hserver | hserver
    · rw [hserver, waiting]
    · rw [hserver, waiting, above_idem]
  refine ⟨⟨?_, ?_, ?_, fun room hroom => h.room room (hcall room hroom)⟩, hwait⟩
  · rw [harrived]
    exact h.increasing
  · rw [harrived, hchannel]
    exact h.observed
  · rw [hwait, harrived, hchannel]
    exact h.kept

/-- The offset moves up to an update that was still to be had. -/
theorem Valid.of_later_offset (h : w.Valid) {last : Update} (hlast : last ∈ w.waiting)
    (hchannel : w'.channel.nextOffset = some last.updateId)
    (hserver : w'.server = w.server ∨ w'.server = w.waiting) (harrived : w'.arrived = w.arrived)
    (hcall : ∀ room ∈ w'.call, room ∈ w.call) :
    w'.Valid ∧ w'.waiting = above Update.key (some last.key) w.waiting := by
  have hthrough : w'.channel.through = some last.key := by
    rw [TelegramChannel.through, hchannel, Option.map_some, Update.key]
  have hle : ∀ o ∈ w.channel.through, o ≤ last.key := fun o ho => ((mem_above.mp hlast).2 o ho).le
  have hwait : w'.waiting = above Update.key (some last.key) w.waiting := by
    rw [waiting, hthrough]
    rcases hserver with hserver | hserver
    · rw [hserver, waiting, above_above hle]
    · rw [hserver]
  refine ⟨⟨?_, ?_, ?_, fun room hroom => h.room room (hcall room hroom)⟩, hwait⟩
  · rw [harrived]
    exact h.increasing
  · rw [hchannel, harrived]
    intro o ho
    obtain rfl := Option.some.inj ho
    rw [h.kept] at hlast
    exact ⟨last, (mem_above.mp hlast).1, rfl⟩
  · rw [hwait, harrived, hthrough, h.kept, above_above hle]

theorem step_round {room : ℕ} {env : Env} (hcall : w.call = some room)
    (hstep : step w (.round env) = some w') :
    ∃ server round, w.channel.receiveRound room env w.server = .ok (server, round) ∧
      w' = { w with server }.ended round := by
  obtain ⟨room', hroom', hstep⟩ := Option.bind_eq_some_iff.mp hstep
  obtain rfl := Option.some.inj (hcall.symm.trans hroom')
  obtain ⟨⟨server, round⟩, hround, hstep⟩ := Option.bind_eq_some_iff.mp hstep
  exact ⟨server, round, Outcome.toOption_eq_some.mp hround, (Option.some.inj hstep).symm⟩

/-- **What a round does.**  It either takes the batch, up to the first update behind a full buffer,
or leaves everything to be had again. -/
theorem round_cases (h : w.Valid) {room : ℕ} {env : Env} (hcall : w.call = some room)
    (hstep : step w (.round env) = some w') :
    w'.Valid ∧ w'.arrived = w.arrived ∧
      ((w.Takes room env ∧ w'.waiting = (w.rest room).tail ∧
          w'.returned = w.returned ++ inbounds (w.read room)) ∨
        (¬ w.Takes room env ∧ w'.waiting = w.waiting ∧ w'.returned = w.returned)) := by
  obtain ⟨server, round, hround, hended⟩ := step_round hcall hstep
  obtain ⟨hserver, hcases⟩ := receiveRound_cases hround
  have hserver' : w'.server = w.server ∨ w'.server = w.waiting := by
    rwa [hended, ended_server]
  have harrived : w'.arrived = w.arrived := by rw [hended, ended_arrived]
  have hcall' : ∀ r ∈ w'.call, r ∈ w.call := by
    intro r hr
    rw [hended] at hr
    have hbefore := mem_of_mem_ended_call hr
    exact hbefore
  rcases hcases with ⟨htakes, hne, hbrought⟩ | ⟨hnot, hbrought⟩
  · obtain ⟨last, hmem, hlast, habove⟩ := above_highestId h hne (h.room room hcall)
    have hchannel : w'.channel.nextOffset = some last.updateId := by
      rw [hended, ended_channel, hbrought, ← hlast]
    obtain ⟨hvalid, hwait⟩ := h.of_later_offset hmem hchannel hserver' harrived hcall'
    refine ⟨hvalid, harrived, .inl ⟨htakes, hwait.trans habove, ?_⟩⟩
    rw [hended, ended_returned, hbrought]
  · have hchannel : w'.channel = w.channel := by
      rw [hended, ended_channel, hbrought]
    obtain ⟨hvalid, hwait⟩ := h.of_same_offset hchannel hserver' harrived hcall'
    have hreturned : w'.returned = w.returned := by
      rw [hended, ended_returned, hbrought, List.append_nil]
    refine ⟨hvalid, harrived, ?_⟩
    by_cases htakes : w.Takes room env
    · -- nothing is waiting, and nothing of it is taken
      refine .inl ⟨htakes, ?_, ?_⟩
      · rw [hwait, rest, hnot htakes]
        cases room <;> rfl
      · rw [hreturned, read, hnot htakes]
        cases room <;> simp [splitFull]
    · exact .inr ⟨htakes, hwait, hreturned⟩

/-- An update that arrives is still to be had. -/
theorem arrive_cases (h : w.Valid) {upd : Update} (hstep : step w (.arrive upd) = some w') :
    w'.Valid ∧ w'.arrived = w.arrived ++ [upd] ∧ w'.waiting = w.waiting ++ [upd] ∧
      w'.returned = w.returned := by
  rw [step] at hstep
  split at hstep
  on_goal 2 => exact nomatch hstep
  rename_i hlast
  obtain rfl := Option.some.inj hstep
  have hnew : above Update.key w.channel.through [upd] = [upd] := by
    refine above_of_forall fun a ha o ho => ?_
    obtain rfl := List.mem_singleton.mp ha
    obtain ⟨id, hid, rfl⟩ := Option.map_eq_some_iff.mp ho
    obtain ⟨b, hb, rfl⟩ := h.observed id hid
    exact Int64.lt_iff_toInt_lt.mp (hlast b hb)
  have hwait : above Update.key w.channel.through (w.server ++ [upd]) = w.waiting ++ [upd] := by
    rw [above_append, hnew, waiting]
  refine ⟨⟨?_, fun o ho => ?_, ?_, h.room⟩, rfl, hwait, rfl⟩
  · exact increasing_concat h.increasing fun b hb => Int64.lt_iff_toInt_lt.mp (hlast b hb)
  · obtain ⟨b, hb, hid⟩ := h.observed o ho
    exact ⟨b, List.mem_append_left _ hb, hid⟩
  · change above Update.key w.channel.through (w.server ++ [upd])
      = above Update.key w.channel.through (w.arrived ++ [upd])
    rw [hwait, h.kept, above_append, hnew]

/-- A call that starts leaves everything as it is. -/
theorem call_cases (h : w.Valid) {room : ℕ} (hstep : step w (.call room) = some w') :
    w'.Valid ∧ w'.arrived = w.arrived ∧ w'.waiting = w.waiting ∧ w'.returned = w.returned := by
  rw [step] at hstep
  split at hstep
  on_goal 2 => exact nomatch hstep
  rename_i hroom
  obtain rfl := Option.some.inj hstep
  refine ⟨⟨h.increasing, h.observed, h.kept, fun r hr => ?_⟩, rfl, rfl, rfl⟩
  exact Option.some.inj hr ▸ hroom.2

/-- A round belongs to a call. -/
theorem exists_call {env : Env} (hstep : step w (.round env) = some w') :
    ∃ room, w.call = some room := by
  obtain ⟨room, hroom, -⟩ := Option.bind_eq_some_iff.mp hstep
  exact ⟨room, hroom⟩

theorem step_valid {a : Action} (h : w.Valid) (hstep : step w a = some w') : w'.Valid := by
  cases a with
  | arrive upd => exact (arrive_cases h hstep).1
  | call room => exact (call_cases h hstep).1
  | round env =>
    obtain ⟨room, hcall⟩ := exists_call hstep
    exact (round_cases h hcall hstep).1

/-! ## Whole runs -/

/-- The update directly behind a full buffer carries no text. -/
def Fits (w : World) : Action → Prop
  | .round env => ∀ room ∈ w.call, w.Takes room env →
      ∀ upd ∈ (w.rest room).head?, upd.inbound? = none
  | _ => True

/-- Passing over the update behind a full buffer loses its text. -/
theorem inbounds_tail_eq_iff (l : List Update) :
    inbounds l.tail = inbounds l ↔ ∀ upd ∈ l.head?, upd.inbound? = none := by
  cases l with
  | nil => simp
  | cons upd l =>
    cases hmsg : upd.inbound? with
    | none => simp [inbounds, hmsg]
    | some msg =>
      simp only [inbounds, List.tail_cons, List.filterMap_cons, hmsg, List.head?_cons,
        Option.mem_some_iff, forall_eq', reduceCtorEq, iff_false]
      exact fun heq => by simpa using congrArg List.length heq

/-- **A step loses nothing exactly if it fits.** -/
theorem step_delivered_iff {a : Action} (h : w.Valid) (hdelivered : w.Delivered)
    (hstep : step w a = some w') : w'.Delivered ↔ w.Fits a := by
  cases a with
  | arrive upd =>
    obtain ⟨-, harrived, hwait, hreturned⟩ := arrive_cases h hstep
    refine iff_of_true ?_ trivial
    rw [Delivered, harrived, hwait, hreturned, inbounds_append, inbounds_append,
      ← List.append_assoc, hdelivered]
  | call room =>
    obtain ⟨-, harrived, hwait, hreturned⟩ := call_cases h hstep
    refine iff_of_true ?_ trivial
    rw [Delivered, harrived, hwait, hreturned, hdelivered]
  | round env =>
    obtain ⟨room, hcall⟩ := exists_call hstep
    have hfits : w.Fits (.round env) ↔
        (w.Takes room env → ∀ upd ∈ (w.rest room).head?, upd.inbound? = none) := by
      simp only [Fits, hcall, Option.mem_some_iff, forall_eq']
    obtain ⟨-, harrived, hcases⟩ := round_cases h hcall hstep
    rw [hfits, ← inbounds_tail_eq_iff]
    rcases hcases with ⟨htakes, hwait, hreturned⟩ | ⟨htakes, hwait, hreturned⟩
    · have hall : inbounds w.arrived
          = w.returned ++ inbounds (w.read room) ++ inbounds (w.rest room) := by
        rw [List.append_assoc, ← inbounds_append, read_append_rest, hdelivered]
      rw [Delivered, harrived, hwait, hreturned, hall, List.append_cancel_left_eq]
      exact ⟨fun heq _ => heq, fun himp => himp htakes⟩
    · refine iff_of_true ?_ fun htakes' => absurd htakes' htakes
      rw [Delivered, harrived, hwait, hreturned, hdelivered]

end World

/-! ## Progress -/

namespace Action

/-- The receive thread moves. -/
def isReceive : Action → Bool
  | .arrive _ => false
  | .call _ | .round _ => true

/-- A round that nothing disturbs. -/
def undisturbed : Action → Bool
  | .round env => env = {}
  | _ => false

end Action

namespace World

variable {w w' : World}

/-- A step of the receive thread leaves fewer updates to be had, if nothing disturbs it. -/
theorem length_waiting_step {a : Action} (h : w.Valid) (ha : a.isReceive)
    (hstep : step w a = some w') :
    w'.waiting.length ≤ w.waiting.length - if a.undisturbed then 1 else 0 := by
  cases a with
  | arrive upd => exact absurd ha Bool.false_ne_true
  | call room =>
    obtain ⟨-, -, hwait, -⟩ := call_cases h hstep
    rw [hwait]
    exact le_refl _
  | round env =>
    obtain ⟨room, hcall⟩ := exists_call hstep
    obtain ⟨-, -, ⟨-, hwait, -⟩ | ⟨htakes, hwait, -⟩⟩ := round_cases h hcall hstep
    · have hlen : w.waiting.length = (w.read room).length + (w.rest room).length := by
        rw [← read_append_rest w room, List.length_append]
      have htail : (w.rest room).tail.length ≤ w.waiting.length - 1 := by
        rw [List.length_tail]
        omega
      rw [hwait]
      split
      · exact htail
      · exact htail.trans (Nat.sub_le_sub_left (Nat.zero_le 1) _)
    · have hdisturbed : Action.undisturbed (.round env) = false := by
        refine decide_eq_false fun henv => htakes ?_
        subst henv
        exact ⟨rfl, rfl, rfl, fun _ _ _ => List.not_mem_nil⟩
      rw [hwait, hdisturbed]
      exact le_refl _

/-- Without arrivals, every undisturbed round takes something. -/
theorem length_waiting_run {as : List Action} (h : w.Valid) (has : ∀ a ∈ as, a.isReceive)
    (hrun : StepMachine.run step w as = some w') :
    w'.waiting.length ≤ w.waiting.length - as.countP Action.undisturbed ∧
      w'.arrived = w.arrived := by
  induction as generalizing w with
  | nil =>
    obtain rfl := Option.some.inj hrun
    exact ⟨le_refl _, rfl⟩
  | cons a as ih =>
    obtain ⟨w₁, hstep, hrest⟩ := StepMachine.run_cons_eq_some hrun
    obtain ⟨ha, has⟩ := List.forall_mem_cons.mp has
    have hfirst := length_waiting_step h ha hstep
    obtain ⟨hlen, harrived⟩ := ih (step_valid h hstep) has hrest
    refine ⟨?_, harrived.trans ?_⟩
    · rw [List.countP_cons]
      omega
    · cases a with
      | arrive upd => exact absurd ha Bool.false_ne_true
      | call room => exact (call_cases h hstep).2.1
      | round env =>
        obtain ⟨room, hcall⟩ := exists_call hstep
        exact (round_cases h hcall hstep).2.1

end World

/-- **Telegram updates are not lost, exactly if the update behind a full buffer never carries a
text.**  And they do come: where nothing arrives any more, as many undisturbed rounds as there are
updates to be had are enough to have returned every message. -/
theorem delivered_iff_fits {as : List Action} {w : World}
    (h : StepMachine.run step {} as = some w) :
    ((∀ before w', before <+: as → StepMachine.run step {} before = some w' → w'.Delivered) ↔
        StepMachine.Along step World.Fits {} as) ∧
      (StepMachine.Along step World.Fits {} as → ∀ more w',
        StepMachine.run step w more = some w' → StepMachine.Along step World.Fits w more →
        (∀ a ∈ more, a.isReceive) → w.waiting.length ≤ more.countP Action.undisturbed →
        w'.returned = inbounds w.arrived) := by
  have hinit : World.Delivered {} := rfl
  have hiff := StepMachine.always_iff_along (P := World.Fits) (Q := World.Delivered)
    (fun s a s' hs hstep => World.step_valid hs hstep)
    (fun s a s' hs hq hstep => World.step_delivered_iff hs hq hstep) valid_init hinit h
  refine ⟨hiff, fun halong more w' hmore hfits hreceive hrounds => ?_⟩
  have hvalid : w.Valid :=
    StepMachine.invariant_run (fun s a s' hs hstep => World.step_valid hs hstep) valid_init h
  have hdelivered : w.Delivered := hiff.mpr halong as w (List.prefix_refl as) h
  have hend := StepMachine.always_iff_along (P := World.Fits) (Q := World.Delivered)
    (fun s a s' hs hstep => World.step_valid hs hstep)
    (fun s a s' hs hq hstep => World.step_delivered_iff hs hq hstep) hvalid hdelivered hmore
  have hdelivered' : w'.Delivered := hend.mpr hfits more w' (List.prefix_refl more) hmore
  obtain ⟨hlen, harrived⟩ := World.length_waiting_run hvalid hreceive hmore
  have hnone : w'.waiting = [] := List.eq_nil_of_length_eq_zero (by omega)
  rw [World.Delivered, hnone, inbounds_nil, List.append_nil, harrived] at hdelivered'
  exact hdelivered'

/-- Two texts in the chat 5. -/
def sampleUpdates : List Update :=
  [{ updateId := 10, message := some { chat := ⟨5⟩, text := some (ascii "a") } },
    { updateId := 11, message := some { chat := ⟨5⟩, text := some (ascii "b") } }]

/-- Both arrive, and are received. -/
def sampleRun (room : ℕ) : List Action :=
  sampleUpdates.map .arrive ++ [.call room, .round {}]

/-- With room for both, both are returned. -/
theorem delivered_iff_fits_sample :
    ∃ w, StepMachine.run step {} (sampleRun 2) = some w ∧ w.returned = inbounds sampleUpdates ∧
      ∀ before w', before <+: sampleRun 2 → StepMachine.run step {} before = some w' →
        w'.Delivered := by
  refine ⟨_, rfl, rfl, (delivered_iff_fits rfl).1.mpr ?_⟩
  refine (StepMachine.along_cons rfl).mpr ⟨trivial, (StepMachine.along_cons rfl).mpr ⟨trivial,
    (StepMachine.along_cons rfl).mpr ⟨trivial, fun room hroom _ upd hupd => ?_,
      fun _ _ => trivial⟩⟩⟩
  obtain rfl := Option.some.inj hroom
  exact nomatch hupd

/-- With room for one, the second is never returned. -/
theorem not_delivered_behind_full_buffer :
    ∃ w, StepMachine.run step {} (sampleRun 1) = some w ∧
      w.returned = (inbounds sampleUpdates).take 1 ∧ w.waiting = [] ∧ ¬ w.Delivered := by
  refine ⟨_, rfl, rfl, rfl, fun hdelivered => ?_⟩
  exact absurd (congrArg List.length hdelivered) (by decide)

end Telegram
end Channels
end TigerClaw
