import TigerClaw.Channels.Spec

/-!
# Session paths

`src/channels/router.zig`: the path of the session of a conversation, or of a thread of it.

* `resolve`: the code.  `resolve_eq_ok_iff`: what it accepts, and the path.
* `append_separator_eq_iff`: the ways to read a text that two others were joined to.
* `Regroups`: two addresses that one name stands for.
* `resolve_eq_iff`: two addresses that are accepted have paths of their own exactly if neither
  regroups the other.
* `alone_iff`: the addresses that share their path with no other.
-/

namespace TigerClaw
namespace Channels
namespace Router

inductive ResolveError where
  | invalidKey
  | pathTooLong
  deriving DecidableEq

/-- `[A-Za-z0-9_-]`. -/
def urlSafe (c : UInt8) : Bool :=
  97 ≤ c && c ≤ 122 || 65 ≤ c && c ≤ 90 || 48 ≤ c && c ≤ 57 || c = 45 || c = 95

def isUrlSafeKey (key : Bytes) : Bool := key.length != 0 && key.all urlSafe

/-- `@tagName`. -/
def tagName : ChannelId → Bytes
  | .telegram => ascii "telegram"

/-- `w.writeAll`, to a buffer of `size` bytes. -/
def writeAll (size : ℕ) (buffered bytes : Bytes) : Except ResolveError Bytes :=
  if buffered.length + bytes.length ≤ size then .ok (buffered ++ bytes) else .error .pathTooLong

def resolve (size : ℕ) (channelId : ChannelId) (conversationKey : Bytes)
    (threadKey : Option Bytes) : Except ResolveError Bytes :=
  if !isUrlSafeKey conversationKey then .error .invalidKey
  else if threadKey.any fun tk => !isUrlSafeKey tk then .error .invalidKey
  else do
    let w ← writeAll size [] (tagName channelId)
    let w ← writeAll size w [47]
    let w ← writeAll size w conversationKey
    let w ← match threadKey with
      | some tk => do
        let w ← writeAll size w [45, 45]
        writeAll size w tk
      | none => .ok w
    writeAll size w (ascii "/state.json")

/-! ## What is accepted -/

/-- A conversation, or a thread of it. -/
structure Address where
  channelId : ChannelId
  conversationKey : Bytes
  threadKey : Option Bytes

namespace Address

variable (self : Address)

/-- The directory of the session. -/
def name : Bytes :=
  match self.threadKey with
  | some tk => self.conversationKey ++ [45, 45] ++ tk
  | none => self.conversationKey

def path : Bytes := tagName self.channelId ++ [47] ++ self.name ++ ascii "/state.json"

/-- The keys are safe. -/
def Safe : Prop :=
  isUrlSafeKey self.conversationKey = true ∧ ∀ tk ∈ self.threadKey, isUrlSafeKey tk = true

/-- `resolve`, to a buffer of `size` bytes. -/
def resolve (size : ℕ) : Except ResolveError Bytes :=
  Router.resolve size self.channelId self.conversationKey self.threadKey

end Address

theorem writeAll_bind_eq_ok_iff {size : ℕ} {buffered bytes p : Bytes}
    {f : Bytes → Except ResolveError Bytes} :
    (writeAll size buffered bytes >>= f) = .ok p ↔
      buffered.length + bytes.length ≤ size ∧ f (buffered ++ bytes) = .ok p := by
  unfold writeAll
  split
  · rename_i hfits
    exact (and_iff_right hfits).symm
  · rename_i hfits
    exact iff_of_false (fun h => by cases h) fun h => hfits h.1

theorem writeAll_eq_ok_iff {size : ℕ} {buffered bytes p : Bytes} :
    writeAll size buffered bytes = .ok p ↔
      buffered.length + bytes.length ≤ size ∧ buffered ++ bytes = p := by
  rw [← bind_pure (writeAll size buffered bytes), writeAll_bind_eq_ok_iff]
  exact and_congr_right fun _ => ⟨fun h => Except.ok.inj h, fun h => congrArg Except.ok h⟩

/-- **What is accepted**: safe keys, and a path that fits the buffer. -/
theorem resolve_eq_ok_iff {size : ℕ} {s : Address} {p : Bytes} :
    s.resolve size = .ok p ↔ s.Safe ∧ s.path.length ≤ size ∧ p = s.path := by
  obtain ⟨channelId, conversationKey, threadKey⟩ := s
  unfold Address.resolve resolve Address.Safe
  dsimp only
  cases hkey : isUrlSafeKey conversationKey with
  | false => exact iff_of_false (fun h => by cases h) fun h => Bool.noConfusion h.1.1
  | true =>
    have hbind : ∀ (w : Bytes) (f : Bytes → Except ResolveError Bytes),
        (Except.ok w >>= f) = f w := fun _ _ => rfl
    cases threadKey with
    | none =>
      simp only [Bool.not_true, Bool.false_eq_true, if_false, Option.any_none, hbind,
        writeAll_bind_eq_ok_iff, writeAll_eq_ok_iff, Address.path, Address.name,
        List.length_append, List.nil_append, List.length_nil]
      constructor
      · rintro ⟨-, -, -, hfits, hp⟩
        exact ⟨⟨trivial, fun _ h => by cases h⟩, hfits, hp.symm⟩
      · rintro ⟨-, hfits, hp⟩
        exact ⟨by omega, by omega, by omega, hfits, hp.symm⟩
    | some tk =>
      cases htk : isUrlSafeKey tk with
      | false =>
        refine iff_of_false (fun h => ?_) fun h => ?_
        · simp [htk] at h
        · rw [h.1.2 tk rfl] at htk
          cases htk
      | true =>
        simp only [Bool.not_true, Bool.false_eq_true, if_false, Option.any_some, htk,
          writeAll_bind_eq_ok_iff, writeAll_eq_ok_iff, Address.path, Address.name,
          List.length_append, List.nil_append, List.length_nil]
        constructor
        · rintro ⟨-, -, -, -, -, hfits, hp⟩
          refine ⟨⟨trivial, fun _ h => Option.some.inj h ▸ htk⟩, by omega, ?_⟩
          rw [← hp]
          simp only [List.append_assoc]
        · rintro ⟨-, hfits, hp⟩
          refine ⟨by omega, by omega, by omega, by omega, by omega, by omega, ?_⟩
          rw [hp]
          simp only [List.append_assoc]

theorem isUrlSafeKey_iff {key : Bytes} :
    isUrlSafeKey key = true ↔ key ≠ [] ∧ ∀ c ∈ key, urlSafe c = true := by
  simp [isUrlSafeKey]

theorem ne_nil_of_isUrlSafeKey {key : Bytes} (h : isUrlSafeKey key = true) : key ≠ [] :=
  (isUrlSafeKey_iff.mp h).1

/-- A safe key is joined from two exactly if these are safe. -/
theorem isUrlSafeKey_join {a b : Bytes} (ha : a ≠ []) (hb : b ≠ []) :
    isUrlSafeKey (a ++ [45, 45] ++ b) = true ↔ isUrlSafeKey a = true ∧ isUrlSafeKey b = true := by
  have hdash : urlSafe 45 = true := by decide
  simp only [isUrlSafeKey_iff, List.mem_append, List.mem_cons, List.not_mem_nil, or_false, or_self]
  constructor
  · rintro ⟨-, hall⟩
    exact ⟨⟨ha, fun c hc => hall c (.inl (.inl hc))⟩, hb, fun c hc => hall c (.inr hc)⟩
  · rintro ⟨⟨-, hsafe⟩, -, hsafe'⟩
    refine ⟨by simp [ha], ?_⟩
    rintro c ((hc | rfl) | hc)
    · exact hsafe c hc
    · exact hdash
    · exact hsafe' c hc

/-! ## Two texts joined by a separator -/

section Separator

variable {α : Type*} {d : α} {a a' b b' : List α}

/-- What `a` and `b` were joined to is read with the border further on. -/
inductive BorderMoves (d : α) (a : List α) : List α → List α → List α → Prop
  /-- The separator is one symbol further on. -/
  | shift (b' : List α) : BorderMoves d a (d :: b') (a ++ [d]) b'
  /-- There is another separator. -/
  | split (y b' : List α) : BorderMoves d a (y ++ [d, d] ++ b') (a ++ [d, d] ++ y) b'

theorem BorderMoves.append_eq (h : BorderMoves d a b a' b') :
    a ++ [d, d] ++ b = a' ++ [d, d] ++ b' := by
  cases h with
  | shift => simp
  | split => simp

theorem BorderMoves.ne (h : BorderMoves d a b a' b') : a ≠ a' := by
  intro hsame
  have hlength := congrArg List.length hsame
  cases h with
  | shift => simp at hlength
  | split => simp at hlength

/-- The border of the second reading is further on. -/
theorem borderMoves_of_append_eq {x : List α} (ha' : a' = a ++ x)
    (h : [d, d] ++ b = x ++ ([d, d] ++ b')) : x = [] ∧ b = b' ∨ BorderMoves d a b a' b' := by
  match x with
  | [] => exact .inl ⟨rfl, by simpa using h⟩
  | [e] =>
    obtain ⟨rfl, rfl⟩ : d = e ∧ b = d :: b' := by simpa using h
    exact .inr (ha' ▸ .shift b')
  | e :: e' :: y =>
    obtain ⟨rfl, rfl, rfl⟩ : d = e ∧ d = e' ∧ b = y ++ [d, d] ++ b' := by simpa using h
    exact .inr (by simpa [ha'] using BorderMoves.split (d := d) (a := a) y b')

/-- **A text that was joined from two can be read in other ways.** -/
theorem append_separator_eq_iff :
    a ++ [d, d] ++ b = a' ++ [d, d] ++ b' ↔
      a = a' ∧ b = b' ∨ BorderMoves d a b a' b' ∨ BorderMoves d a' b' a b := by
  constructor
  · intro h
    rw [List.append_assoc, List.append_assoc] at h
    obtain ⟨x, ha', hrest⟩ | ⟨x, ha, hrest⟩ := List.append_eq_append_iff.mp h
    · obtain ⟨rfl, rfl⟩ | hmoves := borderMoves_of_append_eq ha' hrest
      · exact .inl ⟨by simpa using ha'.symm, rfl⟩
      · exact .inr (.inl hmoves)
    · obtain ⟨rfl, rfl⟩ | hmoves := borderMoves_of_append_eq ha hrest
      · exact .inl ⟨by simpa using ha, rfl⟩
      · exact .inr (.inr hmoves)
  · rintro (⟨rfl, rfl⟩ | h | h)
    · rfl
    · exact h.append_eq
    · exact h.append_eq.symm

end Separator

/-! ## Addresses that share a path -/

/-- One name stands for a thread, and for a conversation or a thread of another one. -/
inductive Regroups : Address → Address → Prop
  | whole (channelId : ChannelId) (a b : Bytes) :
    Regroups ⟨channelId, a, some b⟩ ⟨channelId, a ++ [45, 45] ++ b, none⟩
  | thread (channelId : ChannelId) {a b a' b' : Bytes} (h : BorderMoves 45 a b a' b') :
    Regroups ⟨channelId, a, some b⟩ ⟨channelId, a', some b'⟩

theorem Regroups.ne {s t : Address} (h : Regroups s t) : s ≠ t := by
  intro hsame
  cases h with
  | whole => simp at hsame
  | thread channelId hmoves => exact hmoves.ne (congrArg Address.conversationKey hsame)

theorem Regroups.path_eq {s t : Address} (h : Regroups s t) : s.path = t.path := by
  cases h with
  | whole => rfl
  | thread channelId hmoves => simp only [Address.path, Address.name, hmoves.append_eq]

theorem path_eq_iff {s t : Address} :
    s.path = t.path ↔ s = t ∨ Regroups s t ∨ Regroups t s := by
  constructor
  · intro h
    obtain ⟨channelId, a, threadKey⟩ := s
    obtain ⟨channelId', a', threadKey'⟩ := t
    obtain rfl : channelId = channelId' := by cases channelId; cases channelId'; rfl
    have hname : Address.name ⟨channelId, a, threadKey⟩ =
        Address.name ⟨channelId, a', threadKey'⟩ :=
      List.append_cancel_left (List.append_cancel_right h)
    cases threadKey with
    | none =>
      cases threadKey' with
      | none => exact .inl (by rw [show a = a' from hname])
      | some b' =>
        obtain rfl : a = a' ++ [45, 45] ++ b' := hname
        exact .inr (.inr (.whole channelId a' b'))
    | some b =>
      cases threadKey' with
      | none =>
        obtain rfl : a ++ [45, 45] ++ b = a' := hname
        exact .inr (.inl (.whole channelId a b))
      | some b' =>
        obtain ⟨rfl, rfl⟩ | hmoves | hmoves := append_separator_eq_iff.mp hname
        · exact .inl rfl
        · exact .inr (.inl (.thread channelId hmoves))
        · exact .inr (.inr (.thread channelId hmoves))
  · rintro (rfl | h | h)
    · rfl
    · exact h.path_eq
    · exact h.path_eq.symm

/-- **Paths of their own.**  For two addresses that are accepted, equal paths mean equal addresses
exactly if neither regroups the other. -/
theorem resolve_eq_iff {n m : ℕ} {s t : Address} {p q : Bytes} (hs : s.resolve n = .ok p)
    (ht : t.resolve m = .ok q) :
    (p = q → s = t) ↔ ¬ (Regroups s t ∨ Regroups t s) := by
  obtain ⟨-, -, rfl⟩ := resolve_eq_ok_iff.mp hs
  obtain ⟨-, -, rfl⟩ := resolve_eq_ok_iff.mp ht
  rw [path_eq_iff]
  constructor
  · rintro hsame (h | h)
    · exact h.ne (hsame (.inr (.inl h)))
    · exact h.ne (hsame (.inr (.inr h))).symm
  · rintro hnot (hsame | h)
    · exact hsame
    · exact absurd h hnot

/-- The chat `123`, and a topic of it. -/
theorem resolve_eq_iff_topic :
    (ascii "telegram/123/state.json" = ascii "telegram/123--topic-7/state.json" →
        (⟨.telegram, ascii "123", none⟩ : Address) =
          ⟨.telegram, ascii "123", some (ascii "topic-7")⟩) ↔
      ¬ (Regroups ⟨.telegram, ascii "123", none⟩ ⟨.telegram, ascii "123", some (ascii "topic-7")⟩ ∨
        Regroups ⟨.telegram, ascii "123", some (ascii "topic-7")⟩ ⟨.telegram, ascii "123", none⟩) :=
  resolve_eq_iff (n := 256) (m := 256) (by decide) (by decide)

/-- The chat `a--b` and the thread `b` of the chat `a` have one session; and so do the thread `-b`
of `a` and the thread `b` of `a-`. -/
theorem resolve_chat_eq_thread :
    resolve 256 .telegram (ascii "a--b") none = .ok (ascii "telegram/a--b/state.json") ∧
      resolve 256 .telegram (ascii "a") (some (ascii "b")) =
        .ok (ascii "telegram/a--b/state.json") ∧
      resolve 256 .telegram (ascii "a") (some (ascii "-b")) =
        resolve 256 .telegram (ascii "a-") (some (ascii "b")) := by
  decide

/-- **An address that is accepted shares its path with no other** exactly if it has no thread key,
and its conversation key does not join two keys. -/
theorem alone_iff {s : Address} (h : s.Safe) :
    (∀ t : Address, t.Safe → t.path = s.path → t = s) ↔
      s.threadKey = none ∧ ∀ a b, a ≠ [] → b ≠ [] → s.conversationKey ≠ a ++ [45, 45] ++ b := by
  obtain ⟨channelId, key, threadKey⟩ := s
  constructor
  · intro halone
    cases threadKey with
    | some tk =>
      have hwhole := Regroups.whole channelId key tk
      have htk := h.2 tk rfl
      have hsafe := (isUrlSafeKey_join (ne_nil_of_isUrlSafeKey h.1)
        (ne_nil_of_isUrlSafeKey htk)).mpr ⟨h.1, htk⟩
      exact absurd (halone _ ⟨hsafe, fun _ h' => by cases h'⟩ hwhole.path_eq.symm).symm hwhole.ne
    | none =>
      refine ⟨rfl, fun a b ha hb hjoin => ?_⟩
      obtain rfl : key = a ++ [45, 45] ++ b := hjoin
      have hwhole := Regroups.whole channelId a b
      obtain ⟨hsafe, hsafe'⟩ := (isUrlSafeKey_join ha hb).mp h.1
      have ht : Address.Safe ⟨channelId, a, some b⟩ :=
        ⟨hsafe, fun _ h' => Option.some.inj h' ▸ hsafe'⟩
      exact hwhole.ne (halone _ ht hwhole.path_eq)
  · rintro ⟨rfl, hnot⟩ t ht hpath
    obtain rfl | hregroups | hregroups := path_eq_iff.mp hpath
    · rfl
    · cases hregroups with
      | whole _ a b =>
        have ha := ne_nil_of_isUrlSafeKey ht.1
        have hb := ne_nil_of_isUrlSafeKey (ht.2 b rfl)
        exact absurd rfl (hnot a b ha hb)
    · cases hregroups

end Router
end Channels
end TigerClaw
