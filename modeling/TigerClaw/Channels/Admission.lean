import TigerClaw.Channels.Allowlist
import TigerClaw.Channels.Pipeline
import TigerClaw.Library.Windows

/-!
# Who reaches the runner

The allowlist is built at boot, and nothing on the way from a channel to the runner asks it.

* `Enforced`: no message of an unlisted sender has reached a runner or the outbox, and at one
  reading of the clock no more than the burst of any sender.
* `Fits`: the message that the worker processes would not break it.
* `enforced_iff_fits`: the allowlist is enforced exactly in the runs that fit.
* `fits_of_admitted`: a run fits if `admit` would have let through every message that a runner has
  seen.
-/

namespace TigerClaw
namespace Channels

open Windows (At Limited Room)
open Pipeline (Valid Moves)

variable {σ ε : Type}

def Handled.sender (self : Handled) : Bytes := self.arrival.msg.senderId

/-- A message of the sender has reached its runner. -/
def Handled.isRunOf (sender : Bytes) (self : Handled) : Bool := self.ran && self.sender == sender

/-- The sender is on the list, or everyone is. -/
def Config.Lists (self : Config) (sender : Bytes) : Prop :=
  self.hasWildcard = false → sender ∈ self.senders

structure Enforced (cfg : Config) (burst : ℕ) (s : Pipeline σ) : Prop where
  listed : ∀ h ∈ s.handled, h.ran → cfg.Lists h.sender
  silent : ∀ p ∈ s.posted, cfg.Lists p.arrival.msg.senderId
  limited : ∀ sender, Limited Handled.nowMs (Handled.isRunOf sender) burst s.handled

/-- A message that the worker has a runner for comes from a listed sender, and at this reading there
have been fewer than the burst of it. -/
def Fits (cfg : Config) (burst : ℕ) (source : RunnerSource σ ε) (s : Pipeline σ) :
    Pipeline.Action ε → Prop
  | .work nowMs _ _ => ∀ a, s.worker = .holding a → source.resolve a.msg.agentName →
      cfg.Lists a.msg.senderId ∧
        Room Handled.nowMs (Handled.isRunOf a.msg.senderId) burst s.handled nowMs
  | _ => True

/-- What is posted answers a message that has reached its runner. -/
def Answered (s : Pipeline σ) : Prop :=
  ∀ p ∈ s.posted, ∃ h ∈ s.handled, h.ran ∧ h.arrival = p.arrival

variable {cfg : Config} {burst : ℕ} {m : Manager} {source : RunnerSource σ ε}
  {s s' : Pipeline σ}

/-- What is posted in a step of the worker answers the message that it holds. -/
theorem mem_posted_worked {a : Arrival} {nowMs : Int64} {appendFails : Bool} {turned : Turned}
    {runner : σ} {p : Posted} (h : p ∈ (s.worked a nowMs appendFails turned runner).posted) :
    p ∈ s.posted ∨ (p.arrival = a ∧ turned.reply = some p.out) := by
  rcases List.mem_append.mp h with h | h
  · exact .inl h
  · rw [Option.mem_toList] at h
    obtain ⟨out, hout, rfl⟩ := Option.map_eq_some_iff.mp h
    split at hout
    · exact nomatch hout
    · exact .inr ⟨rfl, hout⟩

theorem answered_step (hs : Valid m s) (h : Answered s) {action : Pipeline.Action ε}
    (hstep : Pipeline.step m source s action = some s') : Answered s' := by
  cases Pipeline.moves_of_step hs.queue hstep with
  | received binding raw entry queue hentry hqueue hcapacity hcontents => exact h
  | took cancel a queue hidle hcons hqueue hcapacity => exact h
  | waited cancel hidle hnil => exact h
  | processed nowMs env appendFails a turned runner hholding hprocess =>
    intro p hp
    rcases mem_posted_worked hp with hp | ⟨rfl, hreply⟩
    · obtain ⟨e, he, hran, harrival⟩ := h p hp
      exact ⟨e, List.mem_append_left _ he, hran, harrival⟩
    · refine ⟨_, List.mem_append_right _ (List.mem_singleton_self _), ?_, rfl⟩
      exact (processOne_ran hprocess).2 (by rw [hreply]; exact Option.some_ne_none _)

/-- **A step keeps the allowlist enforced exactly if it fits.** -/
theorem enforced_step_iff (hs : Valid m s) (hanswered : Answered s)
    (henforced : Enforced cfg burst s) {action : Pipeline.Action ε}
    (hstep : Pipeline.step m source s action = some s') :
    Enforced cfg burst s' ↔ Fits cfg burst source s action := by
  have hanswered' := answered_step hs hanswered hstep
  cases Pipeline.moves_of_step hs.queue hstep with
  | received binding raw entry queue hentry hqueue hcapacity hcontents =>
    exact iff_of_true ⟨henforced.listed, henforced.silent, henforced.limited⟩ trivial
  | took cancel a queue hidle hcons hqueue hcapacity =>
    exact iff_of_true ⟨henforced.listed, henforced.silent, henforced.limited⟩ trivial
  | waited cancel hidle hnil =>
    exact iff_of_true ⟨henforced.listed, henforced.silent, henforced.limited⟩ trivial
  | processed nowMs env appendFails a turned runner hholding hprocess =>
    have hran := (processOne_ran hprocess).1
    have hhandled : (s.worked a nowMs appendFails turned runner).handled =
        s.handled ++ [⟨a, nowMs, turned.ran⟩] := rfl
    constructor
    · intro h b hb hresolve
      obtain rfl := Worker.holding.inj (hholding.symm.trans hb)
      rw [hresolve] at hran
      refine ⟨h.listed ⟨a, nowMs, turned.ran⟩ (hhandled ▸ List.mem_append_right _
        (List.mem_singleton_self _)) hran, ?_⟩
      have hlimited := h.limited a.msg.senderId
      rw [hhandled, Windows.limited_concat_iff] at hlimited
      exact hlimited.2 (by simp [Handled.isRunOf, hran, Handled.sender])
    · intro h
      have hfits := fun hr : turned.ran = true => h a hholding (hran ▸ hr)
      have hlisted : ∀ e ∈ (s.worked a nowMs appendFails turned runner).handled, e.ran →
          cfg.Lists e.sender := by
        intro e he hr
        rcases List.mem_append.mp he with he | he
        · exact henforced.listed e he hr
        · obtain rfl := List.mem_singleton.mp he
          exact (hfits hr).1
      refine ⟨hlisted, fun p hp => ?_, fun sender => ?_⟩
      · obtain ⟨e, he, hr, harrival⟩ := hanswered' p hp
        exact harrival ▸ hlisted e he hr
      · rw [hhandled, Windows.limited_concat_iff]
        refine ⟨henforced.limited sender, fun hp => ?_⟩
        obtain ⟨hr, hsender⟩ := (Bool.and_eq_true _ _).mp hp
        obtain rfl := eq_of_beq hsender
        exact (hfits hr).2

/-- **The allowlist is enforced exactly in the runs in which the worker takes up nothing that it
should not.** -/
theorem enforced_iff_fits {buffer : Buffer Arrival}
    {runner : σ} {as : List (Pipeline.Action ε)}
    (h : StepMachine.run (Pipeline.step m source) (Pipeline.start buffer runner) as = some s) :
    (∀ before s', before <+: as →
        StepMachine.run (Pipeline.step m source) (Pipeline.start buffer runner) before = some s' →
        Enforced cfg burst s') ↔
      StepMachine.Along (Pipeline.step m source) (Fits cfg burst source)
        (Pipeline.start buffer runner) as := by
  have hstart : Enforced cfg burst (Pipeline.start buffer runner) :=
    ⟨fun _ he => (nomatch he), fun _ hp => (nomatch hp), fun _ => Windows.limited_nil⟩
  exact StepMachine.always_iff_along (I := fun s => Valid m s ∧ Answered s)
    (fun s a s' hs hstep => ⟨Pipeline.valid_step hs.1 hstep, answered_step hs.1 hs.2 hstep⟩)
    (fun s a s' hs he hstep => enforced_step_iff hs.1 hs.2 he hstep)
    ⟨Pipeline.valid_start m buffer runner, fun _ hp => nomatch hp⟩ hstart h

/-- Only alice is listed, and only alice speaks. -/
theorem enforced_listed : ∃ s, StepMachine.run (Pipeline.step oneAgent echo)
      (Pipeline.start oneCell ()) (oneTurn (ascii "alice")) = some s ∧ s.posted.length = 1 ∧
    Enforced { senders := [ascii "alice"] } 4 s := by
  have hrun : StepMachine.run (Pipeline.step oneAgent echo) (Pipeline.start oneCell ())
      (oneTurn (ascii "alice")) = some _ := rfl
  refine ⟨_, hrun, rfl, (enforced_iff_fits hrun).mpr ?_ _ _ (List.prefix_refl _) hrun⟩
  refine (StepMachine.along_cons rfl).mpr ⟨trivial, (StepMachine.along_cons rfl).mpr ⟨trivial,
    fun a ha _ => ?_, fun _ _ => trivial⟩⟩
  obtain rfl := Worker.holding.inj ha
  refine ⟨fun _ => List.mem_singleton_self _, fun window hwindow _ => ?_⟩
  obtain rfl := List.suffix_nil.mp hwindow
  exact Nat.succ_pos 3

/-- Only alice is listed, and mallory is answered. -/
theorem not_enforced_unlisted : ∃ s, StepMachine.run (Pipeline.step oneAgent echo)
      (Pipeline.start oneCell ()) (oneTurn (ascii "mallory")) = some s ∧
    s.posted.map (·.arrival.msg.senderId) = [ascii "mallory"] ∧
    ¬ Enforced { senders := [ascii "alice"] } 4 s := by
  refine ⟨_, rfl, rfl, fun henforced => ?_⟩
  exact absurd (henforced.silent _ (List.mem_singleton_self _) rfl) (by decide)

/-! ## What `admit` would do -/

/-- The allowlist after a call of `admit` for each message. -/
def Allowlist.after (self : Allowlist) (handled : List Handled) : Outcome Empty Allowlist :=
  handled.foldlM (fun al h => do
    let (_, al) ← al.admitSender h.sender h.nowMs
    .ok al) self

/-- `admit`, called for each message that the worker takes up, lets this one through, if there is a
runner for it. -/
def Admitted (al : Allowlist) (source : RunnerSource σ ε) (s : Pipeline σ) :
    Pipeline.Action ε → Prop
  | .work nowMs _ _ => ∀ a, s.worker = .holding a → source.resolve a.msg.agentName →
      ∃ al₁ al₂, al.after s.handled = .ok al₁ ∧
        al₁.admitSender a.msg.senderId nowMs = .ok (.allow, al₂)
  | _ => True

/-- A message of the bucket has reached its runner. -/
def Handled.isRunIn (al : Allowlist) (key : Bytes) (self : Handled) : Bool :=
  self.ran && al.key self.sender == key

/-- The accounts of a bucket: at one reading, what has been let through and the tokens that are left
are together no more than the burst. -/
structure Accounts (al : Allowlist) (handled : List Handled) (key : Bytes) (b : Bucket) : Prop where
  le_burst : b.tokens ≤ al.burst
  spent : ∀ t window, window <:+ handled → At Handled.nowMs t window →
    window.countP (Handled.isRunIn al key) = 0 ∨
      (Allowlist.Settled b t ∧ 0 ≤ b.tokens ∧
        window.countP (Handled.isRunIn al key) + b.tokens ≤ al.burst)

/-- What is known of the allowlist after some messages: it has the buckets that it had, and their
accounts are right. -/
structure Booked (al al' : Allowlist) (handled : List Handled) : Prop where
  wildcard : al'.wildcard = al.wildcard
  burst : al'.burst = al.burst
  listed : ∀ key b, al'.buckets key = some b → ∃ first, al.buckets key = some first
  accounts : ∀ key b, al'.buckets key = some b → Accounts al handled key b

theorem booked_init {al : Allowlist} (h : Allowlist.init cfg = .ok al) : Booked al al [] where
  wildcard := rfl
  burst := rfl
  listed _ b hb := ⟨b, hb⟩
  accounts key b hb := by
    refine ⟨(Allowlist.buckets_init h hb).2.le, fun t window hwindow _ => .inl ?_⟩
    obtain rfl := List.suffix_nil.mp hwindow
    rfl

variable {al al₁ al₂ : Allowlist} {handled : List Handled} {h : Handled} {key : Bytes}
  {b b' : Bucket}

/-- A message that does not reach a runner of the bucket changes nothing in its accounts. -/
theorem Accounts.concat (haccounts : Accounts al handled key b)
    (hnot : h.isRunIn al key = false) : Accounts al (handled ++ [h]) key b := by
  refine ⟨haccounts.le_burst, fun t window hwindow hat => ?_⟩
  rcases List.suffix_concat_iff.mp hwindow with rfl | ⟨front, rfl, hfront⟩
  · exact .inl rfl
  · have hcount : (front ++ [h]).countP (Handled.isRunIn al key)
        = front.countP (Handled.isRunIn al key) := by
      rw [List.countP_append, List.countP_singleton, hnot]
      rfl
    rw [hcount]
    exact haccounts.spent t front hfront (Windows.at_concat.mp hat).1

/-- The accounts of the bucket that a call spends from. -/
theorem Accounts.spend (haccounts : Accounts al handled key b) {d : Decision}
    (hspends : Allowlist.Spends al.burst h.nowMs d b b') (hran : h.ran → d = .allow) :
    Accounts al (handled ++ [h]) key b' := by
  refine ⟨hspends.le_burst, fun t window hwindow hat => ?_⟩
  rcases List.suffix_concat_iff.mp hwindow with rfl | ⟨front, rfl, hfront⟩
  · exact .inl rfl
  obtain ⟨hatFront, rfl⟩ := Windows.at_concat.mp hat
  have hcases := haccounts.spent h.nowMs front hfront hatFront
  rw [List.countP_append, List.countP_singleton]
  by_cases hr : h.isRunIn al key = true
  · -- it is let through, and a token is gone
    obtain ⟨hpos, hle, hsame⟩ := hspends.allowed (hran ((Bool.and_eq_true _ _).mp hr).1)
    rw [if_pos hr]
    refine .inr ⟨hspends.settled, hpos, ?_⟩
    push_cast
    rcases hcases with hzero | ⟨hsettled, -, hsum⟩
    · rw [hzero]
      push_cast
      linarith
    · linarith [hsame hsettled]
  · rw [if_neg hr, Nat.add_zero]
    refine hcases.imp_right fun ⟨hsettled, hpos, hsum⟩ => ⟨hspends.settled, ?_⟩
    by_cases hd : d = .allow
    · obtain ⟨hpos', -, hsame⟩ := hspends.allowed hd
      exact ⟨hpos', by linarith [hsame hsettled]⟩
    · rw [hspends.refused hd hsettled]
      exact ⟨hpos, hsum⟩

/-- **A call of `admit` keeps the accounts**, if the message reaches a runner only when it is let
through. -/
theorem Booked.admitSender (hbooked : Booked al al₁ handled) {d : Decision}
    (hgate : al₁.admitSender h.sender h.nowMs = .ok (d, al₂)) (hran : h.ran → d = .allow) :
    Booked al al₂ (handled ++ [h]) := by
  have hkey : ∀ sender, al₁.key sender = al.key sender := fun sender => by
    rw [Allowlist.key, Allowlist.key, hbooked.wildcard]
  rcases Allowlist.admit_cases hgate with ⟨-, rfl, rfl⟩ | ⟨b, b', hb, rfl, hspends⟩
  · refine ⟨hbooked.wildcard, hbooked.burst, hbooked.listed, fun key b hb => ?_⟩
    refine (hbooked.accounts key b hb).concat ?_
    have hnot : h.ran = false := by
      refine Bool.eq_false_iff.mpr fun hr => ?_
      cases hran hr
    rw [Handled.isRunIn, hnot, Bool.false_and]
  · have haccounts := hbooked.accounts _ b hb
    have hspends' := hspends (hbooked.burst ▸ haccounts.le_burst)
    refine ⟨hbooked.wildcard, hbooked.burst, fun key b₂ hb₂ => ?_, fun key b₂ hb₂ => ?_⟩
    · by_cases hself : key = al₁.key h.sender
      · exact hself ▸ hbooked.listed _ b hb
      · refine hbooked.listed key b₂ ?_
        rwa [Allowlist.setBucket_buckets_of_ne _ hself] at hb₂
    · by_cases hself : key = al₁.key h.sender
      · subst hself
        rw [Allowlist.setBucket_buckets_self] at hb₂
        obtain rfl := Option.some.inj hb₂
        exact haccounts.spend (hbooked.burst ▸ hspends') hran
      · rw [Allowlist.setBucket_buckets_of_ne _ hself] at hb₂
        refine (hbooked.accounts key b₂ hb₂).concat ?_
        rw [Handled.isRunIn, ← hkey, beq_false_of_ne (Ne.symm hself), Bool.and_false]

theorem Allowlist.after_concat (self : Allowlist) (handled : List Handled) (h : Handled) :
    self.after (handled ++ [h]) =
      self.after handled >>= fun al => al.admitSender h.sender h.nowMs >>= fun r => .ok r.2 := by
  induction handled generalizing self with
  | nil =>
    simp only [after, List.nil_append, List.foldlM_cons, List.foldlM_nil, Outcome.ok_bind,
      Outcome.pure_eq]
    cases self.admitSender h.sender h.nowMs <;> rfl
  | cons first handled ih =>
    rw [List.cons_append, after, List.foldlM_cons, after, List.foldlM_cons]
    cases self.admitSender first.sender first.nowMs with
    | ok r => exact ih r.2
    | error e => rfl
    | trap t => rfl

/-- A message that `admit` lets through is one that may reach its runner. -/
theorem lists_of_allow (hinit : Allowlist.init cfg = .ok al) (hbooked : Booked al al₁ handled)
    {sender : Bytes} {t : Int64} (hgate : al₁.admitSender sender t = .ok (.allow, al₂)) :
    cfg.Lists sender ∧ Room Handled.nowMs (Handled.isRunOf sender) al.burst handled t := by
  have hkey : al₁.key sender = al.key sender := by
    rw [Allowlist.key, Allowlist.key, hbooked.wildcard]
  rcases Allowlist.admit_cases hgate with ⟨-, hd, -⟩ | ⟨b, b', hb, -, hspends⟩
  · cases hd
  have haccounts := hbooked.accounts _ b hb
  obtain ⟨hpos, hle, hsame⟩ := (hspends (hbooked.burst ▸ haccounts.le_burst)).allowed rfl
  refine ⟨fun hwildcard => ?_, fun window hwindow hat => ?_⟩
  · obtain ⟨first, hfirst⟩ := hbooked.listed _ b hb
    have hmem := (Allowlist.buckets_init hinit hfirst).1
    rw [hkey, Allowlist.key, Allowlist.wildcard_init hinit, hwildcard,
      if_neg Bool.false_ne_true, Config.keys, hwildcard, if_neg Bool.false_ne_true] at hmem
    exact hmem
  · have hmono : window.countP (Handled.isRunOf sender) ≤
        window.countP (Handled.isRunIn al (al₁.key sender)) := by
      refine List.countP_mono_left fun h _ hr => ?_
      obtain ⟨hran, hsender⟩ := (Bool.and_eq_true _ _).mp hr
      rw [Handled.isRunIn, hran, eq_of_beq hsender, hkey, beq_self_eq_true]
      rfl
    refine lt_of_le_of_lt hmono ?_
    rcases haccounts.spent t window hwindow hat with hzero | ⟨hsettled, -, hsum⟩
    · rw [hzero]
      exact Allowlist.burst_pos hinit
    · have hlt :
          ((window.countP (Handled.isRunIn al (al₁.key sender)) : ℕ) : ℚ) + 1 ≤ al.burst := by
        linarith [hsame hsettled]
      exact_mod_cast hlt

/-- **A worker that ran only what `admit` lets through would enforce the allowlist.** -/
theorem fits_of_admitted (hinit : Allowlist.init cfg = .ok al) {buffer : Buffer Arrival}
    {runner : σ} {as : List (Pipeline.Action ε)}
    (h : StepMachine.Along (Pipeline.step m source) (Admitted al source)
      (Pipeline.start buffer runner) as) :
    StepMachine.Along (Pipeline.step m source) (Fits cfg al.burst source)
      (Pipeline.start buffer runner) as := by
  refine StepMachine.along_imp (I := fun s => Valid m s ∧
    ∀ al', al.after s.handled = .ok al' → Booked al al' s.handled) ?_ ?_
    ⟨Pipeline.valid_start m buffer runner, ?_⟩ h
  · rintro s a s' ⟨hvalid, hbooked⟩ hadmitted hstep
    refine ⟨Pipeline.valid_step hvalid hstep, ?_⟩
    cases Pipeline.moves_of_step hvalid.queue hstep with
    | received binding raw entry queue hentry hqueue hcapacity hcontents => exact hbooked
    | took cancel a queue hidle hcons hqueue hcapacity => exact hbooked
    | waited cancel hidle hnil => exact hbooked
    | processed nowMs env appendFails a turned runner hholding hprocess =>
      intro al' hafter
      change al.after (s.handled ++ [⟨a, nowMs, turned.ran⟩]) = _ at hafter
      rw [Allowlist.after_concat] at hafter
      obtain ⟨al₁, hafter₁, hafter⟩ := Outcome.bind_eq_ok.mp hafter
      obtain ⟨⟨d, al₂⟩, hgate, hafter⟩ := Outcome.bind_eq_ok.mp hafter
      obtain rfl := Outcome.ok.inj hafter
      refine (hbooked al₁ hafter₁).admitSender hgate fun hran => ?_
      obtain ⟨al₃, al₄, hafter₃, hgate₃⟩ :=
        hadmitted a hholding ((processOne_ran hprocess).1 ▸ hran)
      obtain rfl := Outcome.ok.inj (hafter₁.symm.trans hafter₃)
      exact (Prod.mk.inj (Outcome.ok.inj (hgate.symm.trans hgate₃))).1
  · rintro s (_ | _ | ⟨nowMs, env, appendFails⟩) ⟨-, hbooked⟩ hadmitted
    · trivial
    · trivial
    · intro a hholding hresolve
      obtain ⟨al₁, al₂, hafter, hgate⟩ := hadmitted a hholding hresolve
      exact lists_of_allow hinit (hbooked al₁ hafter) hgate
  · intro al' hafter
    obtain rfl := Outcome.ok.inj hafter
    exact booked_init hinit

end Channels
end TigerClaw
