import TigerClaw.Daemon.Pidfile
import TigerClaw.Library.StepMachine

/-!
# Gateways and their pid file

`runGateway` and `runStop` of `cli/commands/gateway.zig`.  Gateways that are started without
`--force` write their pids into one file and bind one port, and `gateway stop` looks into the file
for the process to signal.  What lies between two system calls, other processes may fill.

* `step`: any number of gateways and of stops, among the other processes of the host.  What a signal
  does to a process is a step of that process.
* `Careful`: nobody truncates or removes the file of a gateway that is going to serve, or serves;
  and none serves that could not write it.
* `Sound`: the file holds the pid of no process that can be signalled, or it has been written
  completely.
* `pidfile_truth`: in every run that is careful, the file has the pid of the gateway that serves;
  and a stop signals who has written the file, or nobody, exactly where the file is sound.
-/

namespace TigerClaw
namespace Cli

namespace Gateway

open Daemon
open Daemon.Pidfile (Dir KillError render parsePid)

/-- Where a gateway stands. -/
inductive Phase where
  | starting
  /-- The file is truncated. -/
  | opened (inode : ℕ)
  /-- It is behind the write, whether that went through or not. -/
  | published (complete : Bool)
  | serving
  /-- It returns, and the file is still there. -/
  | leaving
  | ending

inductive Process where
  | gateway (phase : Phase)
  /-- Another process of the host, that may be signalled or not. -/
  | other (permitted : Bool)

/-- `std.posix.SIG`. -/
inductive Signal where
  | cont
  | term
  | kill
  deriving DecidableEq

/-- A signal that was delivered. -/
structure Sent where
  pid : ℤ
  signal : Signal
  deriving DecidableEq

inductive StopRunError where
  | notRunning
  | orphanListener
  | pidfileCorrupt
  | signalFailed
  | stateDirOpenFailed
  | timeout

/-- Where a stop stands. -/
inductive Stop where
  | idle
  /-- There was no file. -/
  | missing (force : Bool)
  | found (pid : ℤ) (force : Bool)
  /-- The pid was stale. -/
  | clearing
  | live (pid : ℤ) (force : Bool)
  | woken (pid : ℤ) (force : Bool)
  | polling (pid : ℤ) (force : Bool) (left : ℕ)
  /-- The grace period has elapsed. -/
  | expired (pid : ℤ) (force : Bool)
  /-- The file is removed, and then the stop returns. -/
  | removing (result : Except StopRunError Unit)

structure World where
  dir : Dir
  table : ℕ → Option Process
  /-- What `kill` finds for the numbers that are not pids: none, or processes that may be signalled
  or not. -/
  group : ℤ → Option Bool
  port : Option ℕ := none
  stops : ℕ → Stop := fun _ => .idle
  answers : ℕ → Option (Except StopRunError Unit) := fun _ => none
  sent : List Sent := []
  /-- Who has written the file completely. -/
  wrote : List ℕ := []

def Process.permitted : Process → Bool
  | .gateway _ => true
  | .other permitted => permitted

namespace World

/-- `kill(pid, 0)`. -/
def kill (self : World) (pid : ℤ) : Except KillError Unit :=
  match if 0 < pid then (self.table pid.toNat).map Process.permitted else self.group pid with
  | none => .error .processNotFound
  | some false => .error .permissionDenied
  | some true => .ok ()

/-- A signal; one that cannot be delivered changes nothing. -/
def signal (self : World) (pid : ℤ) (signal : Signal) : World :=
  match self.kill pid with
  | .ok _ => { self with sent := self.sent ++ [⟨pid, signal⟩] }
  | .error _ => self

def become (self : World) (pid : ℕ) (process : Option Process) : World :=
  { self with table := Function.update self.table pid process }

/-- The stop goes on. -/
def goOn (self : World) (k : ℕ) (s : Stop) : World :=
  { self with stops := Function.update self.stops k s }

/-- The stop returns. -/
def returned (self : World) (k : ℕ) (result : Except StopRunError Unit) : World :=
  { self with
    stops := Function.update self.stops k .idle
    answers := Function.update self.answers k (some result) }

/-- `pidfile.remove`; its failure is passed over. -/
def removeFile (self : World) (fault : Bool) : World :=
  if fault then self else { self with dir := self.dir.remove }

/-- Every 100 ms for 5 s. -/
def polls : ℕ := 50

/-- The rest of `runStop`, up to the next system call. -/
def goStop (self : World) (k : ℕ) (fault : Bool) : Option World :=
  match self.stops k with
  | .idle => none
  | .missing force =>
    match self.port with
    | none => some (self.returned k (.error .notRunning))
    | some orphan =>
      -- the listener is asked for with `lsof`
      if force && !fault then
        some (((self.signal orphan .cont).signal orphan .kill).returned k (.ok ()))
      else some (self.returned k (.error .orphanListener))
  | .found pid force =>
    if Pidfile.isStale self.dir self.kill fault then some (self.goOn k .clearing)
    else some (self.goOn k (.live pid force))
  | .clearing =>
    some ((self.removeFile fault).returned k
      (.error (if self.port = none then .notRunning else .orphanListener)))
  | .live pid force => some ((self.signal pid .cont).goOn k (.woken pid force))
  | .woken pid force =>
    match self.kill pid with
    | .error .processNotFound => some (self.goOn k (.removing (.ok ())))
    | .error .permissionDenied => some (self.returned k (.error .signalFailed))
    | .ok _ =>
      some ((self.signal pid (if force then .kill else .term)).goOn k (.polling pid force polls))
  | .polling pid force left =>
    match left with
    | 0 => some (self.goOn k (.expired pid force))
    | left + 1 =>
      match self.kill pid with
      | .ok _ => some (self.goOn k (.polling pid force left))
      | .error .processNotFound => some (self.goOn k (.removing (.ok ())))
      | .error .permissionDenied => some (self.goOn k (.expired pid force))
  | .expired pid force =>
    some ((if force then self else self.signal pid .kill).goOn k (.removing (.error .timeout)))
  | .removing result => some ((self.removeFile fault).returned k result)

end World

/-- One system call of a process, with what lies before it. -/
inductive Action where
  /-- Another process of the host begins or ends. -/
  | host (pid : ℕ) (other : Option Bool)
  | spawn (pid : ℕ)
  /-- `createFile` of `pidfile.write`. -/
  | create (pid : ℕ) (fault : Bool)
  /-- The write itself, or the first bytes of one that fails. -/
  | flush (pid : ℕ) (torn : Option ℕ)
  | bind (pid : ℕ) (fault : Bool)
  /-- The accept loop ends, and the port is free. -/
  | exit (pid : ℕ)
  /-- The deferred `pidfile.remove`. -/
  | remove (pid : ℕ) (fault : Bool)
  /-- A gateway crashes, or has returned. -/
  | die (pid : ℕ)
  | runStop (k : ℕ) (force fault : Bool)
  | stop (k : ℕ) (fault : Bool)

def step (w : World) : Action → Option World
  | .host pid other =>
    match w.table pid with
    | some (.gateway _) => none
    | _ => some (w.become pid (other.map .other))
  | .spawn pid =>
    if w.table pid = none ∧ 0 < pid ∧ pid < 2 ^ 31 then
      some (w.become pid (some (.gateway .starting)))
    else none
  | .create pid fault =>
    match w.table pid with
    | some (.gateway .starting) =>
      if fault then some (w.become pid (some (.gateway (.published false))))
      else
        let created := w.dir.createFile
        some ({ w with dir := created.1 }.become pid (some (.gateway (.opened created.2))))
    | _ => none
  | .flush pid torn =>
    match w.table pid with
    | some (.gateway (.opened inode)) =>
      match torn with
      | none =>
        some ({ w with
          dir := w.dir.write inode (render pid)
          wrote := pid :: w.wrote }.become pid (some (.gateway (.published true))))
      | some n =>
        some ({ w with dir := w.dir.write inode ((render pid).take n) }.become pid
          (some (.gateway (.published false))))
    | _ => none
  | .bind pid fault =>
    match w.table pid with
    | some (.gateway (.published _)) =>
      if w.port = none ∧ fault = false then
        some ({ w with port := some pid }.become pid (some (.gateway .serving)))
      else some (w.become pid (some (.gateway .leaving)))
    | _ => none
  | .exit pid =>
    match w.table pid with
    | some (.gateway .serving) =>
      some ({ w with port := none }.become pid (some (.gateway .leaving)))
    | _ => none
  | .remove pid fault =>
    match w.table pid with
    | some (.gateway .leaving) =>
      some ((w.removeFile fault).become pid (some (.gateway .ending)))
    | _ => none
  | .die pid =>
    match w.table pid with
    | some (.gateway _) =>
      some ({ w with port := if w.port = some pid then none else w.port }.become pid none)
    | _ => none
  | .runStop k force fault =>
    match w.stops k with
    | .idle =>
      match Pidfile.read w.dir fault with
      | .ok pid => some (w.goOn k (.found pid force))
      | .error .fileMissing => some (w.goOn k (.missing force))
      | .error .corrupt => some (w.returned k (.error .pidfileCorrupt))
      | .error .ioFailure => some (w.returned k (.error .stateDirOpenFailed))
    | _ => none
  | .stop k fault => w.goStop k fault

/-! ## The file of a gateway -/

/-- From the time the file is truncated until the port is free. -/
def Phase.publishes : Phase → Bool
  | .opened _ | .published true | .serving => true
  | _ => false

/-- The gateway is going to serve, or serves, with the file that it has written or writes. -/
def World.Publishing (self : World) (pid : ℕ) : Prop :=
  ∃ phase, self.table pid = some (.gateway phase) ∧ phase.publishes = true

/-- The next step of the stop removes the file. -/
def Stop.removes : Stop → Bool
  | .clearing | .removing _ => true
  | _ => false

/-- **A step that is careful** does not take the file away from a gateway that publishes itself, and
does not serve without one. -/
def Careful (w : World) : Action → Prop
  | .create _ fault => fault = true ∨ ∀ q, ¬ w.Publishing q
  | .bind pid fault =>
    w.table pid = some (.gateway (.published false)) → ¬ (w.port = none ∧ fault = false)
  | .remove _ fault => fault = true ∨ ∀ q, ¬ w.Publishing q
  | .stop k fault => (w.stops k).removes = true → fault = true ∨ ∀ q, ¬ w.Publishing q
  | _ => True

/-- What careful steps keep. -/
structure Valid (w : World) : Prop where
  pids : ∀ p phase, w.table p = some (.gateway phase) → 0 < p ∧ p < 2 ^ 31
  alone : ∀ p q, w.Publishing p → w.Publishing q → p = q
  opened : ∀ p inode, w.table p = some (.gateway (.opened inode)) →
    w.dir.link = some inode ∧ w.dir.data inode = []
  written : ∀ p phase, w.table p = some (.gateway phase) →
    phase = .published true ∨ phase = .serving → w.dir.contents = some (render p)
  port : ∀ p, w.port = some p → w.table p = some (.gateway .serving)

namespace World

variable (w : World) (pid : ℕ) (process : Option Process)

@[simp] theorem table_become (q : ℕ) :
    (w.become pid process).table q = if q = pid then process else w.table q :=
  Function.update_apply ..

@[simp] theorem dir_become : (w.become pid process).dir = w.dir := rfl

@[simp] theorem port_become : (w.become pid process).port = w.port := rfl

@[simp] theorem dir_signal (n : ℤ) (s : Signal) : (w.signal n s).dir = w.dir := by
  rw [signal]
  split <;> rfl

@[simp] theorem port_signal (n : ℤ) (s : Signal) : (w.signal n s).port = w.port := by
  rw [signal]
  split <;> rfl

@[simp] theorem table_signal (n : ℤ) (s : Signal) : (w.signal n s).table = w.table := by
  rw [signal]
  split <;> rfl

@[simp] theorem group_signal (n : ℤ) (s : Signal) : (w.signal n s).group = w.group := by
  rw [signal]
  split <;> rfl

@[simp] theorem wrote_signal (n : ℤ) (s : Signal) : (w.signal n s).wrote = w.wrote := by
  rw [signal]
  split <;> rfl

@[simp] theorem stops_signal (n : ℤ) (s : Signal) : (w.signal n s).stops = w.stops := by
  rw [signal]
  split <;> rfl

@[simp] theorem table_removeFile (fault : Bool) : (w.removeFile fault).table = w.table := by
  rw [removeFile]
  split <;> rfl

@[simp] theorem port_removeFile (fault : Bool) : (w.removeFile fault).port = w.port := by
  rw [removeFile]
  split <;> rfl

end World

section Valid

variable {w w' : World} {pid : ℕ} {process : Option Process}

theorem World.publishing_of_ne (htable : w'.table = (w.become pid process).table) {q : ℕ}
    (hq : q ≠ pid) : w'.Publishing q ↔ w.Publishing q := by
  rw [World.Publishing, World.Publishing, htable, World.table_become, if_neg hq]

theorem Valid.others (h : Valid w) (hpid : w.Publishing pid) : ∀ q ≠ pid, ¬ w.Publishing q :=
  fun q hq hpublishing => hq (h.alone q pid hpublishing hpid)

/-- **A step of one process** keeps what is valid, if it leaves the file alone or nobody else needs
it, and has the file itself when it needs it. -/
theorem Valid.become (h : Valid w) (htable : w'.table = (w.become pid process).table)
    (hpid : ∀ phase, process = some (.gateway phase) → 0 < pid ∧ pid < 2 ^ 31)
    (hdir : w'.dir = w.dir ∨ ∀ q ≠ pid, ¬ w.Publishing q)
    (halone : ∀ phase, process = some (.gateway phase) → phase.publishes = true →
      ∀ q ≠ pid, ¬ w.Publishing q)
    (hopened : ∀ inode, process = some (.gateway (.opened inode)) →
      w'.dir.link = some inode ∧ w'.dir.data inode = [])
    (hwritten : ∀ phase, process = some (.gateway phase) →
      phase = .published true ∨ phase = .serving → w'.dir.contents = some (render pid))
    (hport : ∀ p, w'.port = some p →
      p = pid ∧ process = some (.gateway .serving) ∨ p ≠ pid ∧ w.port = some p) : Valid w' := by
  have hself : w'.table pid = process := by rw [htable, World.table_become, if_pos rfl]
  have hother : ∀ q ≠ pid, w'.table q = w.table q := by
    intro q hq
    rw [htable, World.table_become, if_neg hq]
  have hkeeps : ∀ q ≠ pid, w.Publishing q → w'.dir = w.dir := by
    intro q hq hpublishing
    exact hdir.resolve_right fun hnone => hnone q hq hpublishing
  constructor
  · intro q phase hq
    by_cases heq : q = pid
    · subst heq
      exact hpid phase (hself ▸ hq)
    · exact h.pids q phase (hother q heq ▸ hq)
  · have hwith : ∀ q ≠ pid, w'.Publishing pid → ¬ w'.Publishing q := by
      rintro q hq ⟨phase, hphase, hpublishes⟩ hpublishing
      exact halone phase (hself ▸ hphase) hpublishes q hq
        ((World.publishing_of_ne htable hq).mp hpublishing)
    intro p q hp hq
    by_cases hpeq : p = pid
    · by_cases hqeq : q = pid
      · rw [hpeq, hqeq]
      · exact absurd hq (hwith q hqeq (hpeq ▸ hp))
    · by_cases hqeq : q = pid
      · exact absurd hp (hwith p hpeq (hqeq ▸ hq))
      · exact h.alone p q ((World.publishing_of_ne htable hpeq).mp hp)
          ((World.publishing_of_ne htable hqeq).mp hq)
  · intro q inode hq
    by_cases heq : q = pid
    · subst heq
      exact hopened inode (hself ▸ hq)
    · rw [hother q heq] at hq
      rw [hkeeps q heq ⟨_, hq, rfl⟩]
      exact h.opened q inode hq
  · intro q phase hq hphase
    by_cases heq : q = pid
    · subst heq
      exact hwritten phase (hself ▸ hq) hphase
    · rw [hother q heq] at hq
      have hpublishing : w.Publishing q := ⟨phase, hq, by rcases hphase with rfl | rfl <;> rfl⟩
      rw [hkeeps q heq hpublishing]
      exact h.written q phase hq hphase
  · intro p hp
    rcases hport p hp with ⟨rfl, hserving⟩ | ⟨hne, hbefore⟩
    · rw [hself, hserving]
    · rw [hother p hne, h.port p hbefore]

/-- The same for a gateway that goes on. -/
theorem Valid.go {phase : Phase} (h : Valid w)
    (htable : w'.table = (w.become pid (some (.gateway phase))).table)
    (hpid : 0 < pid ∧ pid < 2 ^ 31) (hdir : w'.dir = w.dir ∨ ∀ q ≠ pid, ¬ w.Publishing q)
    (halone : phase.publishes = true → ∀ q ≠ pid, ¬ w.Publishing q)
    (hopened : ∀ inode, phase = .opened inode →
      w'.dir.link = some inode ∧ w'.dir.data inode = [])
    (hwritten : phase = .published true ∨ phase = .serving → w'.dir.contents = some (render pid))
    (hport : ∀ p, w'.port = some p → p = pid ∧ phase = .serving ∨ p ≠ pid ∧ w.port = some p) :
    Valid w' := by
  have hphase : ∀ phase', some (Process.gateway phase) = some (.gateway phase') →
      phase = phase' := fun phase' heq => Process.gateway.inj (Option.some.inj heq)
  refine h.become htable (fun _ _ => hpid) hdir ?_ ?_ ?_ ?_
  · intro phase' heq hpublishes
    exact halone (hphase phase' heq ▸ hpublishes)
  · intro inode heq
    exact hopened inode (hphase _ heq)
  · intro phase' heq hcase
    exact hwritten (hphase phase' heq ▸ hcase)
  · intro p hp
    exact (hport p hp).imp (fun ⟨heq, hserving⟩ => ⟨heq, by rw [hserving]⟩) id

/-- A gateway that does not serve yet does not have the port. -/
theorem Valid.port_ne (h : Valid w) {phase : Phase}
    (hpid : w.table pid = some (.gateway phase)) (hphase : phase ≠ .serving) {p : ℕ}
    (hp : w.port = some p) : p ≠ pid ∧ w.port = some p := by
  refine ⟨?_, hp⟩
  rintro rfl
  exact hphase (Process.gateway.inj (Option.some.inj (hpid.symm.trans (h.port p hp))))

end Valid

/-! ## What a stop can do -/

/-- The pid that a stop is after. -/
def Stop.target : Stop → Option ℤ
  | .found pid _ | .live pid _ | .woken pid _ | .polling pid _ _ | .expired pid _ => some pid
  | _ => none

/-- The listener is signalled, and no file has been found. -/
def Stop.isMissing : Stop → Bool
  | .missing _ => true
  | _ => false

/-- What one step of a stop does. -/
structure Goes (w : World) (k : ℕ) (fault : Bool) (w' : World) : Prop where
  table : w'.table = w.table
  group : w'.group = w.group
  port : w'.port = w.port
  wrote : w'.wrote = w.wrote
  dir : w'.dir = w.dir ∨ (w.stops k).removes = true ∧ fault = false
  target : (w'.stops k).target = none ∨ (w'.stops k).target = (w.stops k).target
  isMissing : (w'.stops k).isMissing = false
  sent : (w.stops k).isMissing = false → ∃ new, w'.sent = w.sent ++ new ∧
    ∀ s ∈ new, (w.stops k).target = some s.pid ∧ w.kill s.pid = .ok ()

theorem World.sent_signal (w : World) (pid : ℤ) (sig : Signal) :
    ∃ new, (w.signal pid sig).sent = w.sent ++ new ∧
      ∀ s ∈ new, pid = s.pid ∧ w.kill s.pid = .ok () := by
  rw [signal]
  split
  · exact ⟨[⟨pid, sig⟩], rfl, fun s hs => List.mem_singleton.mp hs ▸ ⟨rfl, ‹_›⟩⟩
  · exact ⟨[], (List.append_nil _).symm, fun _ hs => absurd hs List.not_mem_nil⟩

theorem Goes.of_goOn {w : World} {k : ℕ} {fault : Bool} {s : Stop}
    (htarget : s.target = none ∨ s.target = (w.stops k).target) (hs : s.isMissing = false) :
    Goes w k fault (w.goOn k s) := by
  have hstop : (w.goOn k s).stops k = s := Function.update_self ..
  exact {
    table := rfl
    group := rfl
    port := rfl
    wrote := rfl
    dir := .inl rfl
    target := by rwa [hstop]
    isMissing := by rwa [hstop]
    sent := fun _ => ⟨[], (List.append_nil _).symm, fun _ h => absurd h List.not_mem_nil⟩ }

theorem Goes.of_signal {w : World} {k : ℕ} {fault : Bool} {pid : ℤ} {sig : Signal} {s : Stop}
    (hpid : (w.stops k).target = some pid)
    (htarget : s.target = none ∨ s.target = (w.stops k).target) (hs : s.isMissing = false) :
    Goes w k fault ((w.signal pid sig).goOn k s) := by
  have hstop : ((w.signal pid sig).goOn k s).stops k = s := Function.update_self ..
  exact {
    table := w.table_signal pid sig
    group := w.group_signal pid sig
    port := w.port_signal pid sig
    wrote := w.wrote_signal pid sig
    dir := .inl (w.dir_signal pid sig)
    target := by rwa [hstop]
    isMissing := by rwa [hstop]
    sent := fun _ => by
      obtain ⟨new, hnew, hall⟩ := w.sent_signal pid sig
      exact ⟨new, hnew, fun s hs => ⟨(hall s hs).1 ▸ hpid, (hall s hs).2⟩⟩ }

theorem Goes.of_returned {w : World} {k : ℕ} {fault : Bool} {result : Except StopRunError Unit} :
    Goes w k fault (w.returned k result) := by
  have hstop : (w.returned k result).stops k = .idle := Function.update_self ..
  exact {
    table := rfl
    group := rfl
    port := rfl
    wrote := rfl
    dir := .inl rfl
    target := .inl (by rw [hstop]; rfl)
    isMissing := by rw [hstop]; rfl
    sent := fun _ => ⟨[], (List.append_nil _).symm, fun _ h => absurd h List.not_mem_nil⟩ }

theorem Goes.of_removeFile {w : World} {k : ℕ} {fault : Bool} {result : Except StopRunError Unit}
    (h : (w.stops k).removes = true) : Goes w k fault ((w.removeFile fault).returned k result) := by
  cases fault with
  | true => exact of_returned
  | false =>
    have hgoes : Goes w k false (w.returned k result) := of_returned
    exact { hgoes with dir := .inr ⟨h, rfl⟩ }

theorem goes_of_goStop {w w' : World} {k : ℕ} {fault : Bool} (h : w.goStop k fault = some w') :
    Goes w k fault w' := by
  rw [World.goStop] at h
  cases hs : w.stops k with
  | idle => rw [hs] at h; cases h
  | missing force =>
    rw [hs] at h
    dsimp only at h
    split at h
    · obtain rfl := Option.some.inj h
      exact .of_returned
    · split at h
      · obtain rfl := Option.some.inj h
        exact {
          table := by simp [World.returned]
          group := by simp [World.returned]
          port := by simp [World.returned]
          wrote := by simp [World.returned]
          dir := .inl (by simp [World.returned])
          target := .inl (by simp [World.returned, Stop.target])
          isMissing := by simp [World.returned, Stop.isMissing]
          sent := fun hmissing => by rw [hs] at hmissing; cases hmissing }
      · obtain rfl := Option.some.inj h
        exact .of_returned
  | found pid force =>
    rw [hs] at h
    dsimp only at h
    split at h
    · obtain rfl := Option.some.inj h
      exact .of_goOn (.inl rfl) rfl
    · obtain rfl := Option.some.inj h
      exact .of_goOn (.inr (by rw [hs]; rfl)) rfl
  | clearing =>
    rw [hs] at h
    obtain rfl := Option.some.inj h
    exact .of_removeFile (by rw [hs]; rfl)
  | live pid force =>
    rw [hs] at h
    obtain rfl := Option.some.inj h
    exact .of_signal (by rw [hs]; rfl) (.inr (by rw [hs]; rfl)) rfl
  | woken pid force =>
    rw [hs] at h
    dsimp only at h
    split at h
    · obtain rfl := Option.some.inj h
      exact .of_goOn (.inl rfl) rfl
    · obtain rfl := Option.some.inj h
      exact .of_returned
    · obtain rfl := Option.some.inj h
      exact .of_signal (by rw [hs]; rfl) (.inr (by rw [hs]; rfl)) rfl
  | polling pid force left =>
    rw [hs] at h
    cases left with
    | zero =>
      obtain rfl := Option.some.inj h
      exact .of_goOn (.inr (by rw [hs]; rfl)) rfl
    | succ left =>
      dsimp only at h
      split at h
      · obtain rfl := Option.some.inj h
        exact .of_goOn (.inr (by rw [hs]; rfl)) rfl
      · obtain rfl := Option.some.inj h
        exact .of_goOn (.inl rfl) rfl
      · obtain rfl := Option.some.inj h
        exact .of_goOn (.inr (by rw [hs]; rfl)) rfl
  | expired pid force =>
    rw [hs] at h
    obtain rfl := Option.some.inj h
    cases force with
    | true => exact .of_goOn (.inl rfl) rfl
    | false => exact .of_signal (by rw [hs]; rfl) (.inl rfl) rfl
  | removing result =>
    rw [hs] at h
    obtain rfl := Option.some.inj h
    exact .of_removeFile (by rw [hs]; rfl)

/-! ## Runs that are careful -/

/-- What leaves the processes and the port alone keeps what is valid, if the file stays or nobody
needs it. -/
theorem Valid.frame {w w' : World} (h : Valid w) (htable : w'.table = w.table)
    (hport : w'.port = w.port) (hdir : w'.dir = w.dir ∨ ∀ q, ¬ w.Publishing q) : Valid w' := by
  have hsame : ∀ q, w'.Publishing q ↔ w.Publishing q := by
    intro q
    rw [World.Publishing, World.Publishing, htable]
  have hkeeps : ∀ q phase, w'.table q = some (.gateway phase) → phase.publishes = true →
      w'.dir = w.dir := by
    intro q phase hq hpublishes
    exact hdir.resolve_right fun hnone => hnone q ⟨phase, htable ▸ hq, hpublishes⟩
  exact {
    pids := fun p phase hp => h.pids p phase (htable ▸ hp)
    alone := fun p q hp hq => h.alone p q ((hsame p).mp hp) ((hsame q).mp hq)
    opened := fun p inode hp => by
      rw [hkeeps p _ hp rfl]
      exact h.opened p inode (htable ▸ hp)
    written := fun p phase hp hphase => by
      rw [hkeeps p phase hp (by rcases hphase with rfl | rfl <;> rfl)]
      exact h.written p phase (htable ▸ hp) hphase
    port := fun p hp => htable ▸ h.port p (hport ▸ hp) }

theorem World.removeFile_eq (w : World) {fault : Bool} {P : Prop} (h : fault = true ∨ P) :
    (w.removeFile fault).dir = w.dir ∨ P := by
  rcases h with rfl | h
  · exact .inl rfl
  · exact .inr h

theorem valid_step {w w' : World} {a : Action} (h : Valid w) (ha : Careful w a)
    (hstep : step w a = some w') : Valid w' := by
  cases a with
  | host pid other =>
    rw [step] at hstep
    split at hstep
    · cases hstep
    · rename_i hother
      obtain rfl := Option.some.inj hstep
      have hnot : ∀ phase, other.map Process.other ≠ some (.gateway phase) := by
        intro phase
        cases other <;> exact nofun
      refine h.become rfl (fun phase hphase => absurd hphase (hnot phase)) (.inl rfl)
        (fun phase hphase => absurd hphase (hnot phase))
        (fun _ hphase => absurd hphase (hnot _)) (fun phase hphase => absurd hphase (hnot phase))
        fun p hp => .inr ⟨?_, hp⟩
      rintro rfl
      exact hother _ (h.port p hp)
  | spawn pid =>
    rw [step] at hstep
    split at hstep
    · rename_i hnew
      obtain rfl := Option.some.inj hstep
      refine h.become rfl (fun _ _ => hnew.2) (.inl rfl) ?_ nofun ?_ fun p hp => .inr ⟨?_, hp⟩
      · rintro phase hphase hpublishes
        obtain rfl := Process.gateway.inj (Option.some.inj hphase)
        cases hpublishes
      · rintro phase hphase hwritten
        obtain rfl := Process.gateway.inj (Option.some.inj hphase)
        rcases hwritten with heq | heq <;> cases heq
      · rintro rfl
        have := hnew.1 ▸ h.port p hp
        cases this
    · cases hstep
  | create pid fault =>
    rw [step] at hstep
    split at hstep
    on_goal 2 => cases hstep
    rename_i hbefore
    have hpid := h.pids pid _ hbefore
    split at hstep
    · obtain rfl := Option.some.inj hstep
      exact h.go rfl hpid (.inl rfl) nofun nofun nofun fun p hp => .inr (h.port_ne hbefore nofun hp)
    · rename_i hfault
      obtain rfl := Option.some.inj hstep
      have hnone : ∀ q ≠ pid, ¬ w.Publishing q := fun q _ => ha.resolve_left hfault q
      refine h.go rfl hpid (.inr hnone) (fun _ => hnone) ?_ nofun
        fun p hp => .inr (h.port_ne hbefore nofun hp)
      intro inode heq
      obtain rfl := Phase.opened.inj heq
      exact w.dir.createFile_spec
  | flush pid torn =>
    rw [step] at hstep
    split at hstep
    on_goal 2 => cases hstep
    rename_i inode hbefore
    have hpid := h.pids pid _ hbefore
    have hnone : ∀ q ≠ pid, ¬ w.Publishing q := h.others ⟨_, hbefore, rfl⟩
    obtain ⟨hlink, hdata⟩ := h.opened pid inode hbefore
    split at hstep
    · obtain rfl := Option.some.inj hstep
      exact h.go rfl hpid (.inr hnone) (fun _ => hnone) nofun
        (fun _ => Dir.contents_write hlink hdata _) fun p hp => .inr (h.port_ne hbefore nofun hp)
    · obtain rfl := Option.some.inj hstep
      exact h.go rfl hpid (.inr hnone) nofun nofun nofun fun p hp =>
        .inr (h.port_ne hbefore nofun hp)
  | bind pid fault =>
    rw [step] at hstep
    split at hstep
    on_goal 2 => cases hstep
    rename_i complete hbefore
    have hpid := h.pids pid _ hbefore
    split at hstep
    · rename_i hfree
      obtain rfl := Option.some.inj hstep
      cases complete with
      | false => exact absurd hfree (ha hbefore)
      | true =>
        refine h.go rfl hpid (.inl rfl) (fun _ => h.others ⟨_, hbefore, rfl⟩) nofun
          (fun _ => h.written pid _ hbefore (.inl rfl)) fun p hp => .inl ⟨?_, rfl⟩
        exact (Option.some.inj hp).symm
    · obtain rfl := Option.some.inj hstep
      exact h.go rfl hpid (.inl rfl) nofun nofun nofun fun p hp => .inr (h.port_ne hbefore nofun hp)
  | exit pid =>
    rw [step] at hstep
    split at hstep
    on_goal 2 => cases hstep
    rename_i hbefore
    obtain rfl := Option.some.inj hstep
    exact h.go rfl (h.pids pid _ hbefore) (.inl rfl) nofun nofun nofun nofun
  | remove pid fault =>
    rw [step] at hstep
    split at hstep
    on_goal 2 => cases hstep
    rename_i hbefore
    obtain rfl := Option.some.inj hstep
    have htable : ((w.removeFile fault).become pid (some (.gateway .ending))).table =
        (w.become pid (some (.gateway .ending))).table := by
      ext1 q
      rw [World.table_become, World.table_become, World.table_removeFile]
    refine h.go htable (h.pids pid _ hbefore) ?_ nofun nofun nofun fun p hp =>
      .inr (h.port_ne hbefore nofun (by simpa using hp))
    exact (w.removeFile_eq ha).imp id fun hnone q _ => hnone q
  | die pid =>
    rw [step] at hstep
    split at hstep
    on_goal 2 => cases hstep
    obtain rfl := Option.some.inj hstep
    refine h.become rfl nofun (.inl rfl) nofun nofun nofun fun p hp => .inr ?_
    have hport : (if w.port = some pid then none else w.port) = some p := hp
    split at hport
    · cases hport
    · rename_i hne
      exact ⟨fun heq => hne (heq ▸ hport), hport⟩
  | runStop k force fault =>
    rw [step] at hstep
    split at hstep
    on_goal 2 => cases hstep
    split at hstep <;> obtain rfl := Option.some.inj hstep <;> exact h.frame rfl rfl (.inl rfl)
  | stop k fault =>
    have hgoes := goes_of_goStop hstep
    refine h.frame hgoes.table hgoes.port (hgoes.dir.imp id ?_)
    rintro ⟨hremoves, rfl⟩
    exact (ha hremoves).resolve_left Bool.false_ne_true

/-- No gateways yet, and any file that has been left, or none. -/
def start (dir : Dir) (hosts : ℕ → Option Bool) (group : ℤ → Option Bool) : World where
  dir
  table p := (hosts p).map .other
  group

theorem valid_start (dir : Dir) (hosts : ℕ → Option Bool) (group : ℤ → Option Bool) :
    Valid (start dir hosts group) := by
  have hnot : ∀ p phase, (start dir hosts group).table p ≠ some (.gateway phase) := by
    intro p phase
    show (hosts p).map Process.other ≠ _
    cases hosts p <;> exact nofun
  exact {
    pids := fun p phase hp => absurd hp (hnot p phase)
    alone := fun p _ ⟨phase, hp, _⟩ _ => absurd hp (hnot p phase)
    opened := fun p _ hp => absurd hp (hnot p _)
    written := fun p phase hp _ => absurd hp (hnot p phase)
    port := fun p hp => by cases hp }

/-- A stop that begins now signals the process. -/
def Reaches (w : World) (k : ℕ) (force : Bool) (p : ℕ) : Prop :=
  ∃ w', StepMachine.run step w
      [.runStop k force false, .stop k false, .stop k false, .stop k false] = some w' ∧
    w'.sent = w.sent ++ [⟨p, .cont⟩, ⟨p, if force then .kill else .term⟩]

theorem World.kill_goOn (w : World) (k : ℕ) (s : Stop) : (w.goOn k s).kill = w.kill := rfl

theorem World.kill_signal (w : World) (pid : ℤ) (sig : Signal) :
    (w.signal pid sig).kill = w.kill := by
  ext1 n
  rw [kill, kill, table_signal, group_signal]

theorem World.sent_signal_of_ok {w : World} {pid : ℤ} (h : w.kill pid = .ok ()) (sig : Signal) :
    (w.signal pid sig).sent = w.sent ++ [⟨pid, sig⟩] := by
  rw [signal, h]

/-- **A stop follows the file** to the process that may be signalled. -/
theorem run_stop {w : World} {k : ℕ} {force : Bool} {content : Bytes} {n : ℤ}
    (hidle : w.stops k = .idle) (hcontent : w.dir.contents = some content)
    (hparse : parsePid content = some n) (hkill : w.kill n = .ok ()) :
    ∃ w', StepMachine.run step w
        [.runStop k force false, .stop k false, .stop k false, .stop k false] = some w' ∧
      w'.sent = w.sent ++ [⟨n, .cont⟩, ⟨n, if force then .kill else .term⟩] := by
  have hread : Pidfile.read w.dir false = .ok n := by
    rw [Pidfile.read_eq hcontent, hparse]
  have hstale : Pidfile.isStale w.dir w.kill false = false := by
    rw [Pidfile.isStale, hread]
    dsimp only
    rw [hkill]
  have hstop : ∀ (u : World) (s : Stop), (u.goOn k s).stops k = s := fun u s =>
    Function.update_self ..
  have hfound : step w (.runStop k force false) = some (w.goOn k (.found n force)) := by
    rw [step, hidle]
    dsimp only
    rw [hread]
  have hlive : step (w.goOn k (.found n force)) (.stop k false) =
      some ((w.goOn k (.found n force)).goOn k (.live n force)) := by
    rw [step, World.goStop, hstop]
    dsimp only
    exact if_neg (by rw [World.kill_goOn]; exact Bool.eq_false_iff.mp hstale)
  obtain ⟨u, hu⟩ : ∃ u, u = (w.goOn k (.found n force)).goOn k (.live n force) := ⟨_, rfl⟩
  have hukill : u.kill = w.kill := by rw [hu]; rfl
  have hwoken : step u (.stop k false) = some ((u.signal n .cont).goOn k (.woken n force)) := by
    rw [step, World.goStop, hu, hstop]
  obtain ⟨v, hv⟩ : ∃ v, v = (u.signal n .cont).goOn k (.woken n force) := ⟨_, rfl⟩
  have hvkill : v.kill n = .ok () := by
    rw [hv, World.kill_goOn, World.kill_signal, hukill, hkill]
  have hpolling : step v (.stop k false) = some ((v.signal n (if force then .kill else .term)).goOn
      k (.polling n force World.polls)) := by
    have hvstop : v.stops k = .woken n force := by rw [hv, hstop]
    rw [step, World.goStop, hvstop]
    dsimp only
    rw [hvkill]
  refine ⟨(v.signal n (if force then .kill else .term)).goOn k (.polling n force World.polls),
    ?_, ?_⟩
  · rw [StepMachine.run_cons, hfound, Option.bind_some, StepMachine.run_cons, hlive,
      Option.bind_some, ← hu, StepMachine.run_cons, hwoken, Option.bind_some, ← hv,
      StepMachine.run_singleton, hpolling]
  · have hfirst : v.sent = w.sent ++ [⟨n, .cont⟩] := by
      rw [hv]
      show (u.signal n .cont).sent = _
      rw [World.sent_signal_of_ok (hukill ▸ hkill), hu]
      rfl
    show (v.signal n _).sent = _
    rw [World.sent_signal_of_ok hvkill, hfirst, List.append_assoc]
    rfl

/-! ## What a stop makes of the file -/

/-- The signals of a stop that nothing else comes between go to who has written the file
completely. -/
def Honest (w : World) (k : ℕ) (force : Bool) (content : Bytes) : Prop :=
  ∀ (fault : Bool) (faults : List Bool) (w' : World),
    StepMachine.run step w (.runStop k force fault :: faults.map (.stop k)) = some w' →
    ∃ new, w'.sent = w.sent ++ new ∧
      ∀ s ∈ new, 0 < s.pid ∧ s.pid.toNat ∈ w.wrote ∧ content = render s.pid

/-- Nobody can be signalled with what is read in the file, or the file is complete. -/
def Sound (w : World) (content : Bytes) : Prop :=
  ∀ n, parsePid content = some n → w.kill n = .ok () →
    0 < n ∧ n.toNat ∈ w.wrote ∧ content = render n

/-- What holds while a stop is on its way. -/
structure Chasing (w : World) (k : ℕ) (content : Bytes) (w' : World) : Prop where
  kill : w'.kill = w.kill
  target : ∀ n, (w'.stops k).target = some n → parsePid content = some n
  isMissing : (w'.stops k).isMissing = false
  sent : ∃ new, w'.sent = w.sent ++ new ∧
    ∀ s ∈ new, parsePid content = some s.pid ∧ w.kill s.pid = .ok ()

theorem Chasing.goStop {w u u' : World} {k : ℕ} {content : Bytes} {fault : Bool}
    (h : Chasing w k content u) (hstep : u.goStop k fault = some u') :
    Chasing w k content u' := by
  have hgoes := goes_of_goStop hstep
  refine ⟨?_, fun n hn => ?_, hgoes.isMissing, ?_⟩
  · rw [← h.kill]
    ext1 n
    rw [World.kill, World.kill, hgoes.table, hgoes.group]
  · rcases hgoes.target with hnone | hsame
    · rw [hnone] at hn
      cases hn
    · exact h.target n (hsame ▸ hn)
  · obtain ⟨before, hbefore, hall⟩ := h.sent
    obtain ⟨new, hnew, hgo⟩ := hgoes.sent h.isMissing
    refine ⟨before ++ new, by rw [hnew, hbefore, List.append_assoc], fun s hs => ?_⟩
    rcases List.mem_append.mp hs with hs | hs
    · exact hall s hs
    · exact ⟨h.target _ (hgo s hs).1, h.kill ▸ (hgo s hs).2⟩

theorem Chasing.returned {w : World} {k : ℕ} {content : Bytes}
    {result : Except StopRunError Unit} : Chasing w k content (w.returned k result) := by
  have hstop : (w.returned k result).stops k = .idle := Function.update_self ..
  refine ⟨rfl, fun n hn => ?_, by rw [hstop]; rfl, [], (List.append_nil _).symm,
    fun _ hs => absurd hs List.not_mem_nil⟩
  rw [hstop] at hn
  cases hn

theorem Chasing.runStop {w w' : World} {k : ℕ} {force fault : Bool} {content : Bytes}
    (hcontent : w.dir.contents = some content)
    (hstep : step w (.runStop k force fault) = some w') : Chasing w k content w' := by
  rw [step] at hstep
  split at hstep
  on_goal 2 => cases hstep
  split at hstep
  · rename_i pid hread
    obtain rfl := Option.some.inj hstep
    have hstop : (w.goOn k (.found pid force)).stops k = .found pid force := Function.update_self ..
    refine ⟨rfl, fun n hn => ?_, by rw [hstop]; rfl, [], (List.append_nil _).symm,
      fun _ hs => absurd hs List.not_mem_nil⟩
    rw [hstop] at hn
    exact Option.some.inj hn ▸ Pidfile.parsePid_of_read hcontent hread
  · rename_i hread
    cases fault with
    | true => cases hread
    | false =>
      rw [Pidfile.read_eq hcontent] at hread
      split at hread <;> cases hread
  · obtain rfl := Option.some.inj hstep
    exact returned
  · obtain rfl := Option.some.inj hstep
    exact returned

theorem Chasing.run {w u u' : World} {k : ℕ} {content : Bytes} {faults : List Bool}
    (h : Chasing w k content u)
    (hrun : StepMachine.run step u (faults.map (.stop k)) = some u') :
    Chasing w k content u' := by
  induction faults generalizing u with
  | nil => exact Option.some.inj hrun ▸ h
  | cons fault faults ih =>
    obtain ⟨v, hv, hrest⟩ := StepMachine.run_cons_eq_some hrun
    exact ih (h.goStop hv) hrest

/-- **A stop is honest exactly where the file is sound.** -/
theorem honest_iff {w : World} {k : ℕ} {force : Bool} {content : Bytes}
    (hidle : w.stops k = .idle) (hcontent : w.dir.contents = some content) :
    Honest w k force content ↔ Sound w content := by
  constructor
  · intro h n hparse hkill
    obtain ⟨w', hrun, hsent⟩ := @run_stop w k force content n hidle hcontent hparse hkill
    obtain ⟨new, hnew, hall⟩ := h false [false, false, false] w' hrun
    rw [hsent] at hnew
    have hfirst := hall ⟨n, .cont⟩ (List.append_cancel_left hnew ▸ List.mem_cons_self)
    exact hfirst
  · intro h fault faults w' hrun
    obtain ⟨u, hu, hrest⟩ := StepMachine.run_cons_eq_some hrun
    obtain ⟨new, hnew, hall⟩ := ((Chasing.runStop hcontent hu).run hrest).sent
    exact ⟨new, hnew, fun s hs => h s.pid (hall s hs).1 (hall s hs).2⟩

/-- **What is left of a torn write** misleads a stop if somebody has the pid that is left. -/
theorem honest_take_iff {w : World} {k j p : ℕ} {force : Bool} (hidle : w.stops k = .idle)
    (hp : p < 2 ^ 31) (hpos : 0 < j) (hj : j ≤ (Digits.decimal p).length)
    (hcontent : w.dir.contents = some ((render p).take j)) :
    Honest w k force ((render p).take j) ↔
      w.kill (p / 10 ^ ((Digits.decimal p).length - j) : ℕ) ≠ .ok () := by
  rw [honest_iff hidle hcontent]
  have hparse := Pidfile.parsePid_take hp hpos hj
  constructor
  · intro h hkill
    obtain ⟨-, -, hrender⟩ := h _ hparse hkill
    -- the line feed is missing
    have hmem : (0x0A : UInt8) ∈ (render p).take j := by
      rw [hrender]
      exact List.mem_append_right _ (List.mem_singleton_self _)
    have hdecimal : (render p).take j = (Digits.decimal p).take j := by
      have hdigits : Digits.decimalInt p = Digits.decimal p := rfl
      rw [render, hdigits, List.take_append_of_le_length hj]
    rw [hdecimal] at hmem
    exact absurd (Digits.isDigit_of_mem_decimal (List.mem_of_mem_take hmem)) (by decide)
  · intro h n hn hkill
    rw [hparse] at hn
    exact absurd (Option.some.inj hn ▸ hkill) h

/-- **The pid file tells the truth** in the runs that are careful, and to the stops that find it
sound. -/
theorem pidfile_truth (dir : Dir) (hosts : ℕ → Option Bool) (group : ℤ → Option Bool)
    (actions : List Action) (w u : World) (k : ℕ) (force : Bool) (content : Bytes) :
    (StepMachine.Along step Careful (start dir hosts group) actions →
      StepMachine.run step (start dir hosts group) actions = some w →
      ∀ p, w.port = some p → w.dir.contents = some (render p) ∧
        ∀ k force, w.stops k = .idle → Reaches w k force p) ∧
    (u.stops k = .idle → u.dir.contents = some content →
      (Honest u k force content ↔ Sound u content)) := by
  refine ⟨fun hcareful hrun p hport => ?_, honest_iff⟩
  have h : Valid w := StepMachine.invariant_along
    (fun _ _ _ hs ha hstep => valid_step hs ha hstep) (valid_start dir hosts group) hcareful actions
    w (List.prefix_refl _) hrun
  have hserving := h.port p hport
  obtain ⟨hpos, hlt⟩ := h.pids p _ hserving
  have hcontents := h.written p _ hserving (.inr rfl)
  refine ⟨hcontents, fun k force hidle => run_stop hidle hcontents ?_ ?_⟩
  · exact Pidfile.parsePid_render (by omega)
  · rw [World.kill, if_pos (by omega), Int.toNat_natCast, hserving]
    rfl

/-- A gateway with the pid 100 gets to serve. -/
def sampleServe : List Action := [.spawn 100, .create 100 false, .flush 100 none, .bind 100 false]

theorem careful_sampleServe :
    StepMachine.Along step Careful (start {} (fun _ => none) fun _ => none) sampleServe := by
  refine (StepMachine.along_cons rfl).mpr ⟨trivial, (StepMachine.along_cons rfl).mpr ⟨.inr ?_,
    (StepMachine.along_cons rfl).mpr ⟨trivial, (StepMachine.along_cons rfl).mpr ⟨nofun, trivial⟩⟩⟩⟩
  rintro q ⟨phase, hphase, hpublishes⟩
  rw [World.table_become] at hphase
  split at hphase
  · obtain rfl := Process.gateway.inj (Option.some.inj hphase)
    cases hpublishes
  · cases hphase

/-- The pid of the gateway is in the file, and a stop finds it there. -/
theorem pidfile_truth_serving :
    ∃ w, StepMachine.run step (start {} (fun _ => none) fun _ => none) sampleServe = some w ∧
      w.port = some 100 ∧ w.dir.contents = some (render 100) ∧ Reaches w 0 false 100 := by
  obtain ⟨hcontents, hreaches⟩ := (pidfile_truth {} (fun _ => none) (fun _ => none) sampleServe _
    (start {} (fun _ => none) fun _ => none) 0 false []).1 careful_sampleServe rfl 100 rfl
  exact ⟨_, rfl, rfl, hcontents, hreaches 0 false rfl⟩

/-- A second gateway truncates the file, finds the port taken, and removes the file, while the first
one serves; and what is left of the write of 123 has a stop signal 12. -/
theorem second_gateway_takes_pidfile :
    (StepMachine.run step (start {} (fun _ => none) fun _ => none) (sampleServe ++ [.spawn 200,
        .create 200 false, .flush 200 none, .bind 200 false, .remove 200 false])).map
      (fun w => (w.port, w.dir.contents)) = some (some 100, none) ∧
    (StepMachine.run step (start {} (fun _ => none) fun _ => none) [.host 12 (some true),
        .spawn 123, .create 123 false, .flush 123 (some 2), .die 123,
        .runStop 0 false false, .stop 0 false, .stop 0 false, .stop 0 false]).map
      (fun w => (w.wrote, w.sent)) = some ([], [⟨12, .cont⟩, ⟨12, .term⟩]) := by
  decide +kernel

end Gateway

end Cli
end TigerClaw
