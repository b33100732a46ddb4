import TigerClaw.Library.StepMachine

/-!
# A list and a snapshot of it

A list is updated in two ways.  One changes an entry of a snapshot taken earlier and then writes
the whole snapshot back over the list; the other changes an entry of the list itself.  The second
kind of change is undone by the next of the first kind, at every index.

* `Op`, `apply`: the two kinds of update; a run is `StepMachine.run apply`.
* `run_length`: no update changes how long the two are.
* `run_frame`, `run_frame_update`: what a run leaves at an index that it does not touch.
* `run_writeBack`, `run_update`, `run_undone`: what it leaves at an index touched once.
* `exists_run`: updates of different indices do not get in each other's way.
-/

namespace Snapshot

open StepMachine

universe u

variable {α : Type u}

/-- A list, and the snapshot that is written back over it. -/
structure Copies (α : Type u) where
  snapshot : List α
  live : List α

inductive Op (α : Type u) where
  /-- Change the entry of the snapshot, and write the snapshot back. -/
  | writeBack (index : ℕ) (f : α → α)
  /-- Change the entry of the list, if that is possible. -/
  | update (index : ℕ) (f : α → Option α)

def Op.index : Op α → ℕ
  | .writeBack i _ => i
  | .update i _ => i

def Op.isUpdate : Op α → Bool
  | .writeBack .. => false
  | .update .. => true

def apply (s : Copies α) : Op α → Option (Copies α)
  | .writeBack i f => some ⟨s.snapshot.modify i f, s.snapshot.modify i f⟩
  | .update i f => do
    let a ← s.live[i]?
    let a' ← f a
    some { s with live := s.live.set i a' }

theorem apply_update {s t : Copies α} {i : ℕ} {f : α → Option α}
    (h : apply s (.update i f) = some t) :
    ∃ a a', s.live[i]? = some a ∧ f a = some a' ∧ t = ⟨s.snapshot, s.live.set i a'⟩ := by
  obtain ⟨a, ha, h⟩ := Option.bind_eq_some_iff.mp h
  obtain ⟨a', ha', h⟩ := Option.bind_eq_some_iff.mp h
  exact ⟨a, a', ha, ha', (Option.some.inj h).symm⟩

theorem run_length {s t : Copies α} {ops : List (Op α)} (h : run apply s ops = some t)
    (hs : s.live.length = s.snapshot.length) :
    t.live.length = s.snapshot.length ∧ t.snapshot.length = s.snapshot.length := by
  refine invariant_run (I := fun c : Copies α =>
    c.live.length = s.snapshot.length ∧ c.snapshot.length = s.snapshot.length) ?_ ⟨hs, rfl⟩ h
  rintro c (⟨i, f⟩ | ⟨i, f⟩) c' ⟨hlive, hsnap⟩ hstep
  · obtain rfl := Option.some.inj hstep
    simpa using hsnap
  · obtain ⟨a, a', -, -, rfl⟩ := apply_update hstep
    simpa using ⟨hlive, hsnap⟩

/-! ## Indices that are not touched -/

theorem apply_frame {s t : Copies α} {op : Op α} {j : ℕ} (h : apply s op = some t)
    (hj : op.index ≠ j) :
    t.snapshot[j]? = s.snapshot[j]? ∧
      t.live[j]? = if op.isUpdate then s.live[j]? else s.snapshot[j]? := by
  cases op with
  | writeBack i f =>
    obtain rfl := Option.some.inj h
    have hframe : (s.snapshot.modify i f)[j]? = s.snapshot[j]? := by
      have hne : i ≠ j := hj
      simp [hne]
    exact ⟨hframe, hframe⟩
  | update i f =>
    obtain ⟨a, a', -, -, rfl⟩ := apply_update h
    exact ⟨rfl, List.getElem?_set_ne hj⟩

/-- **An untouched entry of the snapshot stays; of the list it shows one of the two.** -/
theorem run_frame {s t : Copies α} {ops : List (Op α)} {j : ℕ} (h : run apply s ops = some t)
    (hj : ∀ op ∈ ops, op.index ≠ j) :
    t.snapshot[j]? = s.snapshot[j]? ∧
      (t.live[j]? = s.live[j]? ∨ t.live[j]? = s.snapshot[j]?) := by
  induction ops generalizing s with
  | nil =>
    obtain rfl := Option.some.inj h
    exact ⟨rfl, .inl rfl⟩
  | cons op ops ih =>
    obtain ⟨s', hstep, hrun⟩ := run_cons_eq_some h
    obtain ⟨hsnap, hlive⟩ := apply_frame hstep (hj op List.mem_cons_self)
    obtain ⟨hsnap', hlive'⟩ := ih hrun fun op hop => hj op (List.mem_cons_of_mem _ hop)
    refine ⟨hsnap'.trans hsnap, ?_⟩
    rcases hlive' with hlive' | hlive'
    · rw [hlive', hlive]
      split
      · exact .inl rfl
      · exact .inr rfl
    · exact .inr (hlive'.trans hsnap)

/-- Without a write back the list itself keeps the entry. -/
theorem run_frame_update {s t : Copies α} {ops : List (Op α)} {j : ℕ}
    (h : run apply s ops = some t) (hj : ∀ op ∈ ops, op.index ≠ j)
    (hupdate : ∀ op ∈ ops, op.isUpdate) : t.live[j]? = s.live[j]? := by
  induction ops generalizing s with
  | nil =>
    obtain rfl := Option.some.inj h
    rfl
  | cons op ops ih =>
    obtain ⟨s', hstep, hrun⟩ := run_cons_eq_some h
    have hlive := (apply_frame hstep (hj op List.mem_cons_self)).2
    rw [if_pos (hupdate op List.mem_cons_self)] at hlive
    exact (ih hrun (fun op hop => hj op (List.mem_cons_of_mem _ hop))
      fun op hop => hupdate op (List.mem_cons_of_mem _ hop)).trans hlive

/-- Where the two copies agree at an index, an untouched entry stays. -/
theorem run_frame_eq {s t : Copies α} {ops : List (Op α)} {j : ℕ} (h : run apply s ops = some t)
    (hj : ∀ op ∈ ops, op.index ≠ j) (heq : s.live[j]? = s.snapshot[j]?) :
    t.snapshot[j]? = s.snapshot[j]? ∧ t.live[j]? = s.snapshot[j]? := by
  obtain ⟨hsnap, hlive⟩ := run_frame h hj
  exact ⟨hsnap, hlive.elim (fun hl => hl.trans heq) id⟩

/-! ## An index touched once -/

section Once

variable {l : List α} {t : Copies α} {before after : List (Op α)} {op : Op α}

/-- The run up to the operation, the operation, and the rest, for an index that nothing else in the
run touches. -/
theorem run_split (h : run apply ⟨l, l⟩ (before ++ op :: after) = some t)
    (hbefore : ∀ o ∈ before, o.index ≠ op.index) :
    ∃ s s', s.snapshot[op.index]? = l[op.index]? ∧ s.live[op.index]? = l[op.index]? ∧
      apply s op = some s' ∧ run apply s' after = some t := by
  obtain ⟨s, hrun, hrest⟩ := run_append_eq_some h
  obtain ⟨s', hstep, hafter⟩ := run_cons_eq_some hrest
  obtain ⟨hsnap, hlive⟩ := run_frame_eq hrun hbefore rfl
  exact ⟨s, s', hsnap, hlive, hstep, hafter⟩

/-- **What is written back stays.** -/
theorem run_writeBack {i : ℕ} {f : α → α}
    (h : run apply ⟨l, l⟩ (before ++ .writeBack i f :: after) = some t)
    (hbefore : ∀ o ∈ before, o.index ≠ i) (hafter : ∀ o ∈ after, o.index ≠ i) :
    t.live[i]? = l[i]?.map f := by
  obtain ⟨s, s', hsnap, -, hstep, hrun⟩ := run_split h hbefore
  obtain rfl := Option.some.inj hstep
  have hnew : (s.snapshot.modify i f)[i]? = l[i]?.map f := by
    have hi : s.snapshot[i]? = l[i]? := hsnap
    simp [hi]
  rw [(run_frame_eq hrun hafter rfl).2, hnew]

/-- **An update stays when only updates follow.** -/
theorem run_update {i : ℕ} {f : α → Option α}
    (h : run apply ⟨l, l⟩ (before ++ .update i f :: after) = some t)
    (hbefore : ∀ o ∈ before, o.index ≠ i) (hafter : ∀ o ∈ after, o.index ≠ i)
    (hupdate : ∀ o ∈ after, o.isUpdate) : t.live[i]? = l[i]?.bind f := by
  obtain ⟨s, s', -, hlive, hstep, hrun⟩ := run_split h hbefore
  obtain ⟨a, a', ha, hf, rfl⟩ := apply_update hstep
  have hi : i < s.live.length := (List.getElem?_eq_some_iff.mp ha).1
  have hl : l[i]? = some a := hlive.symm.trans ha
  rw [run_frame_update hrun hafter hupdate, List.getElem?_set_self hi, hl]
  exact hf.symm

/-- **An update is undone by a later write back.** -/
theorem run_undone {i : ℕ} {f : α → Option α}
    (h : run apply ⟨l, l⟩ (before ++ .update i f :: after) = some t)
    (hbefore : ∀ o ∈ before, o.index ≠ i) (hafter : ∀ o ∈ after, o.index ≠ i)
    (hback : ∃ o ∈ after, ¬ o.isUpdate) : t.live[i]? = l[i]? := by
  obtain ⟨s, s', hsnap, -, hstep, hrun⟩ := run_split h hbefore
  obtain ⟨a, a', -, -, rfl⟩ := apply_update hstep
  obtain ⟨o, ho, hback⟩ := hback
  obtain ⟨as, bs, rfl⟩ := List.append_of_mem ho
  -- up to the write back the snapshot still has the old entry, and then both copies have it
  obtain ⟨r, has, hrest⟩ := run_append_eq_some hrun
  obtain ⟨r', hwrite, hbs⟩ := run_cons_eq_some hrest
  have hr := (run_frame has fun o ho => hafter o (by simp [ho])).1
  obtain ⟨hsnap', hlive'⟩ := apply_frame hwrite (hafter o ho)
  rw [if_neg hback] at hlive'
  rw [(run_frame_eq hbs (fun o ho => hafter o (by simp [ho])) (hlive'.trans hsnap'.symm)).2,
    hsnap', hr]
  exact hsnap

end Once

/-! ## Different indices -/

/-- What an operation needs of the entry it finds. -/
def Op.Enabled (l : List α) : Op α → Prop
  | .writeBack .. => True
  | .update i f => ∃ a a', l[i]? = some a ∧ f a = some a'

/-- **Operations on different indices, each possible on its own, are possible in a row.** -/
theorem exists_run {s : Copies α} {ops : List (Op α)} (hdistinct : (ops.map Op.index).Nodup)
    (heq : ∀ op ∈ ops, s.live[op.index]? = s.snapshot[op.index]?)
    (henabled : ∀ op ∈ ops, op.Enabled s.live) : ∃ t, run apply s ops = some t := by
  induction ops generalizing s with
  | nil => exact ⟨s, rfl⟩
  | cons op ops ih =>
    rw [List.map_cons, List.nodup_cons] at hdistinct
    obtain ⟨hnotin, hdistinct⟩ := hdistinct
    have hne : ∀ o ∈ ops, op.index ≠ o.index := fun o ho h =>
      hnotin (h ▸ List.mem_map_of_mem ho)
    obtain ⟨s', hstep⟩ : ∃ s', apply s op = some s' := by
      cases op with
      | writeBack i f => exact ⟨_, rfl⟩
      | update i f =>
        obtain ⟨a, a', ha, hf⟩ := henabled _ List.mem_cons_self
        exact ⟨⟨s.snapshot, s.live.set i a'⟩, by simp [apply, ha, hf]⟩
    have hlive : ∀ o ∈ ops, s'.live[o.index]? = s.live[o.index]? ∧
        s'.snapshot[o.index]? = s.snapshot[o.index]? := by
      intro o ho
      obtain ⟨hsnap, hlive⟩ := apply_frame hstep (hne o ho)
      refine ⟨?_, hsnap⟩
      rw [hlive]
      split
      · rfl
      · exact (heq o (List.mem_cons_of_mem _ ho)).symm
    obtain ⟨t, ht⟩ := ih hdistinct
      (fun o ho => by
        rw [(hlive o ho).1, (hlive o ho).2]
        exact heq o (List.mem_cons_of_mem _ ho))
      (fun o ho => by
        have hen := henabled o (List.mem_cons_of_mem _ ho)
        cases o with
        | writeBack i f => trivial
        | update i f =>
          obtain ⟨a, a', ha, hf⟩ := hen
          exact ⟨a, a', (hlive _ ho).1.trans ha, hf⟩)
    exact ⟨t, by rw [run_cons, hstep]; exact ht⟩

end Snapshot
