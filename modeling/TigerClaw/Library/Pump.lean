import TigerClaw.Library.PullParser

/-!
# Loops around a parser that is fed and pulled

Input comes in chunks.  What a chunk completes is pulled, one item after the other, and handled; the
handler can stop everything, and so can a flag that is polled before every read and after every
item.

* `handleAll`: a handler and a list of items.
* `whileNext`: `while (try p.next()) |item| { … }`.  `whileNext_eq`: it handles what `drain` lists.
* `receive`: what comes in until the input ends or the flag is set, and why that was the end.
  `receive_quiet`: with a flag that is never set it does not matter where the input is cut.
* `pump`: reading and handling in one loop.  `pump_eq`: it handles what is received.
-/

universe u v w x y z

/-- Why no more comes in. -/
inductive Cause (ε : Type x) where
  | eof
  /-- A read failed. -/
  | broken
  | cancelled
  /-- The parser failed. -/
  | failed (e : ε)
  deriving DecidableEq

/-- How a loop over the items ends. -/
inductive Halt (σ : Type u) (ε : Type x) (κ : Type z) where
  /-- There is nothing more to pull. -/
  | dry (s : σ)
  | failed (e : ε)
  /-- The body left the loop. -/
  | left (k : κ)

/-- How the loop ends if the body leaves or does not, and the parser fails or does not. -/
def Halt.of {σ : Type u} {ε : Type x} {κ : Type z} (left : Option κ) (failed : Option ε) (s : σ) :
    Halt σ ε κ :=
  match left, failed with
  | some k, _ => .left k
  | none, some e => .failed e
  | none, none => .dry s

/-- Why a body leaves the loop: the flag is set, or the handler stops. -/
inductive Leave (κ : Type z) where
  | cancelled
  | stopped (k : κ)

/-- How it all ends: the handler stopped, or no more came in. -/
def Cause.unless {ε : Type x} {κ : Type z} (cause : Cause ε) (stopped : Option κ) :
    Except κ (Cause ε) :=
  match stopped with
  | some k => .error k
  | none => .ok cause

section Handlers

variable {ι : Type w} {β : Type y} {κ : Type z}

/-- Handle the items until the handler stops. -/
def handleAll (handle : β → ι → β × Option κ) : β → List ι → β × Option κ
  | b, [] => (b, none)
  | b, i :: is =>
    match handle b i with
    | (b', none) => handleAll handle b' is
    | (b', some k) => (b', some k)

/-- Handle an item; then poll the flag. -/
def polled (cancel : ℕ → Bool) (handle : β → ι → β × Option κ) (b : β × ℕ) (i : ι) :
    (β × ℕ) × Option (Leave κ) :=
  match handle b.1 i with
  | (b', none) => ((b', b.2 + 1), if cancel b.2 then some .cancelled else none)
  | (b', some k) => ((b', b.2), some (.stopped k))

/-- The items up to the one after which the flag is set, and whether it is. -/
def cut (cancel : ℕ → Bool) : ℕ → List ι → List ι × Bool
  | _, [] => ([], false)
  | n, i :: is =>
    if cancel n then ([i], true) else (i :: (cut cancel (n + 1) is).1, (cut cancel (n + 1) is).2)

variable {handle : β → ι → β × Option κ} {cancel : ℕ → Bool}

theorem handleAll_cons_none {b b' : β} {i : ι} (h : handle b i = (b', none)) (is : List ι) :
    handleAll handle b (i :: is) = handleAll handle b' is := by
  rw [handleAll, h]

theorem handleAll_cons_some {b b' : β} {i : ι} {k : κ} (h : handle b i = (b', some k))
    (is : List ι) : handleAll handle b (i :: is) = (b', some k) := by
  rw [handleAll, h]

theorem handleAll_append (b : β) (is js : List ι) :
    handleAll handle b (is ++ js) =
      match handleAll handle b is with
      | (b', none) => handleAll handle b' js
      | (b', some k) => (b', some k) := by
  induction is generalizing b with
  | nil => rfl
  | cons i is ih =>
    match hstep : handle b i with
    | (b', none) =>
      rw [List.cons_append, handleAll_cons_none hstep, handleAll_cons_none hstep, ih]
    | (b', some k) => rw [List.cons_append, handleAll_cons_some hstep, handleAll_cons_some hstep]

/-- **Whether a handler stops** is a matter of the single items, if it is so at each of them. -/
theorem handleAll_snd_eq_none_iff {ok : ι → Prop}
    (h : ∀ b i, (handle b i).2 = none ↔ ok i) (b : β) (is : List ι) :
    (handleAll handle b is).2 = none ↔ ∀ i ∈ is, ok i := by
  induction is generalizing b with
  | nil => exact iff_of_true rfl fun i hi => by cases hi
  | cons i is ih =>
    rw [List.forall_mem_cons, ← h b i]
    match hstep : handle b i with
    | (b', none) =>
      rw [handleAll_cons_none hstep, ih b']
      exact (and_iff_right rfl).symm
    | (b', some k) =>
      rw [handleAll_cons_some hstep]
      exact iff_of_false (by simp) (by simp)

theorem cut_quiet (h : ∀ n, cancel n = false) (n : ℕ) (is : List ι) :
    cut cancel n is = (is, false) := by
  induction is generalizing n with
  | nil => rfl
  | cons i is ih => rw [cut, h n, if_neg Bool.false_ne_true, ih]

/-- **Polling after each item** is to handle the items up to where the flag is set. -/
theorem handleAll_polled (cancel : ℕ → Bool) (handle : β → ι → β × Option κ) (b : β) (n : ℕ)
    (is : List ι) :
    (handleAll (polled cancel handle) (b, n) is).1.1 =
        (handleAll handle b (cut cancel n is).1).1 ∧
      (handleAll (polled cancel handle) (b, n) is).2 =
        (match (handleAll handle b (cut cancel n is).1).2 with
        | some k => some (.stopped k)
        | none => if (cut cancel n is).2 then some .cancelled else none) ∧
      ((handleAll (polled cancel handle) (b, n) is).2 = none →
        (handleAll (polled cancel handle) (b, n) is).1.2 = n + is.length) := by
  induction is generalizing b n with
  | nil => exact ⟨rfl, rfl, fun _ => rfl⟩
  | cons i is ih =>
    match hstep : handle b i with
    | (b', some k) =>
      have hpolled : polled cancel handle (b, n) i = ((b', n), some (.stopped k)) := by
        rw [polled, hstep]
      rw [handleAll_cons_some hpolled, cut]
      split
      · rw [handleAll_cons_some hstep]
        exact ⟨rfl, rfl, fun h => by cases h⟩
      · rw [handleAll_cons_some hstep]
        exact ⟨rfl, rfl, fun h => by cases h⟩
    | (b', none) =>
      have hpolled : polled cancel handle (b, n) i =
          ((b', n + 1), if cancel n then some .cancelled else none) := by
        rw [polled, hstep]
      rw [cut]
      by_cases hcancel : cancel n = true
      · rw [if_pos hcancel] at hpolled ⊢
        rw [handleAll_cons_some hpolled, handleAll_cons_none hstep]
        exact ⟨rfl, rfl, fun h => by cases h⟩
      · rw [if_neg hcancel] at hpolled ⊢
        rw [handleAll_cons_none hpolled, handleAll_cons_none hstep]
        obtain ⟨hacc, hleave, hcount⟩ := ih b' (n + 1)
        refine ⟨hacc, hleave, fun h => (hcount h).trans ?_⟩
        rw [List.length_cons]
        omega

end Handlers

namespace PullParser

variable {σ : Type u} {τ : Type v} {ι : Type w} {ε : Type x} (P : PullParser σ τ ι ε)
variable {β : Type y} {κ : Type z}

/-! ## Pulling and handling -/

/-- At most `fuel` rounds of the loop. -/
def whileNextFuel (body : β → ι → β × Option κ) : ℕ → σ → β → Halt σ ε κ × β
  | 0, s, b => (.dry s, b)
  | fuel + 1, s, b =>
    match P.next s with
    | (.ok (some i), s') =>
      match body b i with
      | (b', none) => whileNextFuel body fuel s' b'
      | (b', some k) => (.left k, b')
    | (.ok none, s') => (.dry s', b)
    | (.error e, _) => (.failed e, b)

/-- `while (try p.next()) |item| { body }`. -/
def whileNext (body : β → ι → β × Option κ) (s : σ) (b : β) : Halt σ ε κ × β :=
  P.whileNextFuel body (P.size s + 1) s b

variable {body : β → ι → β × Option κ}

theorem whileNextFuel_eq {fuel : ℕ} {s : σ} (h : P.size s < fuel) (b : β) :
    P.whileNextFuel body fuel s b =
      (Halt.of (handleAll body b (P.drain s).1).2 (P.drain s).2 (P.settle s),
        (handleAll body b (P.drain s).1).1) := by
  induction fuel generalizing s b with
  | zero => omega
  | succ fuel ih =>
    rw [whileNextFuel]
    match hnext : P.next s with
    | (.ok (some i), s') =>
      have hlt := P.size_lt hnext
      rw [P.drain_item hnext, P.settle_item hnext]
      match hbody : body b i with
      | (b', none) =>
        rw [show (push i (P.drain s')).1 = i :: (P.drain s').1 from rfl,
          handleAll_cons_none hbody]
        dsimp only
        rw [hbody]
        exact ih (show P.size s' < fuel by omega) b'
      | (b', some k) =>
        rw [show (push i (P.drain s')).1 = i :: (P.drain s').1 from rfl,
          handleAll_cons_some hbody]
        dsimp only
        rw [hbody]
        rfl
    | (.ok none, s') =>
      rw [P.drain_none hnext, P.settle_none hnext]
      rfl
    | (.error e, s') =>
      rw [P.drain_error hnext]
      rfl

/-- **The loop handles what is drained.** -/
theorem whileNext_eq (s : σ) (b : β) :
    P.whileNext body s b =
      (Halt.of (handleAll body b (P.drain s).1).2 (P.drain s).2 (P.settle s),
        (handleAll body b (P.drain s).1).1) :=
  P.whileNextFuel_eq (Nat.lt_succ_self (P.size s)) b

/-- **A loop that polls** handles the items up to where the flag is set. -/
theorem whileNext_polled (cancel : ℕ → Bool) (handle : β → ι → β × Option κ) (s : σ) (b : β)
    (n : ℕ) :
    (P.whileNext (polled cancel handle) s (b, n)).2.1 =
        (handleAll handle b (cut cancel n (P.drain s).1).1).1 ∧
      (P.whileNext (polled cancel handle) s (b, n)).1 =
        (match (handleAll handle b (cut cancel n (P.drain s).1).1).2 with
        | some k => .left (.stopped k)
        | none =>
          if (cut cancel n (P.drain s).1).2 then .left .cancelled
          else Halt.of none (P.drain s).2 (P.settle s)) ∧
      ((handleAll handle b (cut cancel n (P.drain s).1).1).2 = none →
        (cut cancel n (P.drain s).1).2 = false →
          (P.whileNext (polled cancel handle) s (b, n)).2.2 = n + (P.drain s).1.length) := by
  obtain ⟨hacc, hleave, hcount⟩ := handleAll_polled cancel handle b n (P.drain s).1
  rw [P.whileNext_eq]
  refine ⟨hacc, ?_, fun hgo hunset => hcount ?_⟩
  · rw [hleave]
    cases (handleAll handle b (cut cancel n (P.drain s).1).1).2 with
    | some k => rfl
    | none => cases (cut cancel n (P.drain s).1).2 <;> rfl
  · rw [hleave, hgo, hunset]
    rfl

/-! ## Receiving -/

variable (cancel : ℕ → Bool) (broken : Bool)

/-- How the input ends. -/
def lastCause : Cause ε := if broken then .broken else .eof

/-- What comes in from the chunks, and why that was all; `n` polls have been made before.  An empty
chunk is the end of the input, and so is the end of the list, unless the read fails there. -/
def receive : List (List τ) → σ → ℕ → List ι × Cause ε
  | [], _, n => ([], if cancel n then .cancelled else lastCause broken)
  | chunk :: chunks, s, n =>
    if cancel n then ([], .cancelled)
    else if chunk.isEmpty then ([], .eof)
    else
      let t := P.drain (P.feed s chunk)
      let c := cut cancel (n + 1) t.1
      if c.2 then (c.1, .cancelled)
      else
        match t.2 with
        | some e => (c.1, .failed e)
        | none =>
          let r := receive chunks (P.settle (P.feed s chunk)) (n + 1 + t.1.length)
          (c.1 ++ r.1, r.2)

/-- Read the chunks and handle what each of them completes. -/
def pump (handle : β → ι → β × Option κ) : List (List τ) → σ → β × ℕ → Except κ (Cause ε) × β
  | [], _, b => (.ok (if cancel b.2 then .cancelled else lastCause broken), b.1)
  | chunk :: chunks, s, b =>
    if cancel b.2 then (.ok .cancelled, b.1)
    else if chunk.isEmpty then (.ok .eof, b.1)
    else
      match P.whileNext (polled cancel handle) (P.feed s chunk) (b.1, b.2 + 1) with
      | (.dry s', b') => pump handle chunks s' b'
      | (.failed e, b') => (.ok (.failed e), b'.1)
      | (.left .cancelled, b') => (.ok .cancelled, b'.1)
      | (.left (.stopped k), b') => (.error k, b'.1)

variable {cancel broken}

/-- An error stays where it is when there is more behind it. -/
theorem drain_feed_of_error {s : σ} {e : ε} (h : (P.drain s).2 = some e) (bytes : List τ) :
    P.drain (P.feed s bytes) = P.drain s := by
  obtain ⟨n, hn⟩ : ∃ n, P.size s = n := ⟨_, rfl⟩
  induction n using Nat.strong_induction_on generalizing s with
  | _ n ih =>
    match hnext : P.next s with
    | (.ok (some i), s') =>
      have hlt := P.size_lt hnext
      rw [P.drain_item hnext] at h ⊢
      rw [P.drain_item (P.next_item bytes hnext), ih (P.size s') (by omega) h rfl]
    | (.ok none, s') =>
      rw [P.drain_none hnext] at h
      cases h
    | (.error d, s') =>
      have hfeed : P.next (P.feed s bytes) = (.error d, (P.next (P.feed s bytes)).2) :=
        Prod.ext (P.next_error bytes hnext) rfl
      rw [P.drain_error hfeed, P.drain_error hnext]

/-- The transcript of a whole input, with the way it ends. -/
def whole (broken : Bool) (t : Transcript ι ε) : List ι × Cause ε :=
  (t.1, t.2.elim (lastCause broken) .failed)

/-- **Without the flag it does not matter where the input is cut.** -/
theorem receive_quiet (hquiet : ∀ n, cancel n = false) {chunks : List (List τ)}
    (hchunks : ∀ chunk ∈ chunks, chunk ≠ []) {s : σ} (hs : P.drain s = ([], none)) (n : ℕ) :
    P.receive cancel broken chunks s n = whole broken (P.drain (P.feed s chunks.flatten)) := by
  induction chunks generalizing s n with
  | nil =>
    rw [receive, hquiet n, if_neg Bool.false_ne_true, List.flatten_nil, P.feed_nil, hs]
    rfl
  | cons chunk chunks ih =>
    obtain ⟨hne, hchunks⟩ := List.forall_mem_cons.mp hchunks
    have hempty : ¬ chunk.isEmpty = true := fun h => hne (List.isEmpty_iff.mp h)
    rw [receive, hquiet n, if_neg Bool.false_ne_true, if_neg hempty, List.flatten_cons,
      P.feed_append]
    dsimp only
    rw [cut_quiet hquiet, if_neg Bool.false_ne_true]
    match herr : (P.drain (P.feed s chunk)).2 with
    | some e =>
      rw [P.drain_feed_of_error herr, whole, herr]
      rfl
    | none =>
      dsimp only
      rw [ih hchunks (P.drain_settle herr), P.drain_feed herr]
      rfl

/-- **Reading and handling in one loop** handles what is received. -/
theorem pump_eq (handle : β → ι → β × Option κ) (chunks : List (List τ)) (s : σ) (b : β)
    (n : ℕ) :
    P.pump cancel broken handle chunks s (b, n) =
      ((P.receive cancel broken chunks s n).2.unless
          (handleAll handle b (P.receive cancel broken chunks s n).1).2,
        (handleAll handle b (P.receive cancel broken chunks s n).1).1) := by
  induction chunks generalizing s b n with
  | nil => rfl
  | cons chunk chunks ih =>
    rw [pump, receive]
    by_cases hcancel : cancel n = true
    · rw [if_pos hcancel, if_pos hcancel]
      rfl
    rw [if_neg hcancel, if_neg hcancel]
    by_cases hempty : chunk.isEmpty = true
    · rw [if_pos hempty, if_pos hempty]
      rfl
    rw [if_neg hempty, if_neg hempty]
    obtain ⟨hacc, hhalt, hcount⟩ :=
      P.whileNext_polled cancel handle (P.feed s chunk) b (n + 1)
    generalize P.whileNext (polled cancel handle) (P.feed s chunk) (b, n + 1) = halt
      at hacc hhalt hcount ⊢
    obtain ⟨h, b', n'⟩ := halt
    dsimp only at hacc hhalt hcount ⊢
    generalize P.drain (P.feed s chunk) = t at hacc hhalt hcount ⊢
    match hstop : handleAll handle b (cut cancel (n + 1) t.1).1 with
    | (b₁, some k) =>
      -- the handler stops at an item of this chunk
      rw [hstop] at hacc hhalt
      dsimp only at hacc hhalt
      rw [hhalt, hacc]
      by_cases hset : (cut cancel (n + 1) t.1).2 = true
      · rw [if_pos hset, hstop]
        rfl
      · rw [if_neg hset]
        match t.2 with
        | some e =>
          rw [hstop]
          rfl
        | none =>
          rw [handleAll_append, hstop]
          rfl
    | (b₁, none) =>
      rw [hstop] at hacc hhalt hcount
      dsimp only at hacc hhalt
      rw [hhalt, hacc]
      by_cases hset : (cut cancel (n + 1) t.1).2 = true
      · -- the flag is set after an item of this chunk
        rw [if_pos hset, if_pos hset, hstop]
        rfl
      · rw [if_neg hset, if_neg hset]
        match t.2 with
        | some e =>
          dsimp only [Halt.of]
          rw [hstop]
          rfl
        | none =>
          dsimp only [Halt.of]
          rw [hcount rfl (Bool.eq_false_iff.mpr hset), ih, handleAll_append, hstop]

end PullParser
