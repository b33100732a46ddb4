import Mathlib.Data.List.Basic
import Mathlib.Data.Nat.Basic

/-!
# Parsers that are fed and pulled

A parser with a buffer: `feed` appends input and answers nothing, `next` answers with an item,
with `none` when the buffer holds no complete one, or with an error.  `PullParser` bundles the
two with the laws that make the answers a matter of the input alone: whatever `next` does with
what is in the buffer, it also does with more behind it.

* `drain`, `settle`: what is pulled until there is nothing more to pull, or an error, and the state
  then.  `drain_feed`: how it goes on when more input comes.
* `yield`: a list of calls in any order, and a last `drain`.
* `yield_eq_drain`: what a list of calls yields is what its whole input yields when it is fed in
  one piece.
-/

universe u v w x

/-- A parser that is fed and pulled.  The laws say that an answer does not depend on input behind
it, and that after `none` more input is met as if nothing had been pulled. -/
structure PullParser (σ : Type u) (τ : Type v) (ι : Type w) (ε : Type x) where
  feed : σ → List τ → σ
  next : σ → Except ε (Option ι) × σ
  /-- How much is in the buffer. -/
  size : σ → ℕ
  feed_nil : ∀ s, feed s [] = s
  feed_append : ∀ s as bs, feed s (as ++ bs) = feed (feed s as) bs
  next_item : ∀ {s s' i} cs, next s = (.ok (some i), s') →
    next (feed s cs) = (.ok (some i), feed s' cs)
  next_none : ∀ {s s'} cs, next s = (.ok none, s') → next (feed s cs) = next (feed s' cs)
  next_error : ∀ {s s' e} cs, next s = (.error e, s') → (next (feed s cs)).1 = .error e
  size_lt : ∀ {s s' i}, next s = (.ok (some i), s') → size s' < size s

namespace PullParser

variable {σ : Type u} {τ : Type v} {ι : Type w} {ε : Type x} (P : PullParser σ τ ι ε)

/-- Items, and the error that ended them. -/
abbrev Transcript (ι : Type w) (ε : Type x) : Type (max w x) := List ι × Option ε

/-- One more item in front. -/
def push (i : ι) (t : Transcript ι ε) : Transcript ι ε := (i :: t.1, t.2)

/-- Pull at most `fuel` times. -/
def pullFuel : ℕ → σ → Transcript ι ε × σ
  | 0, s => (([], none), s)
  | fuel + 1, s =>
    match P.next s with
    | (.ok (some i), s') => (push i (pullFuel fuel s').1, (pullFuel fuel s').2)
    | (.ok none, s') => (([], none), s')
    | (.error e, s') => (([], some e), s')

/-- Pull until there is nothing more to pull. -/
def pullAll (s : σ) : Transcript ι ε × σ := P.pullFuel (P.size s + 1) s

/-- What is pulled. -/
def drain (s : σ) : Transcript ι ε := (P.pullAll s).1

/-- The state when there is nothing more to pull. -/
def settle (s : σ) : σ := (P.pullAll s).2

/-- Every item takes something out of the buffer, so any fuel above its size will do. -/
theorem pullFuel_eq {fuel fuel' : ℕ} {s : σ} (h : P.size s < fuel) (h' : P.size s < fuel') :
    P.pullFuel fuel s = P.pullFuel fuel' s := by
  induction fuel generalizing s fuel' with
  | zero => omega
  | succ fuel ih =>
    obtain ⟨fuel', rfl⟩ : ∃ n, fuel' = n + 1 := ⟨fuel' - 1, by omega⟩
    rw [pullFuel, pullFuel]
    split
    · rename_i i s' hnext
      have hlt := P.size_lt hnext
      rw [ih (show P.size s' < fuel by omega) (show P.size s' < fuel' by omega)]
    · rfl
    · rfl

theorem pullAll_item {s s' : σ} {i : ι} (h : P.next s = (.ok (some i), s')) :
    P.pullAll s = (push i (P.drain s'), P.settle s') := by
  have hlt := P.size_lt h
  rw [pullAll, pullFuel, h, drain, settle, pullAll]
  dsimp only
  rw [P.pullFuel_eq hlt (Nat.lt_succ_self _)]

theorem drain_item {s s' : σ} {i : ι} (h : P.next s = (.ok (some i), s')) :
    P.drain s = push i (P.drain s') := by
  rw [drain, P.pullAll_item h]

theorem settle_item {s s' : σ} {i : ι} (h : P.next s = (.ok (some i), s')) :
    P.settle s = P.settle s' := by
  rw [settle, P.pullAll_item h]

theorem drain_none {s s' : σ} (h : P.next s = (.ok none, s')) : P.drain s = ([], none) := by
  rw [drain, pullAll, pullFuel, h]

theorem settle_none {s s' : σ} (h : P.next s = (.ok none, s')) : P.settle s = s' := by
  rw [settle, pullAll, pullFuel, h]

theorem drain_error {s s' : σ} {e : ε} (h : P.next s = (.error e, s')) :
    P.drain s = ([], some e) := by
  rw [drain, pullAll, pullFuel, h]

/-- States with the same next answer have the same transcript. -/
theorem drain_congr {s t : σ} (h : P.next s = P.next t) : P.drain s = P.drain t := by
  match hnext : P.next t with
  | (.ok (some i), t') => rw [P.drain_item (h.trans hnext), P.drain_item hnext]
  | (.ok none, t') => rw [P.drain_none (h.trans hnext), P.drain_none hnext]
  | (.error e, t') => rw [P.drain_error (h.trans hnext), P.drain_error hnext]

/-- **More input after everything has been pulled.**  The transcript goes on where it stopped. -/
theorem drain_feed {s : σ} (h : (P.drain s).2 = none) (bytes : List τ) :
    P.drain (P.feed s bytes) =
      ((P.drain s).1 ++ (P.drain (P.feed (P.settle s) bytes)).1,
        (P.drain (P.feed (P.settle s) bytes)).2) := by
  obtain ⟨n, hn⟩ : ∃ n, P.size s = n := ⟨_, rfl⟩
  induction n using Nat.strong_induction_on generalizing s with
  | _ n ih =>
    match hnext : P.next s with
    | (.ok (some i), s') =>
      have hlt := P.size_lt hnext
      rw [P.drain_item hnext] at h ⊢
      rw [P.settle_item hnext, P.drain_item (P.next_item bytes hnext),
        ih (P.size s') (by omega) h rfl]
      rfl
    | (.ok none, s') =>
      rw [P.drain_none hnext, P.settle_none hnext, P.drain_congr (P.next_none bytes hnext)]
      rfl
    | (.error e, s') =>
      rw [P.drain_error hnext] at h
      cases h

/-- When everything has been pulled, there is nothing to pull. -/
theorem drain_settle {s : σ} (h : (P.drain s).2 = none) : P.drain (P.settle s) = ([], none) := by
  have hnil := P.drain_feed h []
  rw [P.feed_nil, P.feed_nil] at hnil
  have hitems : (P.drain (P.settle s)).1 = [] :=
      List.self_eq_append_right.mp (congrArg Prod.fst hnil)
  exact Prod.ext hitems ((congrArg Prod.snd hnil).symm.trans h)

/-! ## Lists of calls -/

inductive Call (τ : Type v) where
  | feed (bytes : List τ)
  | next

/-- The input of a list of calls. -/
def fed : List (Call τ) → List τ
  | [] => []
  | .feed bytes :: calls => bytes ++ fed calls
  | .next :: calls => fed calls

/-- Make the calls until one of them fails; then pull what is left. -/
def yield : List (Call τ) → σ → Transcript ι ε
  | [], s => P.drain s
  | .feed bytes :: calls, s => yield calls (P.feed s bytes)
  | .next :: calls, s =>
    match P.next s with
    | (.ok (some i), s') => push i (yield calls s')
    | (.ok none, s') => yield calls s'
    | (.error e, _) => ([], some e)

/-- **Where the input is cut, and when items are pulled, does not matter.** -/
theorem yield_eq_drain (calls : List (Call τ)) (s : σ) :
    P.yield calls s = P.drain (P.feed s (fed calls)) := by
  induction calls generalizing s with
  | nil => rw [yield, fed, P.feed_nil]
  | cons call calls ih =>
    cases call with
    | feed bytes => rw [yield, ih, fed, P.feed_append]
    | next =>
      rw [yield, fed]
      split
      · rename_i i s' hnext
        rw [ih, P.drain_item (P.next_item _ hnext)]
      · rename_i s' hnext
        rw [ih, P.drain_congr (P.next_none _ hnext)]
      · rename_i e s' hnext
        exact (P.drain_error (Prod.ext (P.next_error _ hnext) rfl)).symm

/-- Two lists of calls with the same input yield the same. -/
theorem yield_congr {calls calls' : List (Call τ)} (h : fed calls = fed calls') (s : σ) :
    P.yield calls s = P.yield calls' s := by
  rw [yield_eq_drain, yield_eq_drain, h]

end PullParser
