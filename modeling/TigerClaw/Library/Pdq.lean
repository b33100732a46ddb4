import Mathlib.Algebra.Ring.Nat
import Mathlib.Data.List.Basic
import TigerClaw.Library.Loop

/-!
# Pattern-defeating quicksort

`std.sort.pdqContext`: a sort in place that sees the items only through a context, which compares
and swaps them by index.  Up to 24 items it is an insertion sort.  Above that it picks a pivot,
mends a range that looks sorted already, partitions, and falls back to a heap after too many bad
pivots.  It is not stable.

* `Context`: what the sort is given.  `Hom`: two contexts that answer alike.
* `pdqContext_hom`: **the sort does the same to both**, so that its effect depends on the answers
  to its comparisons and on nothing else.
* `pdqContext_of_le`, `pdq_stable`: a short range is sorted by guarded swaps of neighbours alone,
  and so it is sorted stably.
-/

namespace Pdq

universe u v

/-- The items, behind comparisons and swaps. -/
structure Context (σ : Type u) where
  lessThan : σ → ℕ → ℕ → Bool
  swap : σ → ℕ → ℕ → σ

variable {σ : Type u} (ctx : Context σ)

/-! ## The short sorts -/

/-- `while (j > a and lessThan(j, j - 1)) : (j -= 1) swap(j, j - 1)`. -/
def insertLeft (a : ℕ) : ℕ → σ → σ
  | 0, s => s
  | j + 1, s =>
    if a < j + 1 ∧ ctx.lessThan s (j + 1) j then insertLeft a j (ctx.swap s (j + 1) j) else s

def insertionContext (a b : ℕ) (s : σ) : σ :=
  (List.range' (a + 1) (b - (a + 1))).foldl (fun s i => insertLeft ctx a i s) s

/-- One item sinks in the heap; the fuel bounds the indices below it. -/
def siftDown (a b : ℕ) : ℕ → ℕ → σ → σ
  | 0, _, s => s
  | fuel + 1, cur, s =>
    let child := (cur - a) * 2 + a + 1
    if child < b then
      let child := if child + 1 < b ∧ ctx.lessThan s child (child + 1) then child + 1 else child
      if ctx.lessThan s child cur then s else siftDown a b fuel child (ctx.swap s child cur)
    else s

def heapContext (a b : ℕ) (s : σ) : σ :=
  let s := (List.range' a ((b - a) / 2)).reverse.foldl (fun s i => siftDown ctx a b b i s) s
  (List.range' a (b - a)).reverse.foldl (fun s i => siftDown ctx a i i a (ctx.swap s a i)) s

/-! ## Choosing a pivot -/

inductive Hint where
  | increasing
  | decreasing
  | unknown
  deriving DecidableEq

/-- Swap two items that are out of order, and count the swap. -/
def order2 (a b : ℕ) (r : σ × ℕ) : σ × ℕ :=
  if ctx.lessThan r.1 b a then (ctx.swap r.1 b a, r.2 + 1) else r

def sort3 (a b c : ℕ) (r : σ × ℕ) : σ × ℕ :=
  order2 ctx a b (order2 ctx b c (order2 ctx a b r))

def chosePivot (a b : ℕ) (s : σ) : σ × ℕ × Hint :=
  let len := b - a
  let i := a + len / 4 * 1
  let j := a + len / 4 * 2
  let k := a + len / 4 * 3
  let r := (s, 0)
  let r := if 50 ≤ len then
      sort3 ctx (k - 1) k (k + 1) (sort3 ctx (j - 1) j (j + 1) (sort3 ctx (i - 1) i (i + 1) r))
    else r
  let r := if 8 ≤ len then sort3 ctx i j k r else r
  (r.1, j, if r.2 = 0 then .increasing else if r.2 = 12 then .decreasing else .unknown)

/-- Swap ends while they have not met; the fuel bounds the indices between them. -/
def reverseLoop : ℕ → ℕ → ℕ → σ → σ
  | 0, _, _, s => s
  | fuel + 1, i, j, s => if i < j then reverseLoop fuel (i + 1) (j - 1) (ctx.swap s i j) else s

def reverseRange (a b : ℕ) (s : σ) : σ := reverseLoop ctx b a (b - 1) s

/-- One round of `xorshift64`. -/
def xorshift (rand : UInt64) : UInt64 :=
  let rand := rand ^^^ (rand <<< 13)
  let rand := rand ^^^ (rand >>> 7)
  rand ^^^ (rand <<< 17)

/-- Swap the item at `i` with one at random. -/
def shuffle (a len : ℕ) (r : σ × UInt64) (i : ℕ) : σ × UInt64 :=
  let modulus : UInt64 := UInt64.ofNat len.nextPowerOfTwo
  let rand := xorshift r.2
  let other := (rand &&& (modulus - 1)).toNat
  let other := if len ≤ other then other - len else other
  (ctx.swap r.1 i (a + other), rand)

def breakPatterns (a b : ℕ) (s : σ) : σ :=
  let len := b - a
  if len < 8 then s
  else
    ((List.range' (a + len / 4 * 2 - 1) 3).foldl (shuffle ctx a len) (s, UInt64.ofNat len)).1

/-! ## Partial insertion sort -/

/-- `while (j >= 1) : (j -= 1)`: the smaller item goes left while it is out of order. -/
def shiftLeft : ℕ → σ → σ
  | 0, s => s
  | j + 1, s => if ctx.lessThan s (j + 1) j then shiftLeft j (ctx.swap s (j + 1) j) else s

/-- `while (j < b) : (j += 1)`: the greater item goes right; the fuel is what is left of it. -/
def shiftRight : ℕ → ℕ → σ → σ
  | 0, _, s => s
  | fuel + 1, j, s =>
    if ctx.lessThan s (j + 1) j then shiftRight fuel (j + 1) (ctx.swap s (j + 1) j) else s

/-- `while (i < b and !lessThan(i, i - 1)) i += 1`, with as much fuel as there are indices. -/
def nextInversion (s : σ) : ℕ → ℕ → ℕ
  | 0, i => i
  | fuel + 1, i => if ctx.lessThan s i (i - 1) then i else nextInversion s fuel (i + 1)

def partialLoop (a b : ℕ) : ℕ → ℕ → σ → σ × Bool
  | 0, _, s => (s, false)
  | steps + 1, i, s =>
    let i := nextInversion ctx s (b - i) i
    if i = b then (s, true)
    else if b - a < 50 then (s, false)
    else
      let s := ctx.swap s i (i - 1)
      let s := if 2 ≤ i - a then shiftLeft ctx (i - 1) s else s
      let s := if 2 ≤ b - i then shiftRight ctx (b - (i + 1)) i s else s
      partialLoop a b steps i s

/-- Mend up to five inversions; whether the range is sorted then. -/
def partialInsertionSort (a b : ℕ) (s : σ) : σ × Bool := partialLoop ctx a b 5 (a + 1) s

/-! ## Partitioning -/

/-- `while (i <= j and p(i)) i += 1`; the fuel is the number of indices from `i` to `j`. -/
def scanUp (p : ℕ → Bool) : ℕ → ℕ → ℕ
  | 0, i => i
  | fuel + 1, i => if p i then scanUp p fuel (i + 1) else i

/-- `while (i <= j and p(j)) j -= 1`, with the same fuel. -/
def scanDown (p : ℕ → Bool) : ℕ → ℕ → ℕ
  | 0, j => j
  | fuel + 1, j => if p j then scanDown p fuel (j - 1) else j

/-- The two scans from the ends `i` and `j` of what is left, past the items that `up` and `down`
admit. -/
def scan (up down : ℕ → Bool) (i j : ℕ) : ℕ × ℕ :=
  let i := scanUp up (j + 1 - i) i
  (i, scanDown down (j + 1 - i) j)

/-- The pair of items where both scans stop is swapped, until the scans have met; the fuel bounds
the indices between them. -/
def swapLoop (up down : σ → ℕ → Bool) : ℕ → ℕ → ℕ → σ → σ × ℕ × ℕ
  | 0, i, j, s => (s, i, j)
  | fuel + 1, i, j, s =>
    let (i, j) := scan (up s) (down s) i j
    if j < i then (s, i, j) else swapLoop up down fuel (i + 1) (j - 1) (ctx.swap s i j)

/-- Less than the pivot in front, the rest behind: where the pivot is then, and whether the range
was partitioned before. -/
def partition (a b pivot : ℕ) (s : σ) : σ × ℕ × Bool :=
  let s := ctx.swap s a pivot
  let up := fun s i => ctx.lessThan s i a
  let down := fun s j => !ctx.lessThan s j a
  let (i, j) := scan (up s) (down s) (a + 1) (b - 1)
  if j < i then (ctx.swap s j a, j, true)
  else
    let r := swapLoop ctx up down b (i + 1) (j - 1) (ctx.swap s i j)
    (ctx.swap r.1 r.2.2 a, r.2.2, false)

/-- Equal to the pivot in front, greater behind: where the second part begins. -/
def partitionEqual (a b pivot : ℕ) (s : σ) : σ × ℕ :=
  let s := ctx.swap s a pivot
  let r := swapLoop ctx (fun s i => !ctx.lessThan s a i) (fun s j => ctx.lessThan s a j) b
    (a + 1) (b - 1) s
  (r.1, r.2.1)

/-! ## The sort -/

structure Range where
  a : ℕ
  b : ℕ
  limit : ℕ

/-- The locals of `pdqContext`. -/
structure Locals (σ : Type u) where
  items : σ
  stack : List Range
  range : Range
  wasBalanced : Bool := true
  wasPartitioned : Bool := true

/-- The same locals over other items. -/
def Locals.map {τ : Type v} (g : σ → τ) (l : Locals σ) : Locals τ :=
  { l with items := g l.items }

/-- The range is done: take the next one off the stack. -/
def done (l : Locals σ) (items : σ) : Loop.Round (Locals σ) σ :=
  match l.stack with
  | [] => .leave items
  | range :: stack => .again { items, stack, range }

/-- The patterns broken after a bad pivot, a pivot chosen, and a descending range turned round. -/
def prepare (l : Locals σ) : σ × ℕ × Hint :=
  let r := l.range
  let items := if l.wasBalanced then l.items else breakPatterns ctx r.a r.b l.items
  let c := chosePivot ctx r.a r.b items
  if c.2.2 = .decreasing then
    (reverseRange ctx r.a r.b c.1, r.b - 1 - (c.2.1 - r.a), .increasing)
  else c

/-- A range that looks sorted is mended, and perhaps done. -/
def mend (l : Locals σ) (hint : Hint) (items : σ) : σ × Bool :=
  if l.wasBalanced ∧ l.wasPartitioned ∧ hint = .increasing then
    partialInsertionSort ctx l.range.a l.range.b items
  else (items, false)

/-- The range is split at the pivot: one part goes on, the other on the stack. -/
def divide (a : ℕ) (l : Locals σ) (pivot : ℕ) (items : σ) : Loop.Round (Locals σ) σ :=
  let r := l.range
  let len := r.b - r.a
  let limit := if l.wasBalanced then r.limit else r.limit - 1
  if a < r.a ∧ !ctx.lessThan items (r.a - 1) pivot then
    let p := partitionEqual ctx r.a r.b pivot items
    .again { l with items := p.1, range := { a := p.2, b := r.b, limit } }
  else
    let p := partition ctx r.a r.b pivot items
    let mid := p.2.1
    let leftLen := mid - r.a
    let rightLen := r.b - mid
    if leftLen < rightLen then
      .again { items := p.1, wasPartitioned := p.2.2, wasBalanced := len / 8 ≤ leftLen
               stack := { a := r.a, b := mid, limit } :: l.stack
               range := { a := mid + 1, b := r.b, limit } }
    else
      .again { items := p.1, wasPartitioned := p.2.2, wasBalanced := len / 8 ≤ rightLen
               stack := { a := mid + 1, b := r.b, limit } :: l.stack
               range := { a := r.a, b := mid, limit } }

/-- One pass of the inner loop over a range of more than 24 items. -/
def passRange (a : ℕ) (l : Locals σ) : Loop.Round (Locals σ) σ :=
  let c := prepare ctx l
  let m := mend ctx l c.2.2 c.1
  if m.2 then done l m.1 else divide ctx a l c.2.1 m.1

/-- One pass of the loops. -/
def pass (a : ℕ) (l : Locals σ) : Loop.Round (Locals σ) σ :=
  if l.range.b - l.range.a ≤ 24 then
    done l (insertionContext ctx l.range.a l.range.b l.items)
  else if l.range.limit = 0 then done l (heapContext ctx l.range.a l.range.b l.items)
  else passRange ctx a l

/-- How long a pass can still go on: every pass shortens a range, splits it, or is done with it. -/
def Locals.size (l : Locals σ) : ℕ :=
  ((l.range :: l.stack).map fun r => 2 * (r.b - r.a) + 1).sum

/-- `floorPowerOfTwo`. -/
def floorPowerOfTwo (n : ℕ) : ℕ := if n = 0 then 0 else 2 ^ n.log2

def start (a b : ℕ) (s : σ) : Locals σ :=
  { items := s, stack := [], range := { a, b, limit := floorPowerOfTwo (b - a) + 1 } }

/-- Sort the items from `a` to `b`. -/
def pdqContext (a b : ℕ) (s : σ) : σ :=
  (Loop.loop (pass ctx a) (2 * (b - a) + 2) (start a b s)).getD s

/-! ## Homomorphisms of contexts -/

variable {τ : Type v} {ctx} {ctx' : Context τ} {g : σ → τ}

/-- Items read through `g`: the answers and the swaps are the same. -/
structure Hom (ctx : Context σ) (ctx' : Context τ) (g : σ → τ) : Prop where
  lessThan : ∀ s i j, ctx'.lessThan (g s) i j = ctx.lessThan s i j
  swap : ∀ s i j, ctx'.swap (g s) i j = g (ctx.swap s i j)

namespace Hom

variable (h : Hom ctx ctx' g)

include h

theorem insertLeft (a j : ℕ) (s : σ) :
    Pdq.insertLeft ctx' a j (g s) = g (Pdq.insertLeft ctx a j s) := by
  induction j generalizing s with
  | zero => rfl
  | succ j ih =>
    rw [Pdq.insertLeft, Pdq.insertLeft, h.lessThan, h.swap, ih]
    split <;> rfl

theorem insertionContext (a b : ℕ) (s : σ) :
    Pdq.insertionContext ctx' a b (g s) = g (Pdq.insertionContext ctx a b s) :=
  List.foldl_hom g fun s i => h.insertLeft a i s

theorem siftDown (a b fuel cur : ℕ) (s : σ) :
    Pdq.siftDown ctx' a b fuel cur (g s) = g (Pdq.siftDown ctx a b fuel cur s) := by
  induction fuel generalizing cur s with
  | zero => rfl
  | succ fuel ih =>
    simp only [Pdq.siftDown, h.lessThan, h.swap, ih, apply_ite g]

theorem heapContext (a b : ℕ) (s : σ) :
    Pdq.heapContext ctx' a b (g s) = g (Pdq.heapContext ctx a b s) := by
  unfold Pdq.heapContext
  rw [List.foldl_hom g fun s i => h.siftDown a b b i s]
  refine List.foldl_hom g fun s i => ?_
  rw [h.swap, h.siftDown]

theorem order2 (a b n : ℕ) (s : σ) :
    Pdq.order2 ctx' a b (g s, n) =
      (g (Pdq.order2 ctx a b (s, n)).1, (Pdq.order2 ctx a b (s, n)).2) := by
  simp only [Pdq.order2, h.lessThan, h.swap]
  split <;> rfl

theorem sort3 (a b c n : ℕ) (s : σ) :
    Pdq.sort3 ctx' a b c (g s, n) =
      (g (Pdq.sort3 ctx a b c (s, n)).1, (Pdq.sort3 ctx a b c (s, n)).2) := by
  simp only [Pdq.sort3, h.order2]

theorem chosePivot (a b : ℕ) (s : σ) :
    Pdq.chosePivot ctx' a b (g s) =
      (g (Pdq.chosePivot ctx a b s).1, (Pdq.chosePivot ctx a b s).2) := by
  simp only [Pdq.chosePivot, h.sort3]
  split <;> split <;> simp only [h.sort3]

theorem reverseLoop (fuel i j : ℕ) (s : σ) :
    Pdq.reverseLoop ctx' fuel i j (g s) = g (Pdq.reverseLoop ctx fuel i j s) := by
  induction fuel generalizing i j s with
  | zero => rfl
  | succ fuel ih => simp only [Pdq.reverseLoop, h.swap, ih, apply_ite g]

theorem shuffle (a len i : ℕ) (r : σ × UInt64) :
    Pdq.shuffle ctx' a len (Prod.map g id r) i = Prod.map g id (Pdq.shuffle ctx a len r i) := by
  simp only [Pdq.shuffle, Prod.map_fst, Prod.map_snd, id, h.swap, Prod.map_apply]

theorem breakPatterns (a b : ℕ) (s : σ) :
    Pdq.breakPatterns ctx' a b (g s) = g (Pdq.breakPatterns ctx a b s) := by
  dsimp only [Pdq.breakPatterns]
  split
  · rfl
  · show (List.foldl (Pdq.shuffle ctx' a (b - a)) (Prod.map g id (s, UInt64.ofNat (b - a))) _).1 = _
    rw [List.foldl_hom (Prod.map g id) fun r i => h.shuffle a (b - a) i r]
    rfl

theorem shiftLeft (j : ℕ) (s : σ) : Pdq.shiftLeft ctx' j (g s) = g (Pdq.shiftLeft ctx j s) := by
  induction j generalizing s with
  | zero => rfl
  | succ j ih => simp only [Pdq.shiftLeft, h.lessThan, h.swap, ih, apply_ite g]

theorem shiftRight (fuel j : ℕ) (s : σ) :
    Pdq.shiftRight ctx' fuel j (g s) = g (Pdq.shiftRight ctx fuel j s) := by
  induction fuel generalizing j s with
  | zero => rfl
  | succ fuel ih => simp only [Pdq.shiftRight, h.lessThan, h.swap, ih, apply_ite g]

theorem nextInversion (fuel i : ℕ) (s : σ) :
    Pdq.nextInversion ctx' (g s) fuel i = Pdq.nextInversion ctx s fuel i := by
  induction fuel generalizing i with
  | zero => rfl
  | succ fuel ih => simp only [Pdq.nextInversion, h.lessThan, ih]

theorem partialLoop (a b steps i : ℕ) (s : σ) :
    Pdq.partialLoop ctx' a b steps i (g s) = Prod.map g id (Pdq.partialLoop ctx a b steps i s) := by
  induction steps generalizing i s with
  | zero => rfl
  | succ steps ih =>
    simp only [Pdq.partialLoop, h.nextInversion, h.swap, h.shiftLeft, h.shiftRight,
      ← apply_ite g, ih, apply_ite (Prod.map g id)]
    rfl

theorem swapLoop {up down : σ → ℕ → Bool} {up' down' : τ → ℕ → Bool}
    (hup : ∀ s i, up' (g s) i = up s i) (hdown : ∀ s j, down' (g s) j = down s j)
    (fuel i j : ℕ) (s : σ) :
    Pdq.swapLoop ctx' up' down' fuel i j (g s) =
      Prod.map g id (Pdq.swapLoop ctx up down fuel i j s) := by
  have hup' : ∀ s, up' (g s) = up s := fun s => funext (hup s)
  have hdown' : ∀ s, down' (g s) = down s := fun s => funext (hdown s)
  induction fuel generalizing i j s with
  | zero => rfl
  | succ fuel ih =>
    simp only [Pdq.swapLoop, hup', hdown', h.swap, ih, apply_ite (Prod.map g id)]
    rfl

theorem partition (a b pivot : ℕ) (s : σ) :
    Pdq.partition ctx' a b pivot (g s) = Prod.map g id (Pdq.partition ctx a b pivot s) := by
  simp only [Pdq.partition, h.swap, h.lessThan]
  rw [h.swapLoop (fun s i => h.lessThan s i a) (fun s j => by rw [h.lessThan])]
  simp only [Prod.map_fst, Prod.map_snd, id, h.swap, apply_ite (Prod.map g id), Prod.map_apply]

theorem partitionEqual (a b pivot : ℕ) (s : σ) :
    Pdq.partitionEqual ctx' a b pivot (g s) =
      Prod.map g id (Pdq.partitionEqual ctx a b pivot s) := by
  simp only [Pdq.partitionEqual, h.swap]
  rw [h.swapLoop (fun s i => by rw [h.lessThan]) (fun s j => h.lessThan s a j)]
  rfl

omit h in
theorem done (l : Locals σ) (items : σ) :
    Pdq.done (l.map g) (g items) = (Pdq.done l items).map (Locals.map g) g := by
  unfold Pdq.done
  cases hstack : l.stack <;> simp [Locals.map, hstack, Loop.Round.map]

theorem prepare (l : Locals σ) :
    Pdq.prepare ctx' (l.map g) = Prod.map g id (Pdq.prepare ctx l) := by
  simp only [Pdq.prepare, Locals.map, h.breakPatterns, ← apply_ite g, h.chosePivot,
    Pdq.reverseRange, h.reverseLoop, apply_ite (Prod.map g id)]
  rfl

theorem mend (l : Locals σ) (hint : Hint) (items : σ) :
    Pdq.mend ctx' (l.map g) hint (g items) = Prod.map g id (Pdq.mend ctx l hint items) := by
  simp only [Pdq.mend, Locals.map, Pdq.partialInsertionSort, h.partialLoop,
    apply_ite (Prod.map g id)]
  rfl

theorem divide (a : ℕ) (l : Locals σ) (pivot : ℕ) (items : σ) :
    Pdq.divide ctx' a (l.map g) pivot (g items) =
      (Pdq.divide ctx a l pivot items).map (Locals.map g) g := by
  simp only [Pdq.divide, Locals.map, h.lessThan, h.partition, h.partitionEqual, Prod.map_fst,
    Prod.map_snd, id, apply_ite (Loop.Round.map (Locals.map g) g)]
  rfl

theorem passRange (a : ℕ) (l : Locals σ) :
    Pdq.passRange ctx' a (l.map g) = (Pdq.passRange ctx a l).map (Locals.map g) g := by
  simp only [Pdq.passRange, h.prepare, Prod.map_fst, Prod.map_snd, id, h.mend, h.divide, done,
    apply_ite (Loop.Round.map (Locals.map g) g)]

theorem pass (a : ℕ) (l : Locals σ) :
    Pdq.pass ctx' a (l.map g) = (Pdq.pass ctx a l).map (Locals.map g) g := by
  simp only [Pdq.pass]
  rw [apply_ite (Loop.Round.map (Locals.map g) g), apply_ite (Loop.Round.map (Locals.map g) g),
    ← done, ← done, ← h.insertionContext, ← h.heapContext, ← h.passRange]
  rfl

end Hom

/-- **The sort does to the items read through `g` what it does to the items.** -/
theorem pdqContext_hom (h : Hom ctx ctx' g) (a b : ℕ) (s : σ) :
    pdqContext ctx' a b (g s) = g (pdqContext ctx a b s) := by
  unfold pdqContext
  have hstart : start a b (g s) = (start a b s).map g := rfl
  rw [hstart, Loop.loop_map (h.pass a)]
  cases Loop.loop (pass ctx a) (2 * (b - a) + 2) (start a b s) <;> rfl

/-- The context on the items with a property that every swap keeps. -/
def Context.restrict (ctx : Context σ) {I : σ → Prop} (hI : ∀ s i j, I s → I (ctx.swap s i j)) :
    Context {s // I s} where
  lessThan s := ctx.lessThan s.1
  swap s i j := ⟨ctx.swap s.1 i j, hI s.1 i j s.2⟩

/-- **What every swap keeps, the sort keeps.** -/
theorem pdqContext_invariant {I : σ → Prop} (hI : ∀ s i j, I s → I (ctx.swap s i j)) (a b : ℕ)
    {s : σ} (hs : I s) : I (pdqContext ctx a b s) := by
  have hom : Hom (ctx.restrict hI) ctx Subtype.val := ⟨fun _ _ _ => rfl, fun _ _ _ => rfl⟩
  rw [pdqContext_hom hom a b ⟨s, hs⟩]
  exact (pdqContext (ctx.restrict hI) a b ⟨s, hs⟩).2

/-! ## Short ranges -/

/-- What a swap of two neighbours that are out of order keeps, an insertion sort keeps. -/
theorem insertionContext_invariant {I : σ → Prop}
    (hI : ∀ s j, I s → ctx.lessThan s (j + 1) j → I (ctx.swap s (j + 1) j)) (a b : ℕ) {s : σ}
    (hs : I s) : I (insertionContext ctx a b s) := by
  have hleft : ∀ j s, I s → I (insertLeft ctx a j s) := by
    intro j
    induction j with
    | zero => exact fun s hs => hs
    | succ j ih =>
      intro s hs
      rw [insertLeft]
      split
      · rename_i hless
        exact ih _ (hI s j hs hless.2)
      · exact hs
  unfold insertionContext
  generalize List.range' (a + 1) (b - (a + 1)) = l
  induction l generalizing s with
  | nil => exact hs
  | cons i l ih => exact ih (hleft i s hs)

/-- **Up to 24 items the sort is the insertion sort.** -/
theorem pdqContext_of_le {a b : ℕ} (h : b - a ≤ 24) (s : σ) :
    pdqContext ctx a b s = insertionContext ctx a b s := by
  have hleave : pass ctx a (start a b s) = .leave (insertionContext ctx a b s) := by
    simp only [pass, start, h, if_true, done]
  rw [pdqContext, Loop.loop_leave hleave, Option.getD_some]

/-! ## The sort returns -/

theorem scan_bounds (up down : ℕ → Bool) {a b i j : ℕ} (hi : a < i) (hib : i ≤ b) (hj : a ≤ j)
    (hjb : j < b) :
    i ≤ (scan up down i j).1 ∧ (scan up down i j).1 ≤ b ∧ a ≤ (scan up down i j).2 ∧
      (scan up down i j).2 ≤ j := by
  have hup : ∀ fuel i, i ≤ scanUp up fuel i ∧ scanUp up fuel i ≤ i + fuel := by
    intro fuel
    induction fuel with
    | zero => exact fun i => ⟨le_refl i, le_refl i⟩
    | succ fuel ih =>
      intro i
      rw [scanUp]
      split
      · have := ih (i + 1)
        omega
      · omega
  have hdown : ∀ fuel j, j - fuel ≤ scanDown down fuel j ∧ scanDown down fuel j ≤ j := by
    intro fuel
    induction fuel with
    | zero => exact fun j => ⟨Nat.sub_le j 0, le_refl j⟩
    | succ fuel ih =>
      intro j
      rw [scanDown]
      split
      · have := ih (j - 1)
        omega
      · omega
  have h₁ := hup (j + 1 - i) i
  have h₂ := hdown (j + 1 - scanUp up (j + 1 - i) i) j
  simp only [scan]
  omega

theorem swapLoop_bounds (ctx : Context σ) (up down : σ → ℕ → Bool) (fuel : ℕ) {a b i j : ℕ}
    (s : σ) (hi : a < i) (hib : i ≤ b) (hj : a ≤ j) (hjb : j < b) :
    a < (swapLoop ctx up down fuel i j s).2.1 ∧ (swapLoop ctx up down fuel i j s).2.1 ≤ b ∧
      a ≤ (swapLoop ctx up down fuel i j s).2.2 ∧ (swapLoop ctx up down fuel i j s).2.2 < b := by
  induction fuel generalizing i j s with
  | zero => exact ⟨hi, hib, hj, hjb⟩
  | succ fuel ih =>
    have hscan := scan_bounds (up s) (down s) hi hib hj hjb
    rw [swapLoop]
    dsimp only
    split
    · exact ⟨lt_of_lt_of_le hi hscan.1, hscan.2.1, hscan.2.2.1, lt_of_le_of_lt hscan.2.2.2 hjb⟩
    · exact ih _ (by omega) (by omega) (by omega) (by omega)

theorem partition_bounds (ctx : Context σ) {a b : ℕ} (hab : a < b) (pivot : ℕ) (s : σ) :
    a ≤ (partition ctx a b pivot s).2.1 ∧ (partition ctx a b pivot s).2.1 < b := by
  rw [partition]
  dsimp only
  generalize hp : scan _ _ (a + 1) (b - 1) = p
  have hscan : a + 1 ≤ p.1 ∧ p.1 ≤ b ∧ a ≤ p.2 ∧ p.2 ≤ b - 1 :=
    hp ▸ scan_bounds _ _ (by omega) (by omega) (by omega) (by omega)
  split
  · exact ⟨hscan.2.2.1, by have := hscan.2.2.2; dsimp only; omega⟩
  · have hloop := swapLoop_bounds ctx (fun s i => ctx.lessThan s i a)
      (fun s j => !ctx.lessThan s j a) b (ctx.swap (ctx.swap s a pivot) p.1 p.2)
      (show a < p.1 + 1 by omega) (show p.1 + 1 ≤ b by omega) (show a ≤ p.2 - 1 by omega)
      (show p.2 - 1 < b by omega)
    exact hloop.2.2

theorem partitionEqual_bounds (ctx : Context σ) {a b : ℕ} (hab : a < b) (pivot : ℕ) (s : σ) :
    a < (partitionEqual ctx a b pivot s).2 ∧ (partitionEqual ctx a b pivot s).2 ≤ b := by
  have hloop := swapLoop_bounds ctx (fun s i => !ctx.lessThan s a i)
    (fun s j => ctx.lessThan s a j) b (ctx.swap s a pivot)
    (show a < a + 1 by omega) (show a + 1 ≤ b by omega) (show a ≤ b - 1 by omega)
    (show b - 1 < b by omega)
  exact ⟨hloop.1, hloop.2.1⟩

/-- A pass that does not end the sort leaves less to do. -/
theorem pass_size {a : ℕ} {l l' : Locals σ} (h : pass ctx a l = .again l') : l'.size < l.size := by
  have hdone : ∀ items, done l items = .again l' → l'.size < l.size := by
    intro items hagain
    unfold done at hagain
    cases hstack : l.stack with
    | nil => simp [hstack] at hagain
    | cons range stack =>
      simp only [hstack, Loop.Round.again.injEq] at hagain
      subst hagain
      simp [Locals.size, hstack]
  unfold pass at h
  split at h
  · exact hdone _ h
  split at h
  · exact hdone _ h
  rename_i hlong _
  unfold passRange at h
  dsimp only at h
  split at h
  · exact hdone _ h
  generalize (mend ctx l _ _).1 = items at h
  generalize (prepare ctx l).2.1 = pivot at h
  unfold divide at h
  dsimp only at h
  have hab : l.range.a < l.range.b := by omega
  split at h
  · have hbounds := partitionEqual_bounds ctx hab pivot items
    simp only [Loop.Round.again.injEq] at h
    subst h
    simp only [Locals.size, List.map_cons, List.sum_cons]
    omega
  · have hbounds := partition_bounds ctx hab pivot items
    split at h <;>
    · simp only [Loop.Round.again.injEq] at h
      subst h
      simp only [Locals.size, List.map_cons, List.sum_cons]
      omega

/-- **The sort returns**: its fuel is never used up. -/
theorem loop_pass_isSome (ctx : Context σ) (a b : ℕ) (s : σ) :
    (Loop.loop (pass ctx a) (2 * (b - a) + 2) (start a b s)).isSome := by
  have hpass : ∀ l : Locals σ, True →
      (∃ l', pass ctx a l = .again l' ∧ True ∧ l'.size < l.size) ∨
        ∃ r, pass ctx a l = .leave r ∧ True := by
    intro l _
    cases h : pass ctx a l with
    | again l' => exact .inl ⟨l', rfl, trivial, pass_size h⟩
    | leave r => exact .inr ⟨r, rfl, trivial⟩
  have hfuel : (start a b s).size < 2 * (b - a) + 2 := by simp [Locals.size, start]
  obtain ⟨r, hr, -⟩ := Loop.loop_total Locals.size hpass trivial hfuel
  rw [hr]
  rfl

/-! ## Lists -/

variable {α : Type u} {β : Type v}

/-- Swap two entries, if they are there. -/
def swapAt (l : List α) (i j : ℕ) : List α :=
  match l[i]?, l[j]? with
  | some x, some y => (l.set i y).set j x
  | _, _ => l

/-- The items of a list, compared by `less`. -/
def onList (less : α → α → Bool) : Context (List α) where
  lessThan l i j :=
    match l[i]?, l[j]? with
    | some x, some y => less x y
    | _, _ => false
  swap := swapAt

/-- `std.sort.pdq`. -/
def pdq (less : α → α → Bool) (l : List α) : List α := pdqContext (onList less) 0 l.length l

theorem swapAt_perm (l : List α) (i j : ℕ) : (swapAt l i j).Perm l := by
  unfold swapAt
  split
  · rename_i x y hx hy
    obtain ⟨hi, rfl⟩ := List.getElem?_eq_some_iff.mp hx
    obtain ⟨hj, rfl⟩ := List.getElem?_eq_some_iff.mp hy
    exact List.set_set_perm hi hj
  · exact List.Perm.refl l

theorem pdq_perm (less : α → α → Bool) (l : List α) : (pdq less l).Perm l :=
  pdqContext_invariant (fun s i j hs => (swapAt_perm s i j).trans hs) 0 l.length
    (List.Perm.refl l)

theorem onList_hom (f : α → β) (less : β → β → Bool) :
    Hom (onList fun x y => less (f x) (f y)) (onList less) (List.map f) where
  lessThan l i j := by
    simp only [onList, List.getElem?_map]
    cases l[i]? <;> cases l[j]? <;> rfl
  swap l i j := by
    simp only [onList, swapAt, List.getElem?_map]
    cases l[i]? <;> cases l[j]? <;> simp [List.map_set]

/-- **The order that the sort leaves is decided by the comparisons alone.** -/
theorem pdq_map (f : α → β) (less : β → β → Bool) (l : List α) :
    pdq less (l.map f) = (pdq (fun x y => less (f x) (f y)) l).map f := by
  rw [pdq, List.length_map]
  exact pdqContext_hom (onList_hom f less) 0 l.length l

/-- Two neighbours of a list, swapped. -/
theorem swapAt_neighbours {l : List α} {j : ℕ} {x y : α} (hx : l[j + 1]? = some x)
    (hy : l[j]? = some y) :
    ∃ l₁ l₂, l = l₁ ++ y :: x :: l₂ ∧ swapAt l (j + 1) j = l₁ ++ x :: y :: l₂ := by
  obtain ⟨l₁, l₂, rfl, rfl⟩ : ∃ l₁ l₂, l = l₁ ++ y :: x :: l₂ ∧ l₁.length = j := by
    obtain ⟨hx', rfl⟩ := List.getElem?_eq_some_iff.mp hx
    obtain ⟨hy', rfl⟩ := List.getElem?_eq_some_iff.mp hy
    refine ⟨l.take j, l.drop (j + 2), ?_, by rw [List.length_take]; omega⟩
    rw [← List.drop_eq_getElem_cons hx', ← List.drop_eq_getElem_cons hy', List.take_append_drop]
  refine ⟨l₁, l₂, rfl, ?_⟩
  rw [swapAt, hx, hy]
  simp

/-- Swapping two neighbours that are out of order leaves the entries in their order that are never
less than one another. -/
theorem filter_swap {less : α → α → Bool} {p : α → Bool}
    (hp : ∀ x y, p x → p y → less x y = false) {l : List α} {j : ℕ}
    (hless : (onList less).lessThan l (j + 1) j = true) :
    ((onList less).swap l (j + 1) j).filter p = l.filter p := by
  simp only [onList] at hless ⊢
  split at hless
  · rename_i x y hx hy
    obtain ⟨l₁, l₂, rfl, hswap⟩ := swapAt_neighbours hx hy
    rw [hswap]
    simp only [List.filter_append, List.filter_cons]
    -- the two are not both of `p`, or they would not have been out of order
    cases hpx : p x <;> cases hpy : p y <;> simp_all
  · cases hless

/-- **A short list is sorted stably**: entries that are never less than one another stay in their
order. -/
theorem pdq_stable {less : α → α → Bool} {l : List α} (h : l.length ≤ 24) {p : α → Bool}
    (hp : ∀ x y, p x → p y → less x y = false) : (pdq less l).filter p = l.filter p := by
  rw [pdq, pdqContext_of_le (by omega)]
  exact insertionContext_invariant (I := fun s : List α => s.filter p = l.filter p)
    (fun s j hs hless => (filter_swap hp hless).trans hs) 0 l.length rfl

end Pdq
