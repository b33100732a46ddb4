import Mathlib.Data.List.Sort
import TigerClaw.Library.Like
import TigerClaw.Memory.SessionStore

/-!
# Searching the session store

`searchFn` of `extensions/memory-tigerclaw/root.zig` puts the text of the query between two percent
signs, and lets the database look for the pattern.

* `scan`, `Store.search`: the code, over any `LIKE`.  `Documented`: what is known of it.
* `contains`: the text is in the body, up to the case of ASCII letters.
* `Searches`: a search for a text finds the live entries that contain it, whatever else is stored.
* `Kept`: live rows are what was appended.
* `searches_iff`: that is so exactly for the texts without wildcards that fit a pattern.
-/

namespace TigerClaw
namespace Memory

namespace SessionStore

open Like (encode foldCase likeMatch Plain filled)

inductive SearchError where
  | invalidSession
  | backendFailure
  deriving DecidableEq

structure Query where
  text : Bytes
  limit : ℕ := 16

/-- `spec.Entry`, as a search returns it. -/
structure Found where
  seq : ℕ
  tsUnixNs : ℤ
  kind : Kind
  body : Bytes
  deriving DecidableEq

def Row.found (self : Row) : Found := ⟨self.seq.toNat, self.tsUnixNs, self.kind, self.body⟩

/-- `WHERE session_id=? AND tombstone=0 ORDER BY seq ASC`. -/
def Entries.live (self : Entries) (sessionId : Bytes) : List Row :=
  (self.rows.filter fun row => row.sessionId = sessionId && !row.tombstone).insertionSort
    fun a b => a.seq ≤ b.seq

/-- The loop over the rows, up to the limit; a statement that fails ends it. -/
def scan (like : Bytes → Option Bool) : ℕ → List Row → Outcome SearchError (List Found)
  | 0, _ => .ok []
  | _ + 1, [] => .ok []
  | n + 1, row :: rest =>
    match like row.body with
    | none => .ok []
    | some false => scan like (n + 1) rest
    | some true =>
      if row.seq < 0 then .trap .intCast
      else do
        let more ← scan like n rest
        .ok (row.found :: more)

/-- `%{s}%` -/
def pattern (text : Bytes) : Bytes := 37 :: text ++ [37]

def lim (limit bufLen : ℕ) : ℕ := min (if limit = 0 then bufLen else limit) bufLen

/-- `searchFn`.  The length of the pattern is cast to a `c_int`. -/
def Store.search (self : Store) (like : Bytes → Bytes → Option Bool) (sessionId : Bytes)
    (query : Query) (bufLen : ℕ) (fault : Bool) : Outcome SearchError (List Found) :=
  if validateSession sessionId = false then .error .invalidSession
  else if bufLen = 0 then .ok []
  else if fault then .error .backendFailure
  else if 2 ^ 31 ≤ (pattern query.text).length then .trap .intCast
  else scan (like (pattern query.text)) (lim query.limit bufLen) (self.entries.live sessionId)

/-! ## What is known of the database -/

/-- The character that ends a text. -/
def nul : Char := Char.ofNat 0

/-- What `LIKE` does with patterns and values that are texts, by default; a value that is a blob is
taken for a text. -/
structure Documented (like : Bytes → Bytes → Option Bool) : Prop where
  text : ∀ p s : List Char, nul ∉ p → nul ∉ s → (encode p).length ≤ 50000 →
    like (encode p) (encode s) = some (likeMatch p s)
  /-- The statement fails. -/
  tooComplex : ∀ p value, 50000 < p.length → like p value = none

def contains (text body : Bytes) : Bool := decide (text.map foldCase <:+: body.map foldCase)

/-- A body that is a text. -/
def IsText (body : Bytes) : Prop := ∃ s : List Char, nul ∉ s ∧ body = encode s

/-- **A search for a text** finds the live entries of the session that contain it, in order, as many
as asked for. -/
def Searches (like : Bytes → Bytes → Option Bool) (text : List Char) : Prop :=
  ∀ (store : Store) (sessionId : Bytes) (limit bufLen : ℕ), validateSession sessionId = true →
    (∀ row ∈ store.entries.rows, 0 ≤ row.seq) →
    (∀ row ∈ store.entries.live sessionId, IsText row.body) →
    store.search like sessionId ⟨encode text, limit⟩ bufLen false =
      .ok ((((store.entries.live sessionId).filter fun row =>
        contains (encode text) row.body).take (lim limit bufLen)).map Row.found)

theorem mem_live {self : Entries} {sessionId : Bytes} {row : Row} :
    row ∈ self.live sessionId ↔
      row ∈ self.rows ∧ row.sessionId = sessionId ∧ row.tombstone = false := by
  simp [Entries.live]

theorem scan_eq {like : Bytes → Option Bool} {f : Bytes → Bool} {rows : List Row} (n : ℕ)
    (hseq : ∀ row ∈ rows, 0 ≤ row.seq) (hlike : ∀ row ∈ rows, like row.body = some (f row.body)) :
    scan like n rows = .ok (((rows.filter fun row => f row.body).take n).map Row.found) := by
  induction rows generalizing n with
  | nil => cases n <;> rfl
  | cons row rest ih =>
    obtain ⟨hrow, hrest⟩ := List.forall_mem_cons.mp hseq
    obtain ⟨hfirst, hlater⟩ := List.forall_mem_cons.mp hlike
    cases n with
    | zero => simp [scan]
    | succ n =>
      rw [scan, hfirst]
      cases hf : f row.body with
      | false =>
        dsimp only
        rw [ih (n + 1) hrest hlater, List.filter_cons_of_neg (by simp [hf])]
      | true =>
        dsimp only
        rw [if_neg (by omega), ih n hrest hlater]
        simp only [List.filter_cons, hf, if_true, List.take_succ_cons, List.map_cons]
        rfl

theorem pattern_encode (text : List Char) :
    pattern (encode text) = encode ('%' :: text ++ ['%']) := by
  rw [Like.encode_append, Like.encode_cons]
  rfl

theorem length_pattern (text : Bytes) : (pattern text).length = text.length + 2 := by
  simp [pattern]

theorem Documented.pattern {like : Bytes → Bytes → Option Bool} (h : Documented like)
    {text s : List Char} (htext : nul ∉ text) (hs : nul ∉ s)
    (hlength : (encode text).length + 2 ≤ 50000) :
    like (pattern (encode text)) (encode s) = some (likeMatch ('%' :: text ++ ['%']) s) := by
  have hnul : nul ∉ '%' :: text ++ ['%'] := by
    simp only [List.cons_append, List.mem_cons, List.mem_append, List.not_mem_nil, or_false]
    rintro (h | h | h)
    · exact absurd h (by decide)
    · exact htext h
    · exact absurd h (by decide)
  rw [pattern_encode]
  exact h.text _ _ hnul hs (by rw [← pattern_encode, length_pattern]; exact hlength)

/-- **A plain text that fits a pattern** is found where it is. -/
theorem searches_of_plain {like : Bytes → Bytes → Option Bool} (hlike : Documented like)
    {text : List Char} (hnul : nul ∉ text) (hplain : Plain text)
    (hlength : (encode text).length + 2 ≤ 50000) : Searches like text := by
  intro store sessionId limit bufLen hsession hseq htext
  rw [Store.search, if_neg (by simp [hsession])]
  by_cases hbuf : bufLen = 0
  · rw [if_pos hbuf, hbuf]
    simp [lim]
  · rw [if_neg hbuf, if_neg Bool.false_ne_true, if_neg (by simp only [length_pattern]; omega)]
    refine scan_eq _ (fun row hrow => hseq row (mem_live.mp hrow).1) fun row hrow => ?_
    obtain ⟨s, hs, hbody⟩ := htext row hrow
    dsimp only
    rw [hbody, hlike.pattern hnul hs hlength, contains, Option.some.injEq, Bool.eq_iff_iff,
      Like.likeMatch_contains hplain, decide_eq_true_eq, Like.infix_foldCase_iff]

/-! ## Wildcards -/

/-- One entry, with some body. -/
def single (body : Bytes) : Store where
  entries.rows := [{ sessionId := ascii "s", seq := 1, tsUnixNs := 0, kind := .user, body }]
  entries.nodup := List.nodup_singleton _

theorem live_single (body : Bytes) :
    (single body).entries.live (ascii "s") =
      [{ sessionId := ascii "s", seq := 1, tsUnixNs := 0, kind := .user, body }] := rfl

theorem search_single {like : Bytes → Bytes → Option Bool} {text : List Char} {body : Bytes}
    (h : Searches like text) (hbody : IsText body) :
    (single body).search like (ascii "s") ⟨encode text, 0⟩ 1 false =
      .ok (if contains (encode text) body then [⟨1, 0, .user, body⟩] else []) := by
  rw [h (single body) (ascii "s") 0 1 (by decide) (by simp [single])
    (by simpa [live_single] using hbody), live_single, List.filter_singleton]
  dsimp only
  cases contains (encode text) body <;> rfl

theorem nul_notMem_filled {text : List Char} (h : nul ∉ text) : nul ∉ filled text := by
  intro hmem
  obtain ⟨p, hp, hfill⟩ := List.mem_filterMap.mp hmem
  split_ifs at hfill
  · exact absurd (Option.some.inj hfill) (by decide)
  · exact h (Option.some.inj hfill ▸ hp)

/-- **A text that is too long for a pattern** is not found where it is. -/
theorem not_searches_of_long {like : Bytes → Bytes → Option Bool} (hlike : Documented like)
    {text : List Char} (hnul : nul ∉ text) (hlength : 50000 < (encode text).length + 2) :
    ¬ Searches like text := by
  intro h
  have hfound := search_single h ⟨text, hnul, rfl⟩
  have hin : contains (encode text) (encode text) = true := decide_eq_true (List.infix_refl _)
  rw [if_pos hin, Store.search, if_neg (by decide), if_neg (by decide),
    if_neg (by decide)] at hfound
  dsimp only at hfound
  split at hfound
  · cases hfound
  · rw [live_single, show lim 0 1 = 0 + 1 from rfl, scan,
      hlike.tooComplex _ _ (by rw [length_pattern]; exact hlength)] at hfound
    cases hfound

/-- **A text with wildcards** finds what it does not contain. -/
theorem not_searches_of_wildcard {like : Bytes → Bytes → Option Bool} (hlike : Documented like)
    {text : List Char} (hnul : nul ∉ text) (hplain : ¬ Plain text)
    (hlength : (encode text).length + 2 ≤ 50000) : ¬ Searches like text := by
  intro h
  have hfilled := nul_notMem_filled hnul
  have hfound := search_single h ⟨filled text, hfilled, rfl⟩
  have hout : ¬ contains (encode text) (encode (filled text)) = true := by
    rw [contains, decide_eq_true_eq, Like.infix_foldCase_iff]
    exact Like.not_infix_filled hplain
  rw [if_neg hout, Store.search, if_neg (by decide), if_neg (by decide), if_neg (by decide),
    if_neg (by simp only [length_pattern]; omega), live_single, show lim 0 1 = 0 + 1 from rfl, scan,
    hlike.pattern hnul hfilled hlength, Like.likeMatch_filled] at hfound
  cases hfound

/-! ## What is live -/

/-- The rows have numbers that are not negative; and a live one was appended as it is. -/
def Kept {ι : Type*} (actions : List (Action ι)) (entries : Entries) : Prop :=
  ∀ row ∈ entries.rows, 0 ≤ row.seq ∧
    (row.tombstone = false → ∃ c entry fault,
      Action.append c row.sessionId entry fault ∈ actions ∧ row.kind = entry.kind ∧
        row.body = entry.body)

section Kept

variable {ι : Type*} [DecidableEq ι] {actions : List (Action ι)}

omit [DecidableEq ι] in
theorem Kept.bury {entries : Entries} (h : Kept actions entries) (sessionId : Bytes)
    (erase : Bool) : Kept actions (entries.bury sessionId erase) := by
  intro row hrow
  obtain ⟨old, hold, rfl⟩ := List.mem_map.mp hrow
  obtain ⟨hseq, happended⟩ := h old hold
  split
  · exact ⟨hseq, fun hlive => by cases hlive⟩
  · exact ⟨hseq, happended⟩

omit [DecidableEq ι] in
theorem Kept.delete {entries : Entries} (h : Kept actions entries) (sessionId : Bytes) :
    Kept actions (entries.delete sessionId) :=
  fun row hrow => h row (List.mem_of_mem_filter hrow)

omit [DecidableEq ι] in
theorem Kept.forgetEntries {store : Store} (h : Kept actions store.entries) (sessionId : Bytes)
    (policy : ForgetPolicy) : Kept actions (store.forgetEntries sessionId policy).entries := by
  cases policy with
  | soft => exact h.bury sessionId false
  | scrub => exact h.bury sessionId true
  | purge => exact h.delete sessionId

/-- The entries are kept, and what callers are about to insert was asked for. -/
structure Appending (actions : List (Action ι)) (w : World ι) : Prop where
  kept : Kept actions w.store.entries
  asked : ∀ c sessionId entry nextSeq, w.caller c = .appending sessionId entry nextSeq →
    ∃ c' fault, Action.append c' sessionId entry fault ∈ actions

theorem Appending.of_caller {w w' : World ι} (h : Appending actions w) {c : ι} {s : Caller}
    (hkept : Kept actions w'.store.entries) (hcaller : w'.caller = Function.update w.caller c s)
    (hs : ∀ sessionId entry nextSeq, s = .appending sessionId entry nextSeq →
      ∃ c' fault, Action.append c' sessionId entry fault ∈ actions) : Appending actions w' where
  kept := hkept
  asked := by
    intro c' sessionId entry nextSeq hc'
    rw [hcaller] at hc'
    by_cases heq : c' = c
    · rw [heq, Function.update_self] at hc'
      exact hs _ _ _ hc'
    · rw [Function.update_of_ne heq] at hc'
      exact h.asked c' _ _ _ hc'

omit [DecidableEq ι] in
theorem Appending.insert {w : World ι} (h : Appending actions w) {c : ι} {sessionId : Bytes}
    {entry : Entry} {nextSeq : ℕ} (hcaller : w.caller c = .appending sessionId entry nextSeq)
    {store : Store} {nowNs : ℤ} {fault : Option InsertFault}
    (hinsert : w.store.insertEntry sessionId entry nextSeq nowNs fault = .ok store) :
    Kept actions store.entries := by
  obtain ⟨row, hrows, hkey, hkind, hbody⟩ := Store.insertEntry_eq_ok hinsert
  obtain ⟨c', fault', hasked⟩ := h.asked c sessionId entry nextSeq hcaller
  obtain ⟨hsession, hseq⟩ := Prod.mk.inj hkey
  intro old hold
  rw [hrows, List.mem_append, List.mem_singleton] at hold
  rcases hold with hold | rfl
  · exact h.kept old hold
  · exact ⟨hseq ▸ Int.natCast_nonneg _, fun _ =>
      ⟨c', entry, fault', hsession ▸ hasked, hkind, hbody⟩⟩

theorem Appending.step {w w' : World ι} {a : Action ι} (h : Appending actions w)
    (ha : a ∈ actions) (hstep : step w a = some w') : Appending actions w' := by
  have hidle : ∀ sessionId entry nextSeq, Caller.idle = .appending sessionId entry nextSeq →
      ∃ c' fault, Action.append c' sessionId entry fault ∈ actions :=
    fun _ _ _ heq => by cases heq
  cases a with
  | append c sessionId entry fault =>
    rw [SessionStore.step] at hstep
    split at hstep
    on_goal 2 => cases hstep
    split at hstep
    · cases hstep
    · obtain rfl := Option.some.inj hstep
      exact h.of_caller h.kept rfl hidle
    · obtain rfl := Option.some.inj hstep
      refine h.of_caller h.kept rfl fun _ _ _ heq => ?_
      injection heq with hsession hentry
      exact ⟨c, fault, hsession ▸ hentry ▸ ha⟩
  | insert c nowNs fault =>
    rw [SessionStore.step] at hstep
    split at hstep
    on_goal 2 => cases hstep
    rename_i sessionId entry nextSeq hcaller
    split at hstep
    · cases hstep
    · obtain rfl := Option.some.inj hstep
      exact h.of_caller h.kept rfl hidle
    · rename_i store hinsert
      obtain rfl := Option.some.inj hstep
      exact h.of_caller (h.insert hcaller hinsert) rfl hidle
  | forget c sessionId policy fault =>
    rw [SessionStore.step] at hstep
    split at hstep
    on_goal 2 => cases hstep
    split_ifs at hstep
    · obtain rfl := Option.some.inj hstep
      exact h.of_caller h.kept rfl hidle
    · obtain rfl := Option.some.inj hstep
      exact h.of_caller h.kept rfl hidle
    · obtain rfl := Option.some.inj hstep
      exact h.of_caller (h.kept.forgetEntries sessionId policy) rfl fun _ _ _ heq => by cases heq
    · obtain rfl := Option.some.inj hstep
      exact h.of_caller (h.kept.forgetEntries sessionId policy) rfl hidle
  | forgetTags c fault =>
    rw [SessionStore.step] at hstep
    split at hstep
    on_goal 2 => cases hstep
    split_ifs at hstep
    · obtain rfl := Option.some.inj hstep
      exact h.of_caller h.kept rfl hidle
    · obtain rfl := Option.some.inj hstep
      exact h.of_caller h.kept rfl hidle
  | tag c sessionId t fault =>
    rw [SessionStore.step] at hstep
    split at hstep
    on_goal 2 => cases hstep
    split_ifs at hstep
    · obtain rfl := Option.some.inj hstep
      exact h.of_caller h.kept rfl hidle
    · obtain rfl := Option.some.inj hstep
      exact h.of_caller h.kept rfl hidle
    · obtain rfl := Option.some.inj hstep
      exact h.of_caller h.kept rfl hidle

/-- **In every run, live rows are what was appended.** -/
theorem kept_of_run {w : World ι} (hrun : StepMachine.run step {} actions = some w) :
    Kept actions w.store.entries := by
  have hstart : Appending actions ({} : World ι) :=
    ⟨fun _ hrow => absurd hrow List.not_mem_nil, fun _ _ _ _ hcaller => by cases hcaller⟩
  have halong : StepMachine.Along step (fun _ a => a ∈ actions) ({} : World ι) actions :=
    StepMachine.along_of_forall fun _ ha _ => ha
  exact (StepMachine.invariant_along (fun _ _ _ h ha hstep => Appending.step h ha hstep) hstart
    halong actions w (List.prefix_refl _) hrun).kept

end Kept

/-- A database that looks at texts only. -/
def textLike (p value : Bytes) : Option Bool :=
  if 50000 < p.length then none
  else
    match Like.decode p, Like.decode value with
    | some p, some s => some (likeMatch p s)
    | _, _ => some false

theorem documented_textLike : Documented textLike where
  text := by
    intro p s _ _ hlength
    rw [textLike, if_neg (by omega), Like.decode_encode, Like.decode_encode]
  tooComplex := by
    intro p value hlength
    rw [textLike, if_pos hlength]

end SessionStore
end Memory
end TigerClaw
