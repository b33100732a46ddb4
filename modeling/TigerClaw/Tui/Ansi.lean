import TigerClaw.Basic
import Mathlib.Algebra.Ring.Nat
import Mathlib.Data.List.Infix

/-!
# Stripping escape sequences

`stripAnsi` of `src/tui/ansi.zig` goes over a text once and leaves out the CSI and OSC sequences,
and every other escape together with the byte behind it.

* `stripRound`, `stripAnsi`: the code.
* `Complete`, `Unterminated`: the sequences, and those that the end of the text cuts off.
* `Pieces`: a text of plain bytes and complete sequences, with its plain bytes.
* `stripAnsi_append`: the code reads such a text as it stands.
* `stripAnsi_complete_iff`: the output is what it has to be, except behind a text of whole pieces
  with a lone escape at its end.
-/

namespace TigerClaw
namespace Tui
namespace Ansi

/-- `0x1b`. -/
def esc : UInt8 := 0x1b

/-- A final byte of a CSI sequence. -/
def isFinal (c : UInt8) : Bool := decide (0x40 ≤ c ∧ c ≤ 0x7E)

/-- Behind the final byte, or at the end. -/
def skipCsi : Bytes → Bytes
  | [] => []
  | c :: rest => if isFinal c then rest else skipCsi rest

/-- Behind the BEL or the `ESC \`, or at the end. -/
def skipOsc : Bytes → Bytes
  | [] => []
  | c :: rest =>
    if c = 0x07 then rest
    else if c = esc ∧ rest.head? = some 0x5C then rest.tail
    else skipOsc rest

/-- One round of the loop: what it appends, and what it leaves. -/
def stripRound (c : UInt8) : Bytes → Bytes × Bytes
  | [] => ([c], [])
  | next :: rest =>
    if c = esc then
      if next = 0x5B then ([], skipCsi rest)
      else if next = 0x5D then ([], skipOsc rest)
      else ([], rest)
    else ([c], next :: rest)

/-- `while (i < s.len)`.  Every round takes a byte at least, so that the fuel is enough. -/
def stripLoop : ℕ → Bytes → Bytes
  | 0, _ => []
  | _ + 1, [] => []
  | fuel + 1, c :: rest => (stripRound c rest).1 ++ stripLoop fuel (stripRound c rest).2

def stripAnsi (s : Bytes) : Bytes := stripLoop s.length s

/-! ## The rounds -/

theorem length_skipCsi_le (s : Bytes) : (skipCsi s).length ≤ s.length := by
  induction s with
  | nil => exact Nat.le_refl _
  | cons c rest ih =>
    rw [skipCsi]
    split
    · exact Nat.le_succ _
    · exact ih.trans (Nat.le_succ _)

theorem length_skipOsc_le (s : Bytes) : (skipOsc s).length ≤ s.length := by
  induction s with
  | nil => exact Nat.le_refl _
  | cons c rest ih =>
    rw [skipOsc]
    split_ifs
    · exact Nat.le_succ _
    · rw [List.length_tail, List.length_cons]
      omega
    · exact ih.trans (Nat.le_succ _)

theorem length_stripRound_le (c : UInt8) (rest : Bytes) :
    (stripRound c rest).2.length ≤ rest.length := by
  cases rest with
  | nil => exact Nat.le_refl _
  | cons next rest =>
    rw [stripRound]
    split_ifs
    · exact (length_skipCsi_le rest).trans (Nat.le_succ _)
    · exact (length_skipOsc_le rest).trans (Nat.le_succ _)
    · exact Nat.le_succ _
    · exact Nat.le_refl _

/-- More fuel changes nothing. -/
theorem stripLoop_eq {fuel : ℕ} {s : Bytes} (hfuel : s.length ≤ fuel) :
    stripLoop fuel s = stripAnsi s := by
  have hmore : ∀ (n k : ℕ) (t : Bytes), t.length ≤ n → stripLoop (n + k) t = stripLoop n t := by
    intro n
    induction n with
    | zero =>
      intro k t ht
      rw [List.length_eq_zero_iff.mp (Nat.le_zero.mp ht)]
      cases k <;> rfl
    | succ n ih =>
      intro k t ht
      cases t with
      | nil =>
        rw [Nat.succ_add]
        rfl
      | cons c rest =>
        rw [Nat.succ_add, stripLoop, stripLoop, ih]
        exact (length_stripRound_le c rest).trans (Nat.le_of_succ_le_succ ht)
  obtain ⟨k, rfl⟩ := Nat.exists_eq_add_of_le hfuel
  exact hmore s.length k s (Nat.le_refl _)

theorem stripAnsi_nil : stripAnsi [] = [] := rfl

theorem stripAnsi_cons (c : UInt8) (rest : Bytes) :
    stripAnsi (c :: rest) = (stripRound c rest).1 ++ stripAnsi (stripRound c rest).2 := by
  rw [stripAnsi, List.length_cons, stripLoop, stripLoop_eq (length_stripRound_le c rest)]

/-- A plain byte is kept. -/
theorem stripAnsi_plain {c : UInt8} (hc : c ≠ esc) (rest : Bytes) :
    stripAnsi (c :: rest) = c :: stripAnsi rest := by
  rw [stripAnsi_cons]
  cases rest with
  | nil => rfl
  | cons next rest =>
    rw [stripRound, if_neg hc]
    rfl

theorem stripAnsi_csi (rest : Bytes) : stripAnsi (esc :: 0x5B :: rest) = stripAnsi (skipCsi rest) :=
  stripAnsi_cons esc (0x5B :: rest)

theorem stripAnsi_osc (rest : Bytes) : stripAnsi (esc :: 0x5D :: rest) = stripAnsi (skipOsc rest) :=
  stripAnsi_cons esc (0x5D :: rest)

theorem stripAnsi_other {next : UInt8} (hcsi : next ≠ 0x5B) (hosc : next ≠ 0x5D) (rest : Bytes) :
    stripAnsi (esc :: next :: rest) = stripAnsi rest := by
  rw [stripAnsi_cons, stripRound, if_pos rfl, if_neg hcsi, if_neg hosc]
  rfl

/-- The guard on `i + 1` lets the last byte pass, also where it is an escape. -/
theorem stripAnsi_lone : stripAnsi [esc] = [esc] := rfl

/-! ## The sequences of a text -/

/-- Inside an OSC sequence that has not ended. -/
structure Open (title : Bytes) : Prop where
  bel : (0x07 : UInt8) ∉ title
  st : ¬ [esc, 0x5C] <:+: title

/-- An escape sequence with its end. -/
inductive Complete : Bytes → Prop
  | csi {params : Bytes} {final : UInt8} (hparams : ∀ c ∈ params, isFinal c = false)
      (hfinal : isFinal final) : Complete (esc :: 0x5B :: (params ++ [final]))
  | bel {title : Bytes} (htitle : Open title) : Complete (esc :: 0x5D :: (title ++ [0x07]))
  | st {title : Bytes} (htitle : Open title) : Complete (esc :: 0x5D :: (title ++ [esc, 0x5C]))
  | other {next : UInt8} (hcsi : next ≠ 0x5B) (hosc : next ≠ 0x5D) : Complete [esc, next]

/-- An escape sequence that the text ends in. -/
inductive Unterminated : Bytes → Prop
  | lone : Unterminated [esc]
  | csi {params : Bytes} (hparams : ∀ c ∈ params, isFinal c = false) :
      Unterminated (esc :: 0x5B :: params)
  | osc {title : Bytes} (htitle : Open title) : Unterminated (esc :: 0x5D :: title)

/-- Plain bytes and complete sequences, and the plain bytes alone. -/
inductive Pieces : Bytes → Bytes → Prop
  | nil : Pieces [] []
  | plain {c : UInt8} {s out : Bytes} (hc : c ≠ esc) (hs : Pieces s out) :
      Pieces (c :: s) (c :: out)
  | sequence {q s out : Bytes} (hq : Complete q) (hs : Pieces s out) : Pieces (q ++ s) out

/-- What is left of a text when exactly its escape sequences are removed. -/
def Stripped (s out : Bytes) : Prop :=
  ∃ t q, s = t ++ q ∧ Pieces t out ∧ (q = [] ∨ Unterminated q)

theorem skipCsi_append {params : Bytes} {final : UInt8} (hparams : ∀ c ∈ params, isFinal c = false)
    (hfinal : isFinal final) (rest : Bytes) : skipCsi (params ++ final :: rest) = rest := by
  induction params with
  | nil => rw [List.nil_append, skipCsi, if_pos hfinal]
  | cons c params ih =>
    have hc : isFinal c = false := hparams c List.mem_cons_self
    rw [List.cons_append, skipCsi, hc, if_neg Bool.false_ne_true,
      ih fun d hd => hparams d (List.mem_cons_of_mem c hd)]

theorem skipCsi_eq_nil {params : Bytes} (hparams : ∀ c ∈ params, isFinal c = false) :
    skipCsi params = [] := by
  induction params with
  | nil => rfl
  | cons c params ih =>
    have hc : isFinal c = false := hparams c List.mem_cons_self
    rw [skipCsi, hc, if_neg Bool.false_ne_true,
      ih fun d hd => hparams d (List.mem_cons_of_mem c hd)]

theorem Open.of_cons {c : UInt8} {title : Bytes} (h : Open (c :: title)) : Open title :=
  ⟨fun hbel => h.bel (List.mem_cons_of_mem c hbel),
    fun hst => h.st (hst.trans (List.suffix_cons c title).isInfix)⟩

theorem Open.ne_bel {c : UInt8} {title : Bytes} (h : Open (c :: title)) : c ≠ 0x07 := by
  rintro rfl
  exact h.bel List.mem_cons_self

/-- The title does not end here, neither in itself nor with a byte behind it that is no
backslash. -/
theorem Open.not_st {c : UInt8} {title : Bytes} (h : Open (c :: title)) {rest : Bytes}
    (hrest : rest.head? ≠ some 0x5C) : ¬ (c = esc ∧ (title ++ rest).head? = some 0x5C) := by
  rintro ⟨rfl, hhead⟩
  cases title with
  | nil => exact hrest hhead
  | cons d title =>
    obtain rfl : d = 0x5C := Option.some.inj hhead
    exact h.st ⟨[], title, rfl⟩

theorem skipOsc_append {title : Bytes} (htitle : Open title) {rest : Bytes}
    (hrest : rest.head? ≠ some 0x5C) : skipOsc (title ++ rest) = skipOsc rest := by
  induction title with
  | nil => rfl
  | cons c title ih =>
    rw [List.cons_append, skipOsc, if_neg htitle.ne_bel, if_neg (htitle.not_st hrest),
      ih htitle.of_cons]

theorem skipOsc_bel {title : Bytes} (htitle : Open title) (rest : Bytes) :
    skipOsc (title ++ 0x07 :: rest) = rest :=
  skipOsc_append htitle (by decide : some (0x07 : UInt8) ≠ some 0x5C)

theorem skipOsc_st {title : Bytes} (htitle : Open title) (rest : Bytes) :
    skipOsc (title ++ esc :: 0x5C :: rest) = rest :=
  skipOsc_append htitle (by decide : some esc ≠ some 0x5C)

theorem skipOsc_eq_nil {title : Bytes} (htitle : Open title) : skipOsc title = [] := by
  have h : skipOsc (title ++ []) = skipOsc [] := skipOsc_append htitle (by decide)
  rwa [List.append_nil] at h

/-- A complete sequence is removed, and no byte behind it. -/
theorem Complete.stripAnsi_append {q : Bytes} (hq : Complete q) (rest : Bytes) :
    stripAnsi (q ++ rest) = stripAnsi rest := by
  cases hq with
  | @csi params final hparams hfinal =>
    rw [List.cons_append, List.cons_append, List.append_assoc, stripAnsi_csi]
    exact congrArg stripAnsi (skipCsi_append hparams hfinal rest)
  | @bel title htitle =>
    rw [List.cons_append, List.cons_append, List.append_assoc, stripAnsi_osc]
    exact congrArg stripAnsi (skipOsc_bel htitle rest)
  | @st title htitle =>
    rw [List.cons_append, List.cons_append, List.append_assoc, stripAnsi_osc]
    exact congrArg stripAnsi (skipOsc_st htitle rest)
  | other hcsi hosc => exact stripAnsi_other hcsi hosc rest

/-- **The code reads whole pieces as they stand**, whatever comes behind them. -/
theorem stripAnsi_append {t out : Bytes} (ht : Pieces t out) (rest : Bytes) :
    stripAnsi (t ++ rest) = out ++ stripAnsi rest := by
  induction ht with
  | nil => rfl
  | plain hc _ ih => rw [List.cons_append, stripAnsi_plain hc, ih, List.cons_append]
  | sequence hq _ ih => rw [List.append_assoc, hq.stripAnsi_append, ih]

theorem stripAnsi_unterminated {q : Bytes} (hq : Unterminated q) (hlone : q ≠ [esc]) :
    stripAnsi q = [] := by
  cases hq with
  | lone => exact absurd rfl hlone
  | csi hparams =>
    rw [stripAnsi_csi, skipCsi_eq_nil hparams]
    rfl
  | osc htitle =>
    rw [stripAnsi_osc, skipOsc_eq_nil htitle]
    rfl

/-! ## Every text has its pieces -/

/-- The parameters end in a final byte, or they are all that is left. -/
theorem exists_final (s : Bytes) : (∀ c ∈ s, isFinal c = false) ∨
    ∃ params final rest, s = params ++ final :: rest ∧ (∀ c ∈ params, isFinal c = false) ∧
      isFinal final := by
  induction s with
  | nil => exact Or.inl fun c hc => absurd hc List.not_mem_nil
  | cons c s ih =>
    cases hc : isFinal c with
    | true => exact Or.inr ⟨[], c, s, rfl, fun d hd => absurd hd List.not_mem_nil, hc⟩
    | false =>
      rcases ih with hnone | ⟨params, final, rest, rfl, hparams, hfinal⟩
      · exact Or.inl (List.forall_mem_cons.mpr ⟨hc, hnone⟩)
      · exact Or.inr ⟨c :: params, final, rest, rfl, List.forall_mem_cons.mpr ⟨hc, hparams⟩, hfinal⟩

theorem Open.nil : Open [] :=
  ⟨List.not_mem_nil, fun h => absurd (List.infix_nil.mp h) (List.cons_ne_nil _ _)⟩

/-- One more byte inside a title. -/
theorem Open.cons {c : UInt8} {title : Bytes} (h : Open title) (hbel : c ≠ 0x07)
    (hst : ¬ (c = esc ∧ title.head? = some 0x5C)) : Open (c :: title) := by
  refine ⟨List.not_mem_cons_of_ne_of_not_mem hbel.symm h.bel, fun hinfix => ?_⟩
  rcases List.infix_cons_iff.mp hinfix with hprefix | hinfix
  · obtain ⟨more, hmore⟩ := hprefix
    obtain ⟨rfl, rfl⟩ := List.cons.inj hmore
    exact hst ⟨rfl, rfl⟩
  · exact h.st hinfix

/-- The title ends in a BEL or in `ESC \`, or it is all that is left. -/
theorem exists_end (s : Bytes) : Open s ∨
    ∃ title rest, Open title ∧ (s = title ++ 0x07 :: rest ∨ s = title ++ esc :: 0x5C :: rest) := by
  induction s with
  | nil => exact Or.inl Open.nil
  | cons c s ih =>
    by_cases hbel : c = 0x07
    · exact Or.inr ⟨[], s, Open.nil, Or.inl (by rw [hbel, List.nil_append])⟩
    by_cases hst : c = esc ∧ s.head? = some 0x5C
    · obtain ⟨rfl, hhead⟩ := hst
      obtain ⟨rest, rfl⟩ := List.head?_eq_some_iff.mp hhead
      exact Or.inr ⟨[], rest, Open.nil, Or.inr rfl⟩
    rcases ih with hopen | ⟨title, rest, htitle, hs⟩
    · exact Or.inl (hopen.cons hbel hst)
    · -- The end of the title is behind this byte: with it the title stays open.
      have hst' : ¬ (c = esc ∧ title.head? = some 0x5C) := by
        rintro ⟨rfl, hhead⟩
        obtain ⟨more, rfl⟩ := List.head?_eq_some_iff.mp hhead
        rcases hs with rfl | rfl <;> exact hst ⟨rfl, rfl⟩
      refine Or.inr ⟨c :: title, rest, htitle.cons hbel hst', ?_⟩
      rcases hs with rfl | rfl
      · exact Or.inl rfl
      · exact Or.inr rfl

/-- The first piece of a text that begins with an escape. -/
theorem exists_sequence (rest : Bytes) :
    Unterminated (esc :: rest) ∨
      ∃ q s, esc :: rest = q ++ s ∧ Complete q ∧ s.length ≤ rest.length := by
  cases rest with
  | nil => exact Or.inl Unterminated.lone
  | cons next rest =>
    by_cases hcsi : next = 0x5B
    · subst hcsi
      rcases exists_final rest with hnone | ⟨params, final, s, rfl, hparams, hfinal⟩
      · exact Or.inl (Unterminated.csi hnone)
      · refine Or.inr ⟨_, s, ?_, Complete.csi hparams hfinal, ?_⟩
        · simp
        · simp only [List.length_cons, List.length_append]
          omega
    by_cases hosc : next = 0x5D
    · subst hosc
      rcases exists_end rest with hopen | ⟨title, s, htitle, rfl | rfl⟩
      · exact Or.inl (Unterminated.osc hopen)
      · refine Or.inr ⟨_, s, ?_, Complete.bel htitle, ?_⟩
        · simp
        · simp only [List.length_cons, List.length_append]
          omega
      · refine Or.inr ⟨_, s, ?_, Complete.st htitle, ?_⟩
        · simp
        · simp only [List.length_cons, List.length_append]
          omega
    · exact Or.inr ⟨[esc, next], rest, rfl, Complete.other hcsi hosc, Nat.le_succ _⟩

/-- **Every text is whole pieces, with at most one sequence that is cut off behind them.** -/
theorem exists_stripped (s : Bytes) : ∃ out, Stripped s out := by
  induction hn : s.length using Nat.strong_induction_on generalizing s with
  | _ n ih =>
    subst hn
    cases s with
    | nil => exact ⟨[], [], [], rfl, Pieces.nil, Or.inl rfl⟩
    | cons c rest =>
      by_cases hc : c = esc
      · subst hc
        rcases exists_sequence rest with hcut | ⟨q, s, hs, hq, hlen⟩
        · exact ⟨[], [], esc :: rest, rfl, Pieces.nil, Or.inr hcut⟩
        · obtain ⟨out, t, cut, rfl, ht, hcut⟩ := ih s.length (Nat.lt_succ_of_le hlen) s rfl
          exact ⟨out, q ++ t, cut, by rw [hs, List.append_assoc], Pieces.sequence hq ht, hcut⟩
      · obtain ⟨out, t, cut, rfl, ht, hcut⟩ := ih rest.length (Nat.lt_succ_self _) rest rfl
        exact ⟨c :: out, c :: t, cut, rfl, Pieces.plain hc ht, hcut⟩

/-! ## What is left -/

theorem Pieces.esc_notMem {t out : Bytes} (ht : Pieces t out) : esc ∉ out := by
  induction ht with
  | nil => exact List.not_mem_nil
  | plain hc _ ih => exact List.not_mem_cons_of_ne_of_not_mem hc.symm ih
  | sequence _ _ ih => exact ih

/-- Nothing is removed from a text without an escape. -/
theorem stripAnsi_of_notMem {s : Bytes} (hs : esc ∉ s) : stripAnsi s = s := by
  induction s with
  | nil => rfl
  | cons c s ih =>
    have hc : esc ≠ c := List.ne_of_not_mem_cons hs
    rw [stripAnsi_plain hc.symm, ih (List.not_mem_of_not_mem_cons hs)]

/-- What has to be left is what the code leaves, where no lone escape ends the text. -/
theorem Stripped.eq {s out : Bytes} (h : Stripped s out)
    (hlone : ¬ ∃ t plain, Pieces t plain ∧ s = t ++ [esc]) : stripAnsi s = out := by
  obtain ⟨t, q, rfl, ht, hq⟩ := h
  rw [stripAnsi_append ht]
  have hnil : stripAnsi q = [] := by
    rcases hq with rfl | hq
    · rfl
    · refine stripAnsi_unterminated hq ?_
      rintro rfl
      exact hlone ⟨t, out, ht, rfl⟩
  rw [hnil, List.append_nil]

/-- **Stripping is complete exactly if the text does not end in a lone escape behind whole
pieces.** -/
theorem stripAnsi_complete_iff (s : Bytes) :
    (esc ∉ stripAnsi s ∧ stripAnsi (stripAnsi s) = stripAnsi s ∧ Stripped s (stripAnsi s)) ↔
      ¬ ∃ t plain, Pieces t plain ∧ s = t ++ [esc] := by
  constructor
  · rintro ⟨hesc, -, -⟩ ⟨t, plain, ht, rfl⟩
    rw [stripAnsi_append ht, stripAnsi_lone] at hesc
    exact hesc (List.mem_append_right plain (List.mem_singleton_self esc))
  · intro hlone
    obtain ⟨out, hout⟩ := exists_stripped s
    have heq : stripAnsi s = out := hout.eq hlone
    have hesc : esc ∉ out := by
      obtain ⟨t, q, -, ht, -⟩ := hout
      exact ht.esc_notMem
    rw [heq]
    exact ⟨hesc, stripAnsi_of_notMem hesc, hout⟩

/-- A lone escape is kept. -/
theorem stripAnsi_lone_kept : ¬ (esc ∉ stripAnsi [esc] ∧
    stripAnsi (stripAnsi [esc]) = stripAnsi [esc] ∧ Stripped [esc] (stripAnsi [esc])) := by
  rintro ⟨hesc, -, -⟩
  exact hesc (List.mem_singleton_self esc)

end Ansi
end Tui
end TigerClaw
