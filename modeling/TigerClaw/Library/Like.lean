import Mathlib.Data.List.Infix

/-!
# Patterns with wildcards, and the bytes of a text

`LIKE`: a percent sign stands for any characters, an underscore for any one, and every other
character for itself, up to the case of ASCII letters.  Texts are kept in UTF-8.

* `likeMatch`: a pattern against a text.
* `Plain`: no wildcards.  `likeMatch_contains`: a plain text between two percent signs is looked for
  anywhere.
* `filled`: a text that a pattern with wildcards matches, and that does not contain it.
* `encode`, `decode`: the bytes of a text.  `foldCase`: letters in lower case, byte by byte.
* `infix_foldCase_iff`: a text is contained in another one if its bytes are.
-/

namespace Like

/-- `%` and `_` as `LIKE` takes them, with no escapes. -/
def likeMatch : List Char → List Char → Bool
  | [], s => s.isEmpty
  | p :: ps, s =>
    if p = '%' then s.tails.any fun rest => likeMatch ps rest
    else
      match s with
      | [] => false
      | c :: cs => (p = '_' || p.toLower = c.toLower) && likeMatch ps cs

/-- No wildcards. -/
def Plain (text : List Char) : Prop := '%' ∉ text ∧ '_' ∉ text

instance decidablePlain (text : List Char) : Decidable (Plain text) :=
  inferInstanceAs (Decidable (_ ∧ _))

theorem likeMatch_percent {ps s : List Char} :
    likeMatch ('%' :: ps) s = true ↔ ∃ rest, rest <:+ s ∧ likeMatch ps rest = true := by
  simp [likeMatch]

theorem likeMatch_cons_of_ne {p : Char} (hp : p ≠ '%') {ps s : List Char} :
    likeMatch (p :: ps) s = true ↔
      ∃ c cs, s = c :: cs ∧ (p = '_' ∨ p.toLower = c.toLower) ∧ likeMatch ps cs = true := by
  cases s with
  | nil => simp [likeMatch, hp]
  | cons c cs => simp [likeMatch, hp]

/-- Behind a plain text, a percent sign takes the rest. -/
theorem likeMatch_front {text s : List Char} (h : Plain text) :
    likeMatch (text ++ ['%']) s = true ↔ text.map Char.toLower <+: s.map Char.toLower := by
  induction text generalizing s with
  | nil =>
    refine iff_of_true (likeMatch_percent.mpr ⟨[], List.nil_suffix, rfl⟩) ?_
    exact List.nil_prefix
  | cons p ps ih =>
    obtain ⟨hpercent, hone⟩ := h
    rw [List.mem_cons, not_or] at hpercent hone
    rw [List.cons_append, likeMatch_cons_of_ne (Ne.symm hpercent.1)]
    constructor
    · rintro ⟨c, cs, rfl, hc, hcs⟩
      have hsame : p.toLower = c.toLower := hc.resolve_left (Ne.symm hone.1)
      rw [List.map_cons, List.map_cons, List.cons_prefix_cons]
      exact ⟨hsame, (ih ⟨hpercent.2, hone.2⟩).mp hcs⟩
    · intro hprefix
      cases s with
      | nil => exact absurd (List.prefix_nil.mp hprefix) (List.cons_ne_nil _ _)
      | cons c cs =>
        rw [List.map_cons, List.map_cons, List.cons_prefix_cons] at hprefix
        exact ⟨c, cs, rfl, .inr hprefix.1, (ih ⟨hpercent.2, hone.2⟩).mpr hprefix.2⟩

/-- **A plain text between two percent signs** is looked for anywhere. -/
theorem likeMatch_contains {text s : List Char} (h : Plain text) :
    likeMatch ('%' :: text ++ ['%']) s = true ↔
      text.map Char.toLower <:+: s.map Char.toLower := by
  rw [List.cons_append, likeMatch_percent]
  constructor
  · rintro ⟨rest, hrest, hmatch⟩
    exact ((likeMatch_front h).mp hmatch).isInfix.trans (hrest.map _).isInfix
  · rintro ⟨u, v, huv⟩
    rw [List.append_assoc] at huv
    obtain ⟨front, rest, rfl, -, hrest⟩ := List.map_eq_append_iff.mp huv.symm
    exact ⟨rest, List.suffix_append front rest, (likeMatch_front h).mpr ⟨v, hrest.symm⟩⟩

/-! ## Wildcards -/

/-- A text with its percent signs left out, and with another character for its underscores. -/
def filled (text : List Char) : List Char :=
  text.filterMap fun c => if c = '%' then none else if c = '_' then some 'x' else some c

theorem likeMatch_filled_append (text : List Char) :
    likeMatch (text ++ ['%']) (filled text) = true := by
  induction text with
  | nil => exact likeMatch_percent.mpr ⟨[], List.nil_suffix, rfl⟩
  | cons p ps ih =>
    by_cases hp : p = '%'
    · subst hp
      exact likeMatch_percent.mpr ⟨filled ps, List.suffix_refl _, ih⟩
    · rw [List.cons_append, likeMatch_cons_of_ne hp]
      by_cases hone : p = '_'
      · subst hone
        exact ⟨'x', filled ps, rfl, .inl rfl, ih⟩
      · refine ⟨p, filled ps, ?_, .inr rfl, ih⟩
        rw [filled, List.filterMap_cons, if_neg hp, if_neg hone]
        rfl

theorem likeMatch_filled (text : List Char) :
    likeMatch ('%' :: text ++ ['%']) (filled text) = true :=
  likeMatch_percent.mpr ⟨filled text, List.suffix_refl _, likeMatch_filled_append text⟩

theorem plain_filled (text : List Char) : Plain (filled text) := by
  have hmem : ∀ c ∈ filled text, c ≠ '%' ∧ c ≠ '_' := by
    intro c hc
    obtain ⟨p, -, hp⟩ := List.mem_filterMap.mp hc
    split_ifs at hp with hpercent hone
    · obtain rfl := Option.some.inj hp
      decide
    · obtain rfl := Option.some.inj hp
      exact ⟨hpercent, hone⟩
  exact ⟨fun h => (hmem _ h).1 rfl, fun h => (hmem _ h).2 rfl⟩

/-- A character between the letters has no other case. -/
theorem toLower_eq_wildcard {c w : Char} (hw : w = '%' ∨ w = '_') (h : c.toLower = w) :
    c = w := by
  unfold Char.toLower at h
  split at h
  · rename_i hupper
    obtain ⟨hlo, hhi⟩ := hupper
    have hval := congrArg (fun d : Char => d.val.toNat) h
    rw [ge_iff_le, UInt32.le_iff_toNat_le] at hlo
    rw [UInt32.le_iff_toNat_le] at hhi
    rcases hw with rfl | rfl
    · simp at hval hlo hhi
      omega
    · simp at hval hlo hhi
      omega
  · exact h

/-- **What a pattern with wildcards matches** need not contain it. -/
theorem not_infix_filled {text : List Char} (h : ¬ Plain text) :
    ¬ text.map Char.toLower <:+: (filled text).map Char.toLower := by
  intro hinfix
  obtain ⟨hpercent, hone⟩ := plain_filled text
  have habsent : ∀ w : Char, w = '%' ∨ w = '_' → w ∈ text → False := by
    intro w hw hmem
    have hlower : w.toLower = w := by rcases hw with rfl | rfl <;> rfl
    have hfound := hinfix.subset (List.mem_map_of_mem hmem)
    obtain ⟨c, hc, hcw⟩ := List.mem_map.mp hfound
    rw [hlower] at hcw
    obtain rfl := toLower_eq_wildcard hw hcw
    rcases hw with rfl | rfl
    · exact hpercent hc
    · exact hone hc
  exact h ⟨habsent '%' (.inl rfl), habsent '_' (.inr rfl)⟩

/-! ## Bytes -/

/-- The bytes of a text. -/
def encode (text : List Char) : List UInt8 := text.flatMap String.utf8EncodeChar

/-- The characters of a text. -/
def decode (bytes : List UInt8) : Option (List Char) :=
  bytes.toByteArray.utf8Decode?.map Array.toList

/-- The letters in lower case. -/
def foldCase (b : UInt8) : UInt8 := if 65 ≤ b ∧ b ≤ 90 then b + 32 else b

theorem encode_cons (c : Char) (cs : List Char) :
    encode (c :: cs) = String.utf8EncodeChar c ++ encode cs := List.flatMap_cons

theorem decode_encode (text : List Char) : decode (encode text) = some text := by
  have hbytes : (encode text).toByteArray = text.utf8Encode := rfl
  rw [decode, hbytes, List.utf8Decode?_utf8Encode]
  rfl

theorem encode_append (a b : List Char) : encode (a ++ b) = encode a ++ encode b :=
  List.flatMap_append

theorem prefix_of_encode {a b : List Char} (h : encode a <+: encode b) : a <+: b := by
  obtain ⟨rest, hrest⟩ := h
  refine List.isPrefix_of_utf8Encode_append_eq_utf8Encode rest.toByteArray ?_
  rw [List.utf8Encode, List.utf8Encode, ← List.toByteArray_append]
  exact congrArg List.toByteArray hrest

/-- A byte that begins a character is not inside another one. -/
theorem eq_nil_of_encodeChar_eq {c d : Char} {u rest more : List UInt8} (hrest : rest ≠ [])
    (hd : String.utf8EncodeChar d = u ++ rest)
    (hc : String.utf8EncodeChar c <+: rest ++ more) : u = [] := by
  obtain ⟨b, bs, hbytes⟩ := List.exists_cons_of_ne_nil (@String.utf8EncodeChar_ne_nil c)
  obtain ⟨r, rs, rfl⟩ := List.exists_cons_of_ne_nil hrest
  rw [hbytes, List.cons_append, List.cons_prefix_cons] at hc
  obtain ⟨rfl, -⟩ := hc
  have hfirst : b.IsUTF8FirstByte := by
    have h0 := @UInt8.isUTF8FirstByte_getElem_utf8EncodeChar c 0 (by simp [hbytes])
    simpa [hbytes] using h0
  have hlt : u.length < (String.utf8EncodeChar d).length := by simp [hd]
  have hinside := @UInt8.isUTF8FirstByte_getElem_utf8EncodeChar d u.length hlt
  have hbyte : (String.utf8EncodeChar d)[u.length] = b := by simp [hd]
  rw [hbyte] at hinside
  exact List.eq_nil_of_length_eq_zero (hinside.mp hfirst)

/-- **A text is contained where its bytes are.** -/
theorem infix_of_encode {a b : List Char} (h : encode a <:+: encode b) : a <:+: b := by
  cases a with
  | nil => exact List.nil_infix
  | cons c cs =>
    obtain ⟨u, v, huv⟩ := h
    rw [List.append_assoc] at huv
    induction b generalizing u with
    | nil =>
      rw [encode_cons] at huv
      have hnil := List.append_eq_nil_iff.mp (List.append_eq_nil_iff.mp huv).2
      exact absurd (List.append_eq_nil_iff.mp hnil.1).1 String.utf8EncodeChar_ne_nil
    | cons d ds ih =>
      rw [encode_cons d] at huv
      obtain ⟨rest, hd, hrest⟩ | ⟨u', rfl, hds⟩ := List.append_eq_append_iff.mp huv
      · by_cases hnil : rest = []
        · subst hnil
          exact (ih [] hrest).trans (List.suffix_cons d ds).isInfix
        · have hprefix : String.utf8EncodeChar c <+: rest ++ encode ds := by
            rw [← hrest, encode_cons, List.append_assoc]
            exact List.prefix_append _ _
          obtain rfl := eq_nil_of_encodeChar_eq hnil hd hprefix
          refine (prefix_of_encode ⟨v, ?_⟩).isInfix
          rw [hrest, encode_cons, hd, List.nil_append]
      · exact (ih u' hds.symm).trans (List.suffix_cons d ds).isInfix

theorem foldCase_ofNat {n : ℕ} (h : 128 ≤ n % 256) : foldCase (UInt8.ofNat n) = UInt8.ofNat n := by
  refine if_neg fun hletter => ?_
  have hle := UInt8.le_iff_toNat_le.mp hletter.2
  rw [UInt8.toNat_ofNat'] at hle
  exact absurd (h.trans hle) (by decide)

/-- Only the bytes of ASCII letters are letters. -/
theorem map_foldCase_encodeChar (c : Char) :
    (String.utf8EncodeChar c).map foldCase = String.utf8EncodeChar c.toLower := by
  by_cases hascii : c.val.toNat ≤ 0x7f
  · have hall : ∀ n < 128, (String.utf8EncodeChar (Char.ofNat n)).map foldCase =
        String.utf8EncodeChar (Char.ofNat n).toLower := by decide
    have hc := hall c.toNat (Nat.lt_succ_of_le hascii)
    rwa [Char.ofNat_toNat] at hc
  · have hlower : c.toLower = c := by
      unfold Char.toLower
      rw [dif_neg]
      rintro ⟨-, hhi⟩
      have hhi := UInt32.le_iff_toNat_le.mp hhi
      exact hascii (hhi.trans (by decide))
    rw [hlower]
    unfold String.utf8EncodeChar
    simp only
    rw [if_neg hascii]
    split_ifs
    · rw [List.map_cons, List.map_cons, List.map_nil, foldCase_ofNat (by omega),
        foldCase_ofNat (by omega)]
    · rw [List.map_cons, List.map_cons, List.map_cons, List.map_nil, foldCase_ofNat (by omega),
        foldCase_ofNat (by omega), foldCase_ofNat (by omega)]
    · rw [List.map_cons, List.map_cons, List.map_cons, List.map_cons, List.map_nil,
        foldCase_ofNat (by omega), foldCase_ofNat (by omega), foldCase_ofNat (by omega),
        foldCase_ofNat (by omega)]

/-- The letters of a text in lower case, byte by byte or character by character. -/
theorem map_foldCase_encode (text : List Char) :
    (encode text).map foldCase = encode (text.map Char.toLower) := by
  induction text with
  | nil => rfl
  | cons c cs ih =>
    rw [encode_cons, List.map_append, ih, map_foldCase_encodeChar, List.map_cons, encode_cons]

/-- **A text is contained in another one, up to the case of letters, where its bytes are.** -/
theorem infix_foldCase_iff {a b : List Char} :
    (encode a).map foldCase <:+: (encode b).map foldCase ↔
      a.map Char.toLower <:+: b.map Char.toLower := by
  rw [map_foldCase_encode, map_foldCase_encode]
  constructor
  · exact infix_of_encode
  · rintro ⟨u, v, huv⟩
    rw [← huv, encode_append, encode_append]
    exact List.infix_append _ _ _

end Like
