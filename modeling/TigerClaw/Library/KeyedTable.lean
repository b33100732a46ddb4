import Mathlib.Data.List.Nodup
import Mathlib.Data.List.Perm.Basic

/-!
# Unordered tables with a key

A table kept in an array without order: the entry to go is overwritten by the last one, and the
array is cut by one.  `List.swapRemove` is that operation.

* `swapRemove_perm`: up to order it erases the first match and nothing else.
* `find?_key_eq_some`, `mem_swapRemove_key`: with distinct keys, lookup and removal by key are
  what they should be, whatever order earlier removals have left.
-/

namespace List

universe u v

variable {α : Type u} {κ : Type v}

/-- Take the first entry of `p` out; the last entry moves into its place. -/
def swapRemove (p : α → Bool) (l : List α) : List α :=
  match l.findIdx? p, l.getLast? with
  | some i, some last => (l.set i last).dropLast
  | _, _ => l

theorem swapRemove_of_forall_not {p : α → Bool} {l : List α} (h : ∀ a ∈ l, p a = false) :
    swapRemove p l = l := by
  have hnone : l.findIdx? p = none := List.findIdx?_eq_none_iff.mpr h
  rw [swapRemove, hnone]

theorem swapRemove_split {p : α → Bool} {l₁ l₂ : List α} {a z : α}
    (h : ∀ b ∈ l₁, p b = false) (ha : p a = true) :
    swapRemove p (l₁ ++ a :: (l₂ ++ [z])) = l₁ ++ z :: l₂ := by
  have hidx : (l₁ ++ a :: (l₂ ++ [z])).findIdx? p = some l₁.length := by
    rw [List.findIdx?_append, List.findIdx?_eq_none_iff.mpr h, List.findIdx?_cons, if_pos ha]
    simp
  have hlast : (l₁ ++ a :: (l₂ ++ [z])).getLast? = some z := by
    rw [← List.cons_append, ← List.append_assoc, List.getLast?_concat]
  have hset : (l₁ ++ a :: (l₂ ++ [z])).set l₁.length z = l₁ ++ z :: l₂ ++ [z] := by simp
  simp only [swapRemove, hidx, hlast, hset, List.dropLast_concat]

theorem swapRemove_split_last {p : α → Bool} {l₁ : List α} {a : α}
    (h : ∀ b ∈ l₁, p b = false) (ha : p a = true) : swapRemove p (l₁ ++ [a]) = l₁ := by
  have hidx : (l₁ ++ [a]).findIdx? p = some l₁.length := by
    rw [List.findIdx?_append, List.findIdx?_eq_none_iff.mpr h, List.findIdx?_cons, if_pos ha]
    simp
  have hset : (l₁ ++ [a]).set l₁.length a = l₁ ++ [a] := by simp
  simp only [swapRemove, hidx, List.getLast?_concat, hset, List.dropLast_concat]

/-- **Up to order, the first match is erased and nothing else.** -/
theorem swapRemove_perm (p : α → Bool) (l : List α) : (swapRemove p l).Perm (l.eraseP p) := by
  by_cases hmem : ∃ a ∈ l, p a = true
  · obtain ⟨a, ha, hp⟩ := hmem
    obtain ⟨b, l₁, l₂, hnot, hb, hsplit, herase⟩ := List.exists_of_eraseP ha hp
    have hfalse : ∀ c ∈ l₁, p c = false := fun c hc => by simpa using hnot c hc
    rw [herase, hsplit]
    rcases List.eq_nil_or_concat l₂ with rfl | ⟨l₃, z, rfl⟩
    · rw [swapRemove_split_last hfalse hb, List.append_nil]
    · rw [List.concat_eq_append, swapRemove_split hfalse hb]
      exact (List.perm_append_left_iff l₁).mpr (List.perm_append_singleton z l₃).symm
  · have hfalse : ∀ a ∈ l, p a = false := fun a ha => by
      simpa using fun hp => hmem ⟨a, ha, hp⟩
    rw [swapRemove_of_forall_not hfalse, List.eraseP_of_forall_not (by simpa using hfalse)]

theorem length_swapRemove_le (p : α → Bool) (l : List α) : (swapRemove p l).length ≤ l.length :=
  (swapRemove_perm p l).length_eq ▸ (List.eraseP_sublist).length_le

variable [DecidableEq κ] {key : α → κ} {l : List α}

/-- With distinct keys, the lookup finds whatever stands in the table under the key. -/
theorem find?_key_eq_some (h : (l.map key).Nodup) {k : κ} {a : α} :
    l.find? (fun b => key b == k) = some a ↔ a ∈ l ∧ key a = k := by
  constructor
  · intro hfind
    exact ⟨List.mem_of_find?_eq_some hfind, by simpa using List.find?_some hfind⟩
  · rintro ⟨hmem, hkey⟩
    cases hfind : l.find? (fun b => key b == k) with
    | none => simpa [hkey] using List.find?_eq_none.mp hfind a hmem
    | some b =>
      have hb : key b = k := by simpa using List.find?_some hfind
      exact congrArg some
        (List.inj_on_of_nodup_map h (List.mem_of_find?_eq_some hfind) hmem (hb.trans hkey.symm))

omit [DecidableEq κ] in
theorem nodup_map_swapRemove (h : (l.map key).Nodup) (p : α → Bool) :
    ((swapRemove p l).map key).Nodup :=
  ((swapRemove_perm p l).map key).nodup_iff.mpr (h.sublist (List.eraseP_sublist.map key))

/-- With distinct keys, the removal takes out what stands under the key and nothing else. -/
theorem mem_swapRemove_key (h : (l.map key).Nodup) {k : κ} {a : α} :
    a ∈ swapRemove (fun b => key b == k) l ↔ a ∈ l ∧ key a ≠ k := by
  rw [(swapRemove_perm _ l).mem_iff]
  induction l with
  | nil => simp
  | cons b bs ih =>
    obtain ⟨hnot, hnodup⟩ := List.nodup_cons.mp h
    rw [List.eraseP_cons]
    by_cases hb : key b = k
    · have hne : ∀ c ∈ bs, key c ≠ k := fun c hc hck =>
        hnot (hb.trans hck.symm ▸ List.mem_map_of_mem hc)
      rw [show (key b == k) = true by simpa using hb, cond_true, List.mem_cons]
      constructor
      · exact fun ha => ⟨.inr ha, hne a ha⟩
      · rintro ⟨rfl | ha, hak⟩
        · exact absurd hb hak
        · exact ha
    · rw [show (key b == k) = false by simpa using hb, cond_false, List.mem_cons, ih hnodup,
        List.mem_cons]
      constructor
      · rintro (rfl | ⟨ha, hak⟩)
        · exact ⟨.inl rfl, hb⟩
        · exact ⟨.inr ha, hak⟩
      · rintro ⟨rfl | ha, hak⟩
        · exact .inl rfl
        · exact .inr ⟨ha, hak⟩

end List
