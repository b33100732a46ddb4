import Mathlib.Data.List.Basic

/-!
# Windows of a log

A log has a reading for each entry.  A window is a stretch of it at one reading; `Limited` bounds
how many entries of a kind a window can have.

* `limited_concat_iff`: one more entry keeps the bound exactly if it is not of the kind, or the
  windows that end in front of it have room.
-/

namespace Windows

variable {α κ : Type*} (key : α → κ) (p : α → Bool) (n : ℕ)

/-- All entries are at this reading. -/
def At (t : κ) (window : List α) : Prop := ∀ a ∈ window, key a = t

/-- No window has more than `n` entries of the kind. -/
def Limited (l : List α) : Prop :=
  ∀ t window, window <:+: l → At key t window → window.countP p ≤ n

/-- The windows at the end of the log have room for one more. -/
def Room (l : List α) (t : κ) : Prop :=
  ∀ window, window <:+ l → At key t window → window.countP p < n

variable {key p n} {l : List α} {a : α}

theorem limited_nil : Limited key p n [] := by
  intro t window hwindow _
  obtain rfl := List.eq_nil_of_infix_nil hwindow
  exact Nat.zero_le n

theorem at_append {t : κ} {l' : List α} : At key t (l ++ l') ↔ At key t l ∧ At key t l' :=
  List.forall_mem_append

theorem at_concat {t : κ} : At key t (l ++ [a]) ↔ At key t l ∧ key a = t :=
  at_append.trans (and_congr_right fun _ => List.forall_mem_singleton)

/-- **One more entry keeps the bound exactly if there is room for it.** -/
theorem limited_concat_iff :
    Limited key p n (l ++ [a]) ↔ Limited key p n l ∧ (p a → Room key p n l (key a)) := by
  constructor
  · intro h
    refine ⟨fun t window hwindow => h t window (hwindow.trans (List.prefix_append l [a]).isInfix),
      fun hp window hwindow hat => ?_⟩
    obtain ⟨before, rfl⟩ := hwindow
    have hcount := h (key a) (window ++ [a]) (by
      rw [List.append_assoc]
      exact (List.suffix_append before _).isInfix) (at_concat.mpr ⟨hat, rfl⟩)
    rw [List.countP_append, List.countP_singleton, if_pos hp] at hcount
    omega
  · rintro ⟨hl, hroom⟩ t window hwindow hat
    rcases List.infix_concat_iff.mp hwindow with hsuffix | hinfix
    · rcases List.suffix_concat_iff.mp hsuffix with rfl | ⟨front, rfl, hfront⟩
      · exact Nat.zero_le n
      · obtain ⟨hatFront, rfl⟩ := at_concat.mp hat
        rw [List.countP_append, List.countP_singleton]
        split
        · rename_i hp
          exact hroom hp front hfront hatFront
        · exact hl (key a) front hfront.isInfix hatFront
    · exact hl t window hinfix hat

end Windows
