import TigerClaw.Plug.DepGraph
import Mathlib.Data.List.NodupEquivFin

/-!
# The start order and the listing order

The sort works on positions in the list of manifests.  Listing the same manifests in another
order renames the positions; where no two manifests share an id, the tie-break of the scan never
falls back on the position, so the renamed run makes the same choices.

* `Relisted`: the renaming.
* `missingCapability_relisted`, `conflictingPlugs_relisted`, `covered_relisted`,
  `precedes_relisted`: the checks of the sort, the counter and the tie-break see manifests only.
* `bootOrder_perm`: the ids in boot order, or the error, do not depend on the listing order.
-/

namespace TigerClaw
namespace Plug

/-- The positions of one list, matched with those of another that has the same manifests. -/
structure Relisted (ms ms' : List Manifest) where
  position : Index ms ≃ Index ms'
  get_position : ∀ i, ms'.get (position i) = ms.get i

/-- A permuted list of distinct manifests is a relisting. -/
def relisted {ms ms' : List Manifest} (hms : ms.Nodup) (hperm : ms.Perm ms') :
    Relisted ms ms' where
  position := (hms.getEquiv ms).trans
    ((Equiv.subtypeEquivRight fun _ => hperm.mem_iff).trans
      ((hperm.nodup_iff.mp hms).getEquiv ms').symm)
  get_position := fun i => by
    have h := ((hperm.nodup_iff.mp hms).getEquiv ms').apply_symm_apply
      ⟨ms.get i, hperm.mem_iff.mp (List.get_mem ms i)⟩
    exact congrArg Subtype.val h

variable {ms ms' : List Manifest}

/-- The counter sees manifests only. -/
theorem covered_relisted (r : Relisted ms ms') (placed : List (Index ms)) (i : Index ms) :
    Covered (placed.map r.position) (r.position i) ↔ Covered placed i := by
  rw [Covered, Covered, List.map_map, r.get_position]
  simp only [Function.comp_def, r.get_position]

/-- With distinct ids the tie-break never looks at the positions. -/
theorem precedes_relisted (r : Relisted ms ms') (hids : (ms.map Manifest.id).Nodup)
    {i j : Index ms} (hij : i ≠ j) (h : Precedes i j) :
    Precedes (r.position i) (r.position j) := by
  refine .inl ?_
  rw [r.get_position, r.get_position]
  rcases h with h | ⟨h, -⟩
  · exact h
  · have hne : (ms.get i).id ≠ (ms.get j).id := fun heq =>
      hij (List.nodup_iff_injective_get.mp hids.of_map
        (List.inj_on_of_nodup_map hids (List.get_mem ms i) (List.get_mem ms j) heq))
    exact (Manifest.startsBefore_total hne).resolve_right h

theorem missingCapability_relisted (hperm : ms.Perm ms') :
    missingCapability ms' = missingCapability ms := by
  have hprovided : provided ms' = provided ms := funext fun cap => hperm.symm.any_eq
  rw [missingCapability, missingCapability, hprovided]
  exact hperm.symm.any_eq

theorem conflictingPlugs_iff (ms : List Manifest) :
    conflictingPlugs ms = true ↔ ∃ i j : Index ms, i ≠ j ∧ ∃ d ∈ (ms.get i).deps,
      d.kind = .conflicts ∧ d.capability ∈ (ms.get j).provides := by
  simp only [conflictingPlugs, List.any_eq_true, List.mem_finRange, true_and, Bool.and_eq_true,
    beq_iff_eq, bne_iff_ne, List.contains_eq_mem, decide_eq_true_eq]
  constructor
  · rintro ⟨i, d, hd, hkind, j, hij, hj⟩
    exact ⟨i, j, hij, d, hd, hkind, hj⟩
  · rintro ⟨i, j, hij, d, hd, hkind, hj⟩
    exact ⟨i, d, hd, hkind, j, hij, hj⟩

theorem conflictingPlugs_relisted (r : Relisted ms ms') :
    conflictingPlugs ms' = conflictingPlugs ms := by
  rw [Bool.eq_iff_iff, conflictingPlugs_iff, conflictingPlugs_iff]
  constructor
  · rintro ⟨i', j', hij, d, hd, hkind, hj⟩
    obtain ⟨i, rfl⟩ := r.position.surjective i'
    obtain ⟨j, rfl⟩ := r.position.surjective j'
    rw [r.get_position] at hd hj
    exact ⟨i, j, fun h => hij (congrArg r.position h), d, hd, hkind, hj⟩
  · rintro ⟨i, j, hij, d, hd, hkind, hj⟩
    refine ⟨r.position i, r.position j, fun h => hij (r.position.injective h), d, ?_, hkind, ?_⟩
    · rwa [r.get_position]
    · rwa [r.get_position]

theorem length_relisted (r : Relisted ms ms') : ms'.length = ms.length := by
  simpa using (Fintype.card_congr r.position).symm

/-- The ids of the plugs in the order in which they start. -/
def bootOrder (ms : List Manifest) : Except SortError (List Bytes) :=
  match topoSort ms with
  | .ok order => .ok (order.map fun i => (ms.get i).id)
  | .error e => .error e

/-- **The boot order does not depend on the listing order.** -/
theorem bootOrder_perm (ms ms' : List Manifest) (hids : (ms.map Manifest.id).Nodup)
    (hperm : ms.Perm ms') : bootOrder ms' = bootOrder ms := by
  have r := relisted hids.of_map hperm
  have hmissing := missingCapability_relisted hperm
  have hconflict := conflictingPlugs_relisted r
  have hlength := length_relisted r
  cases hm : missingCapability ms with
  | true =>
    rw [hm] at hmissing
    simp [bootOrder, topoSort, hm, hmissing]
  | false =>
    cases hc : conflictingPlugs ms with
    | true =>
      rw [hm] at hmissing
      rw [hc] at hconflict
      simp [bootOrder, topoSort, hm, hmissing, hc, hconflict]
    | false =>
      have hmap {xs : List (Index ms)} (h : Greedy.Prefix Covered Precedes xs) :
          Greedy.Prefix Covered Precedes (xs.map r.position) :=
        h.map r.position (covered_relisted r) fun i j hij => precedes_relisted r hids hij
      rcases topoSort_spec hm hc with
        ⟨order, hok, hgreedy, hlen⟩ | ⟨herr, placed, hgreedy, hstuck, hlt⟩ <;>
      rcases topoSort_spec (hmissing.trans hm) (hconflict.trans hc) with
        ⟨order', hok', hgreedy', hlen'⟩ | ⟨herr', placed', hgreedy', hstuck', hlt'⟩
      · have heq : order.map r.position = order' := by
          refine (hmap hgreedy |>.isPrefix precedes_asymm hgreedy' ?_).eq_of_length ?_ <;>
            rw [List.length_map] <;> omega
        rw [bootOrder, hok', bootOrder, hok, ← heq]
        simp only [List.map_map, Function.comp_def, r.get_position]
      · have hle := hgreedy'.length_le_of_stuck precedes_asymm hstuck' (hmap hgreedy)
        rw [List.length_map] at hle
        omega
      · have hle := (hmap hgreedy).length_le_of_stuck precedes_asymm
          (hstuck.map r.position (covered_relisted r)) hgreedy'
        rw [List.length_map] at hle
        omega
      · rw [bootOrder, herr', bootOrder, herr]

/-- Two clocks and a plug that needs one, listed both ways. -/
theorem bootOrder_twoClocks :
    bootOrder twoClocks.reverse = bootOrder twoClocks :=
  bootOrder_perm twoClocks twoClocks.reverse (by decide) twoClocks.reverse_perm.symm

end Plug
end TigerClaw
