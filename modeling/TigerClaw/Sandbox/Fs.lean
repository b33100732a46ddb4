import TigerClaw.Basic
import TigerClaw.Library.Segments

/-!
# The filesystem policy of a session

`src/sandbox/fs.zig`, with `FsPolicy` from `src/sandbox/policy.zig`.  A policy is asked about a
logical path, byte for byte as its caller declares it.

* `matchesPrefix`, `check`: the code.
* `components`, `Covers`: what an entry of a list is for: the path itself and all below it.
* `matchesPrefix_iff`: the bytes of an entry say what its components say.
* `check_eq_deny`: a path below an entry of the deny list is denied.
* `check_eq_allow_iff`: what is let through, by either rule.
-/

namespace TigerClaw
namespace Sandbox

inductive ConflictRule where
  | denyWins
  | allowWins

structure FsPolicy where
  allowlist : List Bytes := []
  denylist : List Bytes := []
  writesAllowed : Bool := false
  conflict : ConflictRule := .denyWins

namespace Fs

inductive Access where
  | read
  | write
  deriving DecidableEq

inductive Decision where
  | allow
  | deny
  deriving DecidableEq

def slash : UInt8 := 0x2F

def matchesPrefix (path pre : Bytes) : Bool :=
  if pre.length = 0 then false
  else if path = pre then true
  else if ¬ pre.isPrefixOf path then false
  else if pre.length = 1 ∧ pre.head? = some slash then true
  else if pre.getLast? = some slash then true
  else decide (path.length > pre.length ∧ path[pre.length]? = some slash)

def check (fsPolicy : FsPolicy) (path : Bytes) (access : Access) : Decision :=
  if access = .write ∧ ¬ fsPolicy.writesAllowed then .deny
  else
    let allowHit := fsPolicy.allowlist.any fun entry => matchesPrefix path entry
    let denyHit := fsPolicy.denylist.any fun entry => matchesPrefix path entry
    match fsPolicy.conflict with
    | .denyWins => if denyHit ∨ ¬ allowHit then .deny else .allow
    | .allowWins => if allowHit then .allow else .deny

/-! ## Components -/

/-- The components of a path.  An absolute path starts with an empty one, which the root is all
there is of. -/
def components (path : Bytes) : List Bytes :=
  if path = [slash] then [[]] else path.splitOn slash

/-- The path is the entry, or lies below it.  The empty entry names no path. -/
def Covers (entry path : Bytes) : Prop := entry ≠ [] ∧ components entry <+: components path

/-- How entries are to be written. -/
def Entry (entry : Bytes) : Prop := entry = [slash] ∨ entry.getLast? ≠ some slash

instance decidableCovers (entry path : Bytes) : Decidable (Covers entry path) :=
  inferInstanceAs (Decidable (_ ∧ _))

instance decidableEntry (entry : Bytes) : Decidable (Entry entry) :=
  inferInstanceAs (Decidable (_ ∨ _))

/-! ## The test of the bytes -/

theorem matchesPrefix_root {path : Bytes} :
    matchesPrefix path [slash] = true ↔ ∃ rest, path = slash :: rest := by
  unfold matchesPrefix
  rw [if_neg (by decide)]
  by_cases heq : path = [slash]
  · rw [if_pos heq]
    exact iff_of_true rfl ⟨[], heq⟩
  rw [if_neg heq]
  by_cases hpre : [slash].isPrefixOf path = true
  · obtain ⟨rest, hrest⟩ := List.isPrefixOf_iff_prefix.mp hpre
    rw [if_neg (not_not.mpr hpre), if_pos ⟨rfl, rfl⟩]
    exact iff_of_true rfl ⟨rest, hrest.symm⟩
  · rw [if_pos hpre]
    refine iff_of_false (by decide) ?_
    rintro ⟨rest, rfl⟩
    exact hpre (List.isPrefixOf_iff_prefix.mpr (List.prefix_append [slash] rest))

/-- An entry that does not end in a slash is the path, or a slash follows it. -/
theorem matchesPrefix_of_ne {path entry : Bytes} (hne : entry ≠ [])
    (hlast : entry.getLast? ≠ some slash) :
    matchesPrefix path entry = true ↔ path = entry ∨ ∃ rest, path = entry ++ slash :: rest := by
  have hone : ¬ (entry.length = 1 ∧ entry.head? = some slash) := by
    rintro ⟨hlen, hhead⟩
    obtain ⟨b, rfl⟩ := List.length_eq_one_iff.mp hlen
    exact hlast hhead
  unfold matchesPrefix
  rw [if_neg (fun h => hne (List.eq_nil_of_length_eq_zero h))]
  by_cases heq : path = entry
  · rw [if_pos heq]
    exact iff_of_true rfl (.inl heq)
  rw [if_neg heq]
  by_cases hpre : entry.isPrefixOf path = true
  · obtain ⟨rest, rfl⟩ := List.isPrefixOf_iff_prefix.mp hpre
    rw [if_neg (not_not.mpr hpre), if_neg hone, if_neg hlast, decide_eq_true_iff]
    constructor
    · rintro ⟨-, hnext⟩
      rw [List.getElem?_append_right le_rfl, Nat.sub_self] at hnext
      cases rest with
      | nil => cases hnext
      | cons b rest =>
        obtain rfl := Option.some.inj hnext
        exact .inr ⟨rest, rfl⟩
    · rintro (hself | ⟨rest', hrest⟩)
      · exact absurd hself heq
      · obtain rfl := List.append_cancel_left hrest
        refine ⟨?_, ?_⟩
        · rw [List.length_append, List.length_cons]
          omega
        · rw [List.getElem?_append_right le_rfl, Nat.sub_self]
          rfl
  · rw [if_pos hpre]
    refine iff_of_false (by decide) ?_
    rintro (hself | ⟨rest, rfl⟩)
    · exact heq hself
    · exact hpre (List.isPrefixOf_iff_prefix.mpr (List.prefix_append _ _))

theorem root_covers {path : Bytes} (hpath : path ≠ []) :
    Covers [slash] path ↔ ∃ rest, path = slash :: rest := by
  have hroot : components [slash] = [[]] := rfl
  unfold Covers
  rw [and_iff_right (List.cons_ne_nil _ _), hroot]
  by_cases hself : path = [slash]
  · subst hself
    exact iff_of_true (List.prefix_refl _) ⟨[], rfl⟩
  · have hsegments := @Segments.splitOn_prefix_iff UInt8 _ _ slash [] path
    rw [List.splitOn_nil, or_iff_right hpath.symm] at hsegments
    rw [components, if_neg hself]
    exact hsegments

theorem covers_of_ne {path entry : Bytes} (hne : entry ≠ []) (hroot : entry ≠ [slash])
    (hlast : entry.getLast? ≠ some slash) :
    Covers entry path ↔ path = entry ∨ ∃ rest, path = entry ++ slash :: rest := by
  have hentry : components entry = entry.splitOn slash := if_neg hroot
  unfold Covers
  rw [and_iff_right hne, hentry]
  by_cases hself : path = [slash]
  · -- the root is below no such entry
    subst hself
    refine iff_of_false ?_ ?_
    · intro hprefix
      have hone : entry.splitOn slash <+: [[]] := hprefix
      have hsegments : entry.splitOn slash = [[]] :=
        (List.prefix_cons_iff.mp hone).elim (fun hnil => absurd hnil (List.splitOn_ne_nil _ _))
          fun ⟨more, hmore, hnil⟩ => by rw [hmore, List.prefix_nil.mp hnil]
      have htext : [slash].intercalate (entry.splitOn slash) = entry :=
        List.intercalate_splitOn slash
      rw [hsegments, List.intercalate_singleton] at htext
      exact hne htext.symm
    · rintro (h | ⟨rest, h⟩)
      · exact hroot h.symm
      · cases entry with
        | nil => exact hne rfl
        | cons b entry => simp at h
  · rw [components, if_neg hself, Segments.splitOn_prefix_iff, eq_comm]

/-- **The bytes of an entry say what its components say.** -/
theorem matchesPrefix_iff {path entry : Bytes} (hpath : path ≠ []) (hentry : Entry entry) :
    matchesPrefix path entry = true ↔ Covers entry path := by
  by_cases hroot : entry = [slash]
  · rw [hroot, matchesPrefix_root, root_covers hpath]
  · have hlast := hentry.resolve_left hroot
    by_cases hne : entry = []
    · subst hne
      exact iff_of_false (by simp [matchesPrefix]) fun h => h.1 rfl
    · rw [matchesPrefix_of_ne hne hlast, covers_of_ne hne hroot hlast]

/-! ## The lists -/

/-- Where deny wins, nothing saves a path below an entry of the deny list. -/
theorem check_eq_deny {fsPolicy : FsPolicy} {path entry : Bytes} (access : Access)
    (hconflict : fsPolicy.conflict = .denyWins) (hmem : entry ∈ fsPolicy.denylist)
    (hmatch : matchesPrefix path entry = true) : check fsPolicy path access = .deny := by
  have hhit : (fsPolicy.denylist.any fun entry => matchesPrefix path entry) = true :=
    List.any_eq_true.mpr ⟨entry, hmem, hmatch⟩
  unfold check
  split
  · rfl
  · simp only [hconflict]
    exact if_pos (.inl hhit)

/-- What is let through. -/
theorem check_eq_allow_iff {fsPolicy : FsPolicy} {path : Bytes} {access : Access}
    (hpath : path ≠ []) (hallow : ∀ entry ∈ fsPolicy.allowlist, Entry entry)
    (hdeny : ∀ entry ∈ fsPolicy.denylist, Entry entry) :
    check fsPolicy path access = .allow ↔
      (access = .write → fsPolicy.writesAllowed = true) ∧
        (∃ entry ∈ fsPolicy.allowlist, Covers entry path) ∧
          (fsPolicy.conflict = .denyWins → ∀ entry ∈ fsPolicy.denylist, ¬ Covers entry path) := by
  have hhit : ∀ entries : List Bytes, (∀ entry ∈ entries, Entry entry) →
      ((entries.any fun entry => matchesPrefix path entry) = true ↔
        ∃ entry ∈ entries, Covers entry path) := by
    intro entries hentries
    rw [List.any_eq_true]
    exact exists_congr fun entry => and_congr_right fun hmem =>
      matchesPrefix_iff hpath (hentries entry hmem)
  unfold check
  rw [← hhit _ hallow]
  have hdenied := hhit _ hdeny
  by_cases hwrite : access = .write ∧ ¬ fsPolicy.writesAllowed
  · rw [if_pos hwrite]
    exact iff_of_false (by decide) fun h => hwrite.2 (h.1 hwrite.1)
  · rw [if_neg hwrite, and_iff_right fun h => not_not.mp fun hw => hwrite ⟨h, hw⟩]
    dsimp only
    cases hconflict : fsPolicy.conflict with
    | allowWins => simp
    | denyWins =>
      have hnone : (∀ entry ∈ fsPolicy.denylist, ¬ Covers entry path) ↔
          ¬ (fsPolicy.denylist.any fun entry => matchesPrefix path entry) = true := by
        rw [hdenied]
        simp only [not_exists, not_and]
      rw [imp_iff_right (Eq.refl ConflictRule.denyWins), hnone]
      dsimp only
      split_ifs with h
      · refine iff_of_false (by decide) fun hboth => ?_
        exact h.elim hboth.2 fun hnot => hnot hboth.1
      · rw [not_or, not_not] at h
        exact iff_of_true rfl ⟨h.2, h.1⟩

end Fs

end Sandbox
end TigerClaw
