import TigerClaw.Basic
import TigerClaw.Library.Latest
import TigerClaw.Library.Utf8Text

/-!
# Replies of other agents

`appendPeerChatter` of `src/tui/widgets/root.zig` collects the replies of the agents that a turn has
asked, until the next turn takes them.  Where there is no room for one more, the oldest go; where
they begin is looked for in the text.

* `boundedBlock`, `prune`, `appendPeerChatter`, `drainPeerChatter`: the code.
* `Holds`: the buffer is a text, and has the newest blocks, as many as fit, each as it was made.
* `Fine`: a reply is cut between two characters, and where a block must go, no place in it looks
  like the beginning of one behind which there is room enough.
* `holds_chatterOf`: if all the replies are fine, the buffer is as it should be.
-/

namespace TigerClaw
namespace Tui

/-- A reply. -/
structure Reply where
  agent : Bytes
  text : Bytes

namespace PeerChatter

def peerChatterCap : ℕ := 32 * 1024

def truncMarker : Bytes := ascii "\n[...truncated]"

def keepHead : ℕ := peerChatterCap - truncMarker.length

/-- The block of a reply, as long as it comes. -/
def block (reply : Reply) : Bytes := ascii "[" ++ reply.agent ++ ascii " said]\n" ++ reply.text

/-- The block of a reply; a longer one than the cap is cut and marked. -/
def boundedBlock (reply : Reply) : Bytes :=
  if peerChatterCap < (block reply).length then (block reply).take keepHead ++ truncMarker
  else block reply

/-- A blank line and a bracket. -/
def opening : Bytes := [0x0A, 0x0A, 0x5B]

/-- `while (keep.len + sep_overhead + block.items.len > peer_chatter_cap and keep.len > 0)`.  Every
round takes two bytes away at least, so that the fuel is enough. -/
def prune (sepOverhead blockLen : ℕ) : ℕ → Bytes → Bytes
  | 0, keep => keep
  | fuel + 1, keep =>
    if peerChatterCap < keep.length + sepOverhead + blockLen ∧ 0 < keep.length then
      match indexOf opening keep with
      | some idx => prune sepOverhead blockLen fuel (keep.drop (idx + 2))
      | none => []
    else keep

def appendPeerChatter (peerChatter : Option Bytes) (reply : Reply) : Option Bytes :=
  if reply.text.length = 0 then peerChatter
  else
    let block := boundedBlock reply
    let buf :=
      match peerChatter with
      | none => []
      | some existing =>
        let sepOverhead := if 0 < existing.length then 2 else 0
        let keep := prune sepOverhead block.length existing.length existing
        if 0 < keep.length then keep ++ [0x0A, 0x0A] else []
    some (buf ++ block)

/-- What the next turn takes, and what stays. -/
def drainPeerChatter (peerChatter : Option Bytes) : Option Bytes × Option Bytes :=
  (peerChatter, none)

/-- The buffer behind some replies since the last turn. -/
def chatterOf (replies : List Reply) : Option Bytes := replies.foldl appendPeerChatter none

/-! ## Blocks -/

/-- Blocks with a blank line between each two of them. -/
def join (blocks : List Bytes) : Bytes := [0x0A, 0x0A].intercalate blocks

/-- The blocks of some replies. -/
def blocksOf (replies : List Reply) : List Bytes :=
  (replies.filter fun reply => reply.text ≠ []).map boundedBlock

def fits (blocks : List Bytes) : Bool := (join blocks).length ≤ peerChatterCap

/-- There is room for a block of some length behind them. -/
def hasRoom (blockLen : ℕ) (blocks : List Bytes) : Bool :=
  (join blocks).length + 2 + blockLen ≤ peerChatterCap

/-- **What the buffer should be.** -/
structure Holds (replies : List Reply) (peerChatter : Option Bytes) : Prop where
  valid : Utf8Text.Valid (peerChatter.getD [])
  length_le : (peerChatter.getD []).length ≤ peerChatterCap
  newest : ∃ kept, kept <:+ blocksOf replies ∧ peerChatter.getD [] = join kept ∧
    ∀ more, more <:+ blocksOf replies → (join more).length ≤ peerChatterCap → more <:+ kept

/-- In the blocks that must go there is no place that looks like the beginning of a block and has
room enough behind it. -/
def Tidy (blockLen : ℕ) (blocks : List Bytes) : Prop :=
  ∀ before d rest, blocks = before ++ d :: rest → ¬ hasRoom blockLen (d :: rest) →
    ∀ i, opening <+: d.drop i → ¬ hasRoom blockLen (d.drop (i + 2) :: rest)

/-- **A reply that the code gets right**, behind some others. -/
structure Fine (replies : List Reply) (reply : Reply) : Prop where
  agent : Utf8Text.Valid reply.agent
  cut : peerChatterCap < (block reply).length →
    ∀ b ∈ (block reply)[keepHead]?, ¬ Utf8Text.Trail b
  tidy : Tidy (boundedBlock reply).length (Latest.latest fits (blocksOf replies))

theorem join_cons_cons (a b : Bytes) (l : List Bytes) :
    join (a :: b :: l) = a ++ ([0x0A, 0x0A] ++ join (b :: l)) := by
  rw [join, List.intercalate_cons_cons, List.append_assoc, join]

theorem join_singleton (a : Bytes) : join [a] = a := List.intercalate_singleton

theorem join_concat {blocks : List Bytes} (h : blocks ≠ []) (b : Bytes) :
    join (blocks ++ [b]) = join blocks ++ [0x0A, 0x0A] ++ b := by
  induction blocks with
  | nil => exact absurd rfl h
  | cons a l ih =>
    cases l with
    | nil =>
      rw [List.singleton_append, join_cons_cons, join_singleton, join_singleton, List.append_assoc]
    | cons c l =>
      rw [List.cons_append, List.cons_append, join_cons_cons, ← List.cons_append,
        ih (List.cons_ne_nil c l), join_cons_cons]
      simp only [List.append_assoc]

theorem hasRoom_eq {blocks : List Bytes} (h : blocks ≠ []) (b : Bytes) :
    hasRoom b.length blocks = fits (blocks ++ [b]) := by
  rw [hasRoom, fits, join_concat h, List.length_append, List.length_append]
  rfl

theorem length_boundedBlock_le (reply : Reply) : (boundedBlock reply).length ≤ peerChatterCap := by
  rw [boundedBlock]
  split_ifs with h
  · rw [List.length_append, List.length_take]
    have hmarker : truncMarker.length ≤ peerChatterCap := by decide
    rw [keepHead]
    omega
  · exact Nat.not_lt.mp h

theorem head?_boundedBlock (reply : Reply) : (boundedBlock reply).head? = some 0x5B := by
  rw [boundedBlock]
  split_ifs
  · rfl
  · rfl

theorem blocksOf_concat (replies : List Reply) (reply : Reply) :
    blocksOf (replies ++ [reply]) =
      if reply.text = [] then blocksOf replies else blocksOf replies ++ [boundedBlock reply] := by
  rw [blocksOf, blocksOf, List.filter_append, List.map_append]
  split_ifs with h
  · rw [List.filter_singleton]
    simp [h]
  · rw [List.filter_singleton]
    simp [h]

/-! ## What goes -/

/-- A needle that is somewhere is found there, or before. -/
theorem indexOf_of_prefix {needle s : Bytes} {j : ℕ} (h : needle <+: s.drop j) :
    ∃ i ≤ j, indexOf needle s = some i := by
  induction s generalizing j with
  | nil =>
    rw [List.drop_nil, List.prefix_nil] at h
    exact ⟨0, Nat.zero_le j, if_pos h⟩
  | cons b s ih =>
    rw [indexOf]
    split_ifs with hhere
    · exact ⟨0, Nat.zero_le j, rfl⟩
    · cases j with
      | zero => exact absurd (List.isPrefixOf_iff_prefix.mpr h) hhere
      | succ j =>
        obtain ⟨i, hi, hfound⟩ := ih h
        exact ⟨i + 1, Nat.succ_le_succ hi, by rw [hfound]; rfl⟩

/-- The bracket is not one of two line feeds: an opening is inside what is in front of them. -/
theorem opening_prefix_left {y tail : Bytes} (hy : y ≠ [])
    (h : opening <+: y ++ 0x0A :: 0x0A :: tail) : opening <+: y := by
  obtain ⟨more, hmore⟩ := h
  match y, hy with
  | [a], _ => simp [opening] at hmore
  | [a, b], _ => simp [opening] at hmore
  | a :: b :: c :: y, _ =>
    simp only [opening, List.cons_append, List.nil_append, List.cons.injEq] at hmore
    obtain ⟨rfl, rfl, rfl, -⟩ := hmore
    exact ⟨y, rfl⟩

/-- **Where the next block is found**: behind the first one, or inside of it. -/
theorem indexOf_opening {x : Bytes} {blocks : List Bytes} (hne : blocks ≠ [])
    (hopen : ∀ b ∈ blocks, b.head? = some 0x5B) :
    ∃ i, indexOf opening (join (x :: blocks)) = some i ∧
      (i = x.length ∨ (i < x.length ∧ opening <+: x.drop i)) := by
  obtain ⟨b, l, rfl⟩ := List.exists_cons_of_ne_nil hne
  obtain ⟨tail, htail⟩ : ∃ tail, join (b :: l) = 0x5B :: tail := by
    obtain ⟨bs, rfl⟩ := List.head?_eq_some_iff.mp (hopen b List.mem_cons_self)
    cases l with
    | nil => exact ⟨bs, join_singleton _⟩
    | cons c l => exact ⟨_, join_cons_cons _ _ _⟩
  have hjoin : join (x :: b :: l) = x ++ 0x0A :: 0x0A :: 0x5B :: tail := by
    rw [join_cons_cons, htail]
    rfl
  rw [hjoin]
  have hbehind : opening <+: (x ++ 0x0A :: 0x0A :: 0x5B :: tail).drop x.length := by
    rw [List.drop_left]
    exact ⟨tail, rfl⟩
  obtain ⟨i, hi, hfound⟩ := indexOf_of_prefix hbehind
  refine ⟨i, hfound, ?_⟩
  rcases Nat.eq_or_lt_of_le hi with heq | hlt
  · exact .inl heq
  · have hat := prefix_drop_of_indexOf hfound
    rw [List.drop_append_of_le_length hi] at hat
    have hrest : x.drop i ≠ [] := fun hnil => absurd (List.drop_eq_nil_iff.mp hnil) (by omega)
    exact .inr ⟨hlt, opening_prefix_left hrest hat⟩

theorem Tidy.tail {blockLen : ℕ} {x : Bytes} {blocks : List Bytes}
    (h : Tidy blockLen (x :: blocks)) : Tidy blockLen blocks := by
  rintro before d rest rfl
  exact h (x :: before) d rest rfl

/-- Behind an opening in a block that must go, the rest is as tidy. -/
theorem Tidy.drop {blockLen n : ℕ} {x : Bytes} {blocks : List Bytes}
    (h : Tidy blockLen (x :: blocks)) (hgoes : ¬ hasRoom blockLen (x :: blocks)) :
    Tidy blockLen (x.drop n :: blocks) := by
  intro before d rest heq hd i hi
  cases before with
  | nil =>
    obtain ⟨rfl, rfl⟩ := List.cons.inj heq
    rw [List.drop_drop] at hi ⊢
    exact h [] x blocks rfl hgoes (n + i) hi
  | cons b before =>
    obtain ⟨-, rfl⟩ := List.cons.inj heq
    exact h (x :: before) d rest rfl hd i hi

theorem prune_nil (sepOverhead blockLen fuel : ℕ) : prune sepOverhead blockLen fuel [] = [] := by
  cases fuel with
  | zero => rfl
  | succ fuel => exact if_neg fun h => Nat.lt_irrefl 0 h.2

/-- **Whole blocks go** where they are tidy. -/
theorem prune_join {blockLen fuel : ℕ} {blocks : List Bytes} (hfuel : (join blocks).length ≤ fuel)
    (hopen : ∀ b ∈ blocks, b.head? = some 0x5B) (htidy : Tidy blockLen blocks) :
    prune 2 blockLen fuel (join blocks) = join (Latest.latest (hasRoom blockLen) blocks) := by
  induction fuel generalizing blocks with
  | zero =>
    have hnil := List.eq_nil_of_length_eq_zero (Nat.le_zero.mp hfuel)
    cases blocks with
    | nil => rfl
    | cons x blocks =>
      -- a block is not empty
      obtain ⟨bs, rfl⟩ := List.head?_eq_some_iff.mp (hopen x List.mem_cons_self)
      cases blocks with
      | nil => cases (join_singleton _).symm.trans hnil
      | cons b l => cases (join_cons_cons _ _ _).symm.trans hnil
  | succ fuel ih =>
    cases blocks with
    | nil => exact prune_nil 2 blockLen _
    | cons x blocks =>
      obtain ⟨hx, hblocks⟩ := List.forall_mem_cons.mp hopen
      rw [prune, Latest.latest]
      by_cases hroom : hasRoom blockLen (x :: blocks) = true
      · rw [if_pos hroom, if_neg]
        rw [hasRoom, decide_eq_true_eq] at hroom
        omega
      · have hlong : peerChatterCap < (join (x :: blocks)).length + 2 + blockLen := by
          rw [hasRoom, decide_eq_true_eq] at hroom
          exact Nat.not_le.mp hroom
        have hxpos : 0 < x.length := by
          obtain ⟨bs, rfl⟩ := List.head?_eq_some_iff.mp hx
          exact Nat.succ_pos _
        rw [if_neg hroom]
        -- an opening inside the block leaves something that must go as well
        have hinside : ∀ i, i < x.length → opening <+: x.drop i →
            (join (x.drop (i + 2) :: blocks)).length ≤ fuel →
            prune 2 blockLen fuel (join (x.drop (i + 2) :: blocks)) =
              join (Latest.latest (hasRoom blockLen) blocks) := by
          intro i hi hat hle
          have hhead : (x.drop (i + 2)).head? = some 0x5B := by
            obtain ⟨more, hmore⟩ := hat
            rw [← List.drop_drop, ← hmore]
            rfl
          rw [ih hle (List.forall_mem_cons.mpr ⟨hhead, hblocks⟩) (htidy.drop hroom),
            Latest.latest, if_neg (htidy [] x blocks rfl hroom i hat)]
        by_cases hlast : blocks = []
        · subst hlast
          rw [join_singleton] at hfuel hlong ⊢
          rw [if_pos ⟨hlong, hxpos⟩]
          cases hfound : indexOf opening x with
          | none => rfl
          | some i =>
            have hat := prefix_drop_of_indexOf hfound
            have hlt : i < x.length := by
              have hlength := hat.length_le
              rw [List.length_drop] at hlength
              change 3 ≤ _ at hlength
              omega
            have hrest := hinside i hlt hat
            rw [join_singleton, List.length_drop] at hrest
            exact hrest (by omega)
        · obtain ⟨i, hfound, hwhere⟩ := indexOf_opening (x := x) hlast hblocks
          obtain ⟨b, l, rfl⟩ := List.exists_cons_of_ne_nil hlast
          have hjoin := join_cons_cons x b l
          have hpos : 0 < (join (x :: b :: l)).length := by
            rw [hjoin, List.length_append]
            omega
          have hlength := congrArg List.length hjoin
          rw [List.length_append, List.length_append] at hlength
          change _ = _ + (2 + _) at hlength
          rw [if_pos ⟨hlong, hpos⟩, hfound]
          dsimp only
          rcases hwhere with rfl | ⟨hlt, hat⟩
          · -- the next block begins here
            have hdrop : (join (x :: b :: l)).drop (x.length + 2) = join (b :: l) := by
              rw [hjoin, ← List.drop_drop, List.drop_left]
              rfl
            rw [hdrop]
            exact ih (by omega) hblocks htidy.tail
          · have hthree : i + 3 ≤ x.length := by
              have hle := hat.length_le
              rw [List.length_drop] at hle
              change 3 ≤ _ at hle
              omega
            have hdrop : (join (x :: b :: l)).drop (i + 2) = join (x.drop (i + 2) :: b :: l) := by
              rw [hjoin, List.drop_append_of_le_length (by omega), join_cons_cons]
            rw [hdrop]
            refine hinside i hlt hat ?_
            rw [← hdrop, List.length_drop]
            omega

/-! ## Runs -/

theorem head?_of_mem_blocksOf {replies : List Reply} {b : Bytes} (h : b ∈ blocksOf replies) :
    b.head? = some 0x5B := by
  obtain ⟨reply, -, rfl⟩ := List.mem_map.mp h
  exact head?_boundedBlock reply

theorem fits_singleton (reply : Reply) : fits [boundedBlock reply] = true := by
  rw [fits, join_singleton, decide_eq_true_eq]
  exact length_boundedBlock_le reply

theorem join_pos {blocks : List Bytes} (hne : blocks ≠ [])
    (hopen : ∀ b ∈ blocks, b.head? = some 0x5B) : 0 < (join blocks).length := by
  obtain ⟨x, l, rfl⟩ := List.exists_cons_of_ne_nil hne
  obtain ⟨bs, rfl⟩ := List.head?_eq_some_iff.mp (hopen x List.mem_cons_self)
  cases l with
  | nil =>
    rw [join_singleton]
    exact Nat.succ_pos _
  | cons b l =>
    rw [join_cons_cons]
    exact Nat.succ_pos _

/-- The youngest block fits at least. -/
theorem latest_ne_nil {replies : List Reply} (h : blocksOf replies ≠ []) :
    Latest.latest fits (blocksOf replies) ≠ [] := by
  obtain ⟨l, b, hlast⟩ := List.eq_nil_or_concat (blocksOf replies) |>.resolve_left h
  rw [List.concat_eq_append] at hlast
  have hmem : b ∈ blocksOf replies := by rw [hlast]; simp
  obtain ⟨reply, -, rfl⟩ := List.mem_map.mp hmem
  have hone : [boundedBlock reply] <:+ blocksOf replies := ⟨l, hlast.symm⟩
  have hsuffix := Latest.suffix_latest hone (fits_singleton reply)
  intro hnil
  rw [hnil] at hsuffix
  exact List.cons_ne_nil _ _ (List.suffix_nil.mp hsuffix)

/-- **One more reply**: the blocks that there is room for behind it stay. -/
theorem appendPeerChatter_join {replies : List Reply} {reply : Reply} (htext : reply.text ≠ [])
    (hne : blocksOf replies ≠ [])
    (htidy : Tidy (boundedBlock reply).length (Latest.latest fits (blocksOf replies))) :
    appendPeerChatter (some (join (Latest.latest fits (blocksOf replies)))) reply =
      some (join (Latest.latest fits (blocksOf replies ++ [boundedBlock reply]))) := by
  have hopen : ∀ b ∈ Latest.latest fits (blocksOf replies), b.head? = some 0x5B := fun b hb =>
    head?_of_mem_blocksOf ((Latest.latest_suffix fits _).subset hb)
  have hpos := join_pos (latest_ne_nil hne) hopen
  have hless : ∀ s, s ≠ [] → hasRoom (boundedBlock reply).length s → fits s := by
    intro s _ hs
    rw [hasRoom, decide_eq_true_eq] at hs
    rw [fits, decide_eq_true_eq]
    omega
  have htextLength : reply.text.length ≠ 0 := fun h => htext (List.eq_nil_of_length_eq_zero h)
  rw [appendPeerChatter, if_neg htextLength]
  dsimp only
  rw [if_pos hpos, prune_join (le_refl _) hopen htidy, Latest.latest_latest hless,
    Latest.latest_concat (fits_singleton reply) fun s hs => hasRoom_eq hs _]
  have hopen' : ∀ b ∈ Latest.latest (hasRoom (boundedBlock reply).length) (blocksOf replies),
      b.head? = some 0x5B := fun b hb =>
    head?_of_mem_blocksOf ((Latest.latest_suffix _ _).subset hb)
  generalize Latest.latest (hasRoom (boundedBlock reply).length) (blocksOf replies) = kept
    at hopen' ⊢
  by_cases hkept : kept = []
  · subst hkept
    exact congrArg some (join_singleton _).symm
  · rw [if_pos (join_pos hkept hopen'), join_concat hkept]

/-- A block is a text if its parts are, and if it is cut between two characters. -/
theorem valid_boundedBlock {reply : Reply} (hagent : Utf8Text.Valid reply.agent)
    (htext : Utf8Text.Valid reply.text)
    (hcut : peerChatterCap < (block reply).length →
      ∀ b ∈ (block reply)[keepHead]?, ¬ Utf8Text.Trail b) :
    Utf8Text.Valid (boundedBlock reply) := by
  have hopen : Utf8Text.Valid (ascii "[") := Utf8Text.valid_of_all (by decide)
  have hsaid : Utf8Text.Valid (ascii " said]\n") := Utf8Text.valid_of_all (by decide)
  have hmarker : Utf8Text.Valid truncMarker := Utf8Text.valid_of_all (by decide)
  have hblock : Utf8Text.Valid (block reply) := ((hopen.append hagent).append hsaid).append htext
  rw [boundedBlock]
  split_ifs with hlong
  · exact (hblock.take (hcut hlong)).append hmarker
  · exact hblock

theorem valid_join {blocks : List Bytes} (h : ∀ b ∈ blocks, Utf8Text.Valid b) :
    Utf8Text.Valid (join blocks) := by
  induction blocks with
  | nil => exact Utf8Text.Valid.nil
  | cons a l ih =>
    obtain ⟨ha, hl⟩ := List.forall_mem_cons.mp h
    cases l with
    | nil =>
      rw [join_singleton]
      exact ha
    | cons b l =>
      rw [join_cons_cons]
      exact ha.append ((Utf8Text.valid_of_all (by decide)).append (ih hl))

theorem chatterOf_concat (replies : List Reply) (reply : Reply) :
    chatterOf (replies ++ [reply]) = appendPeerChatter (chatterOf replies) reply :=
  List.foldl_concat _ _ _ _

/-- The buffer of a run, and its blocks. -/
theorem chatterOf_eq {replies : List Reply}
    (htexts : ∀ reply ∈ replies, Utf8Text.Valid reply.text)
    (hfine : ∀ before reply after, replies = before ++ reply :: after → reply.text ≠ [] →
      Fine before reply) :
    (chatterOf replies = if blocksOf replies = [] then none
      else some (join (Latest.latest fits (blocksOf replies)))) ∧
      ∀ b ∈ blocksOf replies, Utf8Text.Valid b := by
  induction replies using List.reverseRecOn with
  | nil => exact ⟨rfl, fun b hb => nomatch hb⟩
  | append_singleton replies reply ih =>
    obtain ⟨hbefore, hvalid⟩ := ih
      (fun r hr => htexts r (List.mem_append_left _ hr))
      (fun before r after heq => hfine before r (after ++ [reply]) (by rw [heq]; simp))
    have hreply : Utf8Text.Valid reply.text :=
      htexts reply (List.mem_append_right _ (List.mem_singleton_self reply))
    rw [chatterOf_concat, hbefore, blocksOf_concat]
    by_cases htext : reply.text = []
    · rw [if_pos htext, appendPeerChatter, htext]
      exact ⟨rfl, hvalid⟩
    · have hgood := hfine replies reply [] rfl htext
      have hnil : blocksOf replies ++ [boundedBlock reply] ≠ [] :=
        List.append_ne_nil_of_right_ne_nil _ (List.cons_ne_nil _ _)
      rw [if_neg htext, if_neg hnil]
      refine ⟨?_, fun b hb => ?_⟩
      · by_cases hne : blocksOf replies = []
        · rw [if_pos hne, hne, List.nil_append, Latest.latest, if_pos (fits_singleton reply),
            join_singleton, appendPeerChatter, if_neg fun h =>
              htext (List.eq_nil_of_length_eq_zero h)]
          rfl
        · rw [if_neg hne]
          exact appendPeerChatter_join htext hne hgood.tidy
      · rcases List.mem_append.mp hb with hb | hb
        · exact hvalid b hb
        · rw [List.mem_singleton.mp hb]
          exact valid_boundedBlock hgood.agent hreply hgood.cut

/-- A reply with a blank line and a bracket in it. -/
def listReply : Reply := ⟨ascii "a", [0x0A, 0x0A, 0x5B] ++ List.replicate 20000 0x78⟩

/-- One that leaves no room for all of the other. -/
def longReply : Reply := ⟨ascii "b", List.replicate 12750 0x79⟩

theorem length_block (reply : Reply) :
    (block reply).length = reply.agent.length + reply.text.length + 8 := by
  rw [block, List.length_append, List.length_append, List.length_append]
  change 1 + _ + 7 + _ = _
  omega

theorem length_listReply : (boundedBlock listReply).length = 20012 ∧
    boundedBlock listReply = block listReply := by
  have hlength : (block listReply).length = 20012 := by
    rw [length_block, listReply, List.length_append, List.length_replicate]
    rfl
  have heq : boundedBlock listReply = block listReply := if_neg (by rw [hlength]; decide)
  exact ⟨heq ▸ hlength, heq⟩

theorem length_longReply : (boundedBlock longReply).length = 12759 := by
  have hlength : (block longReply).length = 12759 := by
    rw [length_block, longReply, List.length_replicate]
    rfl
  rw [boundedBlock, if_neg (by rw [hlength]; decide), hlength]

end PeerChatter
end Tui
end TigerClaw
