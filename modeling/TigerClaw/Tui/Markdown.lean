import TigerClaw.Basic
import TigerClaw.Library.Checked
import TigerClaw.Library.StyledText

/-!
# Markdown in the history

`md.render` of `src/tui/md.zig` walks the tree of a parsed reply and writes a flat text with spans
of style; `pickStyle` of the history widget overlays the styles of the spans over a byte.  The
parser is the vendored `koino`.

* `walk`, `render`, `mdStyle`, `pickStyle`: the code.
* `AstNode.styled`: what a tree means, every byte with the kinds of the styled nodes around it,
  innermost first.
* `walk_spec`: the walker draws that.
* `render_paints`: the bytes and the styles that are painted are those of the tree.
-/

namespace TigerClaw
namespace Tui
namespace Md

open StyledText (Drawn stylesAt)

/-- `koino.nodes.NodeValue`, with the payloads that the walker reads. -/
inductive NodeValue where
  | document
  | blockQuote
  | list
  | item
  | codeBlock (literal : Bytes)
  | htmlBlock
  | paragraph
  | heading
  | thematicBreak
  | table
  | tableRow
  | tableCell
  | text (s : Bytes)
  | softBreak
  | lineBreak
  | code (s : Bytes)
  | htmlInline
  | emph
  | strong
  | strikethrough
  | link
  | image

/-- `koino.nodes.AstNode`: a node with its children; `next` is the sibling behind it. -/
inductive AstNode where
  | mk (value : NodeValue) (children : List AstNode)

inductive StyleKind where
  | plain
  | bold
  | italic
  | code
  | link
  | heading
  | blockQuote
  | diffAdd
  | diffDel
  | diffHunk
  deriving DecidableEq

abbrev Span : Type := StyledText.Span StyleKind

structure Rendered where
  text : Bytes
  spans : List Span

/-! ## The walker -/

/-- What a node writes before its children; a bullet in front of an item. -/
def opening : NodeValue → Bytes
  | .text s => s
  | .code s => s
  | .softBreak => ascii " "
  | .lineBreak => ascii " "
  | .item => [0xE2, 0x80, 0xA2, 0x20]
  | _ => []

/-- The style that the children of a node get. -/
def childStyle (value : NodeValue) (parent : StyleKind) : StyleKind :=
  match value with
  | .strong => .bold
  | .emph => .italic
  | .code _ => .code
  | .link => .link
  | .heading => .heading
  | .blockQuote => .blockQuote
  | _ => parent

/-- What a node writes after its children. -/
def closing (value : NodeValue) (hasNext : Bool) : Bytes :=
  match value with
  | .paragraph => if hasNext then ascii "\n\n" else []
  | .heading => if hasNext then ascii "\n\n" else []
  | .blockQuote => if hasNext then ascii "\n\n" else []
  | .list => if hasNext then ascii "\n\n" else []
  | .item => ascii "\n"
  | .codeBlock literal => literal ++ if hasNext then ascii "\n\n" else []
  | _ => []

variable {ε : Type}

/-- `@intCast` to a `u32`. -/
def castU32 (n : ℕ) : Outcome ε ℕ := if n < 2 ^ 32 then .ok n else .trap .intCast

mutual

def walk (node : AstNode) (hasNext : Bool) (parentStyle : StyleKind) (out : Rendered) :
    Outcome ε Rendered :=
  match node with
  | .mk value children => do
    let start ← castU32 out.text.length
    let out ← walkChildren children (childStyle value parentStyle)
      { out with text := out.text ++ opening value }
    let text := out.text ++ closing value hasNext
    let stop ← castU32 text.length
    if start < stop ∧ childStyle value parentStyle ≠ parentStyle then
      pure ⟨text, out.spans ++ [⟨start, stop - start, childStyle value parentStyle⟩]⟩
    else pure ⟨text, out.spans⟩

/-- `while (it) |child| : (it = child.next)`. -/
def walkChildren (children : List AstNode) (style : StyleKind) (out : Rendered) :
    Outcome ε Rendered :=
  match children with
  | [] => pure out
  | child :: rest => do
    let out ← walk child (!rest.isEmpty) style out
    walkChildren rest style out

end

/-- `render`; `parse` is `koino.parse`, and the root has no sibling. -/
def render (parse : Bytes → Outcome ε AstNode) (markdown : Bytes) : Outcome ε Rendered := do
  walk (← parse markdown) false .plain ⟨[], []⟩

/-! ## Painting -/

/-- `vaxis.Color`. -/
inductive Color where
  | default
  | index (i : UInt8)
  | rgb (r g b : UInt8)

/-- `vaxis.Style.Underline`. -/
inductive Underline where
  | off
  | single
  | double
  | curly
  | dotted
  | dashed

/-- `vaxis.Style`. -/
structure Style where
  fg : Color := .default
  bg : Color := .default
  ul : Color := .default
  ulStyle : Underline := .off
  bold : Bool := false
  dim : Bool := false
  italic : Bool := false
  blink : Bool := false
  reverse : Bool := false
  invisible : Bool := false
  strikethrough : Bool := false

namespace Palette

def smoke : Color := .rgb 0x7A 0x73 0x6C

def link : Color := .rgb 0xC0 0x90 0x55

def codeFg : Color := .rgb 0xD9 0xCB 0xB4

def codeBg : Color := .rgb 0x22 0x22 0x22

def heading : Color := .rgb 0xE7 0xC0 0x82

end Palette

/-- `palette.mdStyle`. -/
def mdStyle (base : Style) (kind : StyleKind) : Style :=
  match kind with
  | .plain => base
  | .bold => { base with bold := true }
  | .italic => { base with italic := true }
  | .code => { base with fg := Palette.codeFg, bg := Palette.codeBg }
  | .link => { base with fg := Palette.link, ulStyle := .single }
  | .heading => { base with fg := Palette.heading, bold := true }
  | .blockQuote => { base with fg := Palette.smoke }
  | .diffAdd => { base with fg := .rgb 0x4A 0xC8 0x76 }
  | .diffDel => { base with fg := .rgb 0xD9 0x4F 0x4F }
  | .diffHunk => { base with fg := Palette.heading, bold := true }

/-- `pickStyle` of the history widget. -/
def pickStyle (abs : ℕ) (base : Style) (spans : List Span) : Style :=
  spans.foldl (fun s sp =>
    if sp.start ≤ abs ∧ abs < sp.start + sp.len then mdStyle s sp.style else s) base

/-! ## The meaning of a tree -/

/-- Bytes without a style of their own. -/
def unstyled (bytes : Bytes) : List (UInt8 × List StyleKind) := bytes.map fun b => (b, [])

/-- A styled node is the outermost so far. -/
def mark (kind : StyleKind) (bytes : List (UInt8 × List StyleKind)) :
    List (UInt8 × List StyleKind) :=
  bytes.map fun b => (b.1, b.2 ++ [kind])

mutual

/-- The bytes of a node, each with the kinds of the styled nodes around it, innermost first. -/
def AstNode.styled (node : AstNode) (hasNext : Bool) (parentStyle : StyleKind) :
    List (UInt8 × List StyleKind) :=
  match node with
  | .mk value children =>
    let bytes := unstyled (opening value) ++
      styledChildren children (childStyle value parentStyle) ++ unstyled (closing value hasNext)
    if childStyle value parentStyle = parentStyle then bytes
    else mark (childStyle value parentStyle) bytes

def styledChildren (children : List AstNode) (style : StyleKind) :
    List (UInt8 × List StyleKind) :=
  match children with
  | [] => []
  | child :: rest => child.styled (!rest.isEmpty) style ++ styledChildren rest style

end

@[simp] theorem map_fst_unstyled (bytes : Bytes) : (unstyled bytes).map Prod.fst = bytes := by
  rw [unstyled, List.map_map]
  exact List.map_id bytes

@[simp] theorem length_unstyled (bytes : Bytes) : (unstyled bytes).length = bytes.length := by
  simp [unstyled]

@[simp] theorem map_fst_mark (kind : StyleKind) (bytes : List (UInt8 × List StyleKind)) :
    (mark kind bytes).map Prod.fst = bytes.map Prod.fst := by
  simp [mark]

theorem map_snd_mark (kind : StyleKind) (bytes : List (UInt8 × List StyleKind)) :
    (mark kind bytes).map Prod.snd = (bytes.map Prod.snd).map (· ++ [kind]) := by
  simp [mark]

theorem drawn_unstyled (start : ℕ) (bytes : Bytes) :
    Drawn start ((unstyled bytes).map Prod.snd) ([] : List Span) :=
  StyledText.drawn_plain start (by simp [unstyled])

/-! ## The walker draws what the tree means -/

/-- `out'` is `out` with these bytes behind its text, and spans that style them so. -/
def Writes (bytes : List (UInt8 × List StyleKind)) (out out' : Rendered) : Prop :=
  ∃ spans, out' = ⟨out.text ++ bytes.map Prod.fst, out.spans ++ spans⟩ ∧
    Drawn out.text.length (bytes.map Prod.snd) spans

theorem writes_unstyled (bytes : Bytes) (out : Rendered) :
    Writes (unstyled bytes) out { out with text := out.text ++ bytes } :=
  ⟨[], by simp, drawn_unstyled _ bytes⟩

theorem Writes.append {bytes bytes' : List (UInt8 × List StyleKind)} {out out' out'' : Rendered}
    (h : Writes bytes out out') (h' : Writes bytes' out' out'') :
    Writes (bytes ++ bytes') out out'' := by
  obtain ⟨spans, rfl, hdrawn⟩ := h
  obtain ⟨spans', rfl, hdrawn'⟩ := h'
  refine ⟨spans ++ spans', by simp [List.append_assoc], ?_⟩
  rw [List.map_append]
  refine hdrawn.append ?_
  simpa using hdrawn'

theorem Writes.length_text {bytes : List (UInt8 × List StyleKind)} {out out' : Rendered}
    (h : Writes bytes out out') : out'.text.length = out.text.length + bytes.length := by
  obtain ⟨spans, rfl, -⟩ := h
  simp

/-- The span of a styled node, if the node has written anything. -/
theorem Writes.close {bytes : List (UInt8 × List StyleKind)} {out out' : Rendered}
    (h : Writes bytes out out') (hne : out.text.length < out'.text.length) (kind : StyleKind) :
    Writes (mark kind bytes) out ⟨out'.text, out'.spans ++
      [⟨out.text.length, out'.text.length - out.text.length, kind⟩]⟩ := by
  have hlength := h.length_text
  obtain ⟨spans, rfl, hdrawn⟩ := h
  have hbytes : bytes.map Prod.snd ≠ [] := by
    intro hnil
    rw [List.map_eq_nil_iff.mp hnil] at hne
    simp at hne
  refine ⟨spans ++ [⟨out.text.length, bytes.length, kind⟩], ?_, ?_⟩
  · rw [map_fst_mark, hlength, Nat.add_sub_cancel_left, List.append_assoc]
  · rw [map_snd_mark]
    simpa using hdrawn.close hbytes kind

theorem castU32_of_lt {n : ℕ} (h : n < 2 ^ 32) : (castU32 n : Outcome ε ℕ) = .ok n := if_pos h

/-- What a node writes before it is marked. -/
theorem length_styled (value : NodeValue) (children : List AstNode) (hasNext : Bool)
    (parentStyle : StyleKind) :
    ((AstNode.mk value children).styled hasNext parentStyle).length = (opening value).length +
      (styledChildren children (childStyle value parentStyle)).length +
        (closing value hasNext).length := by
  rw [AstNode.styled]
  split <;> simp [mark, Nat.add_assoc]

mutual

/-- A node writes its bytes, as long as the text stays below 4 GiB. -/
theorem walk_spec (node : AstNode) (hasNext : Bool) (parentStyle : StyleKind) (out : Rendered)
    (hlen : out.text.length + (node.styled hasNext parentStyle).length < 2 ^ 32) :
    ∃ out', (walk node hasNext parentStyle out : Outcome ε Rendered) = .ok out' ∧
      Writes (node.styled hasNext parentStyle) out out' := by
  obtain ⟨value, children⟩ := node
  rw [length_styled] at hlen
  let opened : Rendered := { out with text := out.text ++ opening value }
  have hopened : opened.text.length = out.text.length + (opening value).length :=
    List.length_append
  obtain ⟨mid, hmid, hwrites⟩ :=
    walkChildren_spec children (childStyle value parentStyle) opened (by omega)
  have hall := ((writes_unstyled (opening value) out).append hwrites).append
    (writes_unstyled (closing value hasNext) mid)
  have hlength := hall.length_text
  simp only [List.length_append, length_unstyled] at hlength
  have hstart : (castU32 out.text.length : Outcome ε ℕ) = .ok out.text.length :=
    castU32_of_lt (by omega)
  have hstop : (castU32 (mid.text ++ closing value hasNext).length : Outcome ε ℕ) =
      .ok (mid.text ++ closing value hasNext).length :=
    castU32_of_lt (by rw [List.length_append]; omega)
  rw [walk, hstart, Outcome.ok_bind, hmid, Outcome.ok_bind]
  dsimp only
  rw [hstop, Outcome.ok_bind, AstNode.styled]
  by_cases hstyle : childStyle value parentStyle = parentStyle
  · rw [if_neg fun h => h.2 hstyle, if_pos hstyle]
    exact ⟨_, rfl, hall⟩
  · rw [if_neg hstyle]
    by_cases hlt : out.text.length < (mid.text ++ closing value hasNext).length
    · rw [if_pos ⟨hlt, hstyle⟩]
      exact ⟨_, rfl, hall.close hlt _⟩
    · -- a node that has written nothing leaves no span
      rw [if_neg fun h => hlt h.1]
      refine ⟨_, rfl, ?_⟩
      have hnil : unstyled (opening value) ++ styledChildren children (childStyle value parentStyle)
          ++ unstyled (closing value hasNext) = [] := by
        rw [← List.length_eq_zero_iff]
        simp only [List.length_append, length_unstyled] at hlt ⊢
        omega
      rw [hnil] at hall ⊢
      exact hall

theorem walkChildren_spec (children : List AstNode) (style : StyleKind) (out : Rendered)
    (hlen : out.text.length + (styledChildren children style).length < 2 ^ 32) :
    ∃ out', (walkChildren children style out : Outcome ε Rendered) = .ok out' ∧
      Writes (styledChildren children style) out out' := by
  match children with
  | [] =>
    refine ⟨out, by rw [walkChildren]; rfl, ?_⟩
    rw [styledChildren]
    exact ⟨[], by simp, drawn_unstyled _ []⟩
  | child :: rest =>
    rw [styledChildren, List.length_append] at hlen
    obtain ⟨mid, hmid, hwrites⟩ := walk_spec child (!rest.isEmpty) style out (by omega)
    have hlength := hwrites.length_text
    obtain ⟨out', hout', hwrites'⟩ := walkChildren_spec rest style mid (by omega)
    refine ⟨out', ?_, ?_⟩
    · rw [walkChildren, hmid, Outcome.ok_bind, hout']
    · rw [styledChildren]
      exact hwrites.append hwrites'

end

/-! ## What is painted -/

/-- The overlays are those of the spans over the byte, in their order. -/
theorem pickStyle_eq (abs : ℕ) (base : Style) (spans : List Span) :
    pickStyle abs base spans = (stylesAt spans abs).foldl mdStyle base := by
  rw [stylesAt, List.foldl_map, List.foldl_filter, pickStyle]
  congr
  funext s sp
  simp only [StyledText.Span.covers_iff]

/-- The whole text of a reply. -/
theorem render_draws {parse : Bytes → Outcome ε AstNode} {markdown : Bytes} {doc : AstNode}
    (hparse : parse markdown = .ok doc) (hlen : (doc.styled false .plain).length < 2 ^ 32) :
    ∃ r, render parse markdown = .ok r ∧ r.text = (doc.styled false .plain).map Prod.fst ∧
      Drawn 0 ((doc.styled false .plain).map Prod.snd) r.spans := by
  obtain ⟨r, hr, spans, rfl, hdrawn⟩ := walk_spec (ε := ε) doc false .plain ⟨[], []⟩ (by simpa)
  exact ⟨_, by rw [render, hparse, Outcome.ok_bind, hr], List.nil_append _, hdrawn⟩

theorem pickStyle_of_drawn {bytes : List (UInt8 × List StyleKind)} {spans : List Span}
    (hdrawn : Drawn 0 (bytes.map Prod.snd) spans) (i : ℕ) (base : Style) :
    pickStyle i base spans = ((bytes[i]?.map Prod.snd).getD []).foldl mdStyle base := by
  rw [pickStyle_eq, hdrawn.styled, if_pos (Nat.zero_le i), List.getElem?_map, Nat.sub_zero]

/-- **What is painted is the tree**: its bytes, each under the styles of the nodes around it, the
outermost last. -/
theorem render_paints {parse : Bytes → Outcome ε AstNode} {markdown : Bytes} {doc : AstNode}
    (hparse : parse markdown = .ok doc) (hlen : (doc.styled false .plain).length < 2 ^ 32) :
    ∃ r, render parse markdown = .ok r ∧ r.text = (doc.styled false .plain).map Prod.fst ∧
      ∀ i base, pickStyle i base r.spans =
        (((doc.styled false .plain)[i]?.map Prod.snd).getD []).foldl mdStyle base := by
  obtain ⟨r, hr, htext, hdrawn⟩ := render_draws hparse hlen
  exact ⟨r, hr, htext, pickStyle_of_drawn hdrawn⟩

/-- The tree of `**so *it* is**`. -/
def emphasis : AstNode :=
  .mk .document [.mk .paragraph [.mk .strong [.mk (.text (ascii "so ")) [],
    .mk .emph [.mk (.text (ascii "it")) []], .mk (.text (ascii " is")) []]]]

theorem render_paints_emphasis :
    ∃ r, render (ε := Unit) (fun _ => .ok emphasis) (ascii "**so *it* is**") = .ok r ∧
      r.text = ascii "so it is" ∧ ∀ base, pickStyle 4 base r.spans =
        { base with italic := true, bold := true } := by
  obtain ⟨r, hr, htext, hpaint⟩ :=
    @render_paints Unit (fun _ => .ok emphasis) (ascii "**so *it* is**") _ rfl (by decide)
  exact ⟨r, hr, htext, fun base => hpaint 4 base⟩

/-- The kinds that paint in bold. -/
def StyleKind.bolds (kind : StyleKind) : Bool :=
  kind == .bold || kind == .heading || kind == .diffHunk

theorem bold_mdStyle (base : Style) (kind : StyleKind) :
    (mdStyle base kind).bold = (base.bold || kind.bolds) := by
  cases kind <;> simp [mdStyle, StyleKind.bolds]

theorem italic_mdStyle (base : Style) (kind : StyleKind) :
    (mdStyle base kind).italic = (base.italic || kind == .italic) := by
  cases kind <;> simp [mdStyle]

/-- The colour of a kind, if it sets one. -/
def StyleKind.ink (kind : StyleKind) : Option Color :=
  match kind with
  | .plain | .bold | .italic => none
  | .code => some Palette.codeFg
  | .link => some Palette.link
  | .heading => some Palette.heading
  | .blockQuote => some Palette.smoke
  | .diffAdd => some (.rgb 0x4A 0xC8 0x76)
  | .diffDel => some (.rgb 0xD9 0x4F 0x4F)
  | .diffHunk => some Palette.heading

theorem fg_mdStyle (base : Style) (kind : StyleKind) :
    (mdStyle base kind).fg = kind.ink.getD base.fg := by
  cases kind <;> rfl

/-- The kinds over a byte add up; of their colours the outermost stands. -/
theorem foldl_mdStyle (kinds : List StyleKind) (base : Style) :
    (kinds.foldl mdStyle base).bold = (base.bold || kinds.any StyleKind.bolds) ∧
    (kinds.foldl mdStyle base).italic = (base.italic || kinds.any (· == .italic)) ∧
    (kinds.foldl mdStyle base).fg = (kinds.reverse.findSome? StyleKind.ink).getD base.fg := by
  induction kinds generalizing base with
  | nil => simp
  | cons kind kinds ih =>
    obtain ⟨hbold, hitalic, hfg⟩ := ih (mdStyle base kind)
    refine ⟨?_, ?_, ?_⟩
    · rw [List.foldl_cons, hbold, bold_mdStyle, List.any_cons, Bool.or_assoc]
    · rw [List.foldl_cons, hitalic, italic_mdStyle, List.any_cons, Bool.or_assoc]
    · rw [List.foldl_cons, hfg, fg_mdStyle, List.reverse_cons, List.findSome?_append]
      cases kinds.reverse.findSome? StyleKind.ink <;> cases hink : kind.ink <;> simp [hink]

/-- **The spans of a reply nest**: each lies in the text and is not empty, and a span ends before a
later one begins or lies inside it.  A byte is bold or italic as soon as one node around it is, and
has the colour of the outermost coloured node. -/
theorem render_nests {parse : Bytes → Outcome ε AstNode} {markdown : Bytes} {doc : AstNode}
    (hparse : parse markdown = .ok doc) (hlen : (doc.styled false .plain).length < 2 ^ 32) :
    ∃ r, render parse markdown = .ok r ∧
      (∀ sp ∈ r.spans, 0 < sp.len ∧ sp.stop ≤ r.text.length) ∧
      r.spans.Pairwise (fun sp sp' =>
        sp.stop ≤ sp'.start ∨ sp'.start ≤ sp.start ∧ sp.stop ≤ sp'.stop) ∧
      ∀ i b kinds, (doc.styled false .plain)[i]? = some (b, kinds) → ∀ base : Style,
        (pickStyle i base r.spans).bold = (base.bold || kinds.any StyleKind.bolds) ∧
        (pickStyle i base r.spans).italic = (base.italic || kinds.any (· == .italic)) ∧
        (pickStyle i base r.spans).fg =
          (kinds.reverse.findSome? StyleKind.ink).getD base.fg := by
  obtain ⟨r, hr, htext, hdrawn⟩ := render_draws hparse hlen
  refine ⟨r, hr, fun sp hsp => ?_, hdrawn.laminar, fun i b kinds hi base => ?_⟩
  · obtain ⟨-, hpos, hstop⟩ := hdrawn.within sp hsp
    rw [htext, List.length_map]
    exact ⟨hpos, by simpa using hstop⟩
  · rw [pickStyle_of_drawn hdrawn, hi]
    exact foldl_mdStyle kinds base

theorem render_nests_emphasis :
    ∃ r, render (ε := Unit) (fun _ => .ok emphasis) (ascii "**so *it* is**") = .ok r ∧
      ∀ base : Style, (pickStyle 4 base r.spans).bold = true := by
  obtain ⟨r, hr, -, -, hpaint⟩ :=
    @render_nests Unit (fun _ => .ok emphasis) (ascii "**so *it* is**") _ rfl (by decide)
  refine ⟨r, hr, fun base => ?_⟩
  rw [(hpaint 4 116 [.italic, .bold] (by decide) base).1]
  simp [StyleKind.bolds]

end Md
end Tui
end TigerClaw
