import RichText.Proofs.PlaceSelection

namespace RichText

open Editor (Part)

namespace Glyph

def restyle (clears : Bool) (tag : String) : Glyph → Glyph :=
  if clears then removeStyle tag else addStyle tag

end Glyph

namespace Tree

variable {t t' : Tree} {block : NodeId} {b r : Node} {start stop : Nat} {clears : Bool}
  {tag : String}

def restylePart (clears : Bool) (tag : String) (t : Tree) (p : Part) : Tree :=
  let span := t.span p.block p.start p.stop
  if clears then (t.clear p.block span tag).2 else (t.apply p.block span tag).2

-- It depends on the block alone which offsets are free, and what stands at them.
section Congr

variable (h : t.node? block = t'.node? block)

include h

theorem free_congr : t.Free block o ↔ t'.Free block o := by
  have hc (i : NodeId) : t.countBefore block i = t'.countBefore block i := by
    simp only [countBefore, linesBefore, h]
  have he (n : Node) : t.Encloses block o n ↔ t'.Encloses block o n :=
    ⟨fun h => ⟨h.embed, hc _ ▸ h.left, hc _ ▸ h.right⟩,
      fun h => ⟨h.embed, hc _ ▸ h.left, hc _ ▸ h.right⟩⟩
  simp only [Free, children, h, he]

theorem glyphs_congr : t.glyphs block = t'.glyphs block := by
  simp only [glyphs, runs, h]

theorem glyphsWith_congr (u : Glyph → Glyph) :
    t.glyphsWith block start stop u = t'.glyphsWith block start stop u := by
  have hc (o : Nat) : t.isCharAt block o = t'.isCharAt block o := by
    simp only [isCharAt, children, h]
  simp only [glyphsWith, glyphs_congr h, hc]

end Congr

end Tree

theorem SimpleBlock.recast_restylePart {t : Tree} {p : Part} {b : Node} (h : SimpleBlock t p.block b)
    (he : t.embedBelow? p.block p.block = none) (hs : t.Free p.block p.start)
    (hu : t.Free p.block p.stop) (clears : Bool) (tag : String) :
    ∃ cs, t.Recast (t.restylePart clears tag p) p.block b p.start p.stop (.restyle clears tag) cs := by
  cases clears with
  | false => exact h.recast_apply he hs hu tag
  | true => exact h.recast_clear he hs hu tag

namespace Tree

variable {t t' : Tree} {r : Node} {ps : List Part} {clears : Bool} {tag : String}

structure Within (t : Tree) (r : Node) (p : Part) : Prop where
  exists_block : ∃ b ∈ r.children, b.id = p.block ∧ SimpleBlock t p.block b
  start : t.Free p.block p.start
  stop : t.Free p.block p.stop

-- Some parts of a document are changed, and the other children of the root stay as they are.
structure Touched (t t' : Tree) (r : Node) (ps : List Part) (u : Glyph → Glyph) (cs : List Node) :
    Prop where
  wf : t'.WellFormed
  root : r.withChildren cs ∈ t'.roots
  other : ∀ n ∈ r.children, n.id ∉ ps.map Part.block → n ∈ cs
  glyphs : ∀ p ∈ ps, t'.glyphs p.block = t.glyphsWith p.block p.start p.stop u

theorem Within.of_mem_children {p : Part} {r' : Node} (h : t.Within r p) (wf : t'.WellFormed)
    (hr : r' ∈ t'.roots) (hm : ∀ n ∈ r.children, n.id = p.block → n ∈ r'.children) :
    t.node? p.block = t'.node? p.block ∧ t'.Within r' p := by
  have ⟨⟨b, hb, hi, hsb⟩, hs, hu⟩ := h
  have hb' := hm b hb hi
  have hn : t'.node? p.block = some b := hi ▸ wf.node?_child hr hb'
  have e := hsb.node.trans hn.symm
  exact ⟨e, ⟨b, hb', hi, { hsb with wf, node := hn }⟩, (free_congr e).mp hs, (free_congr e).mp hu⟩

theorem touched_foldl (clears : Bool) (tag : String) (wf : t.WellFormed) (hr : r ∈ t.roots)
    (hk : r.kind.isEmbed = false) (hp : ∀ p ∈ ps, t.Within r p) (hd : (ps.map Part.block).Nodup) :
    ∃ cs, t.Touched (ps.foldl (restylePart clears tag) t) r ps (.restyle clears tag) cs := by
  induction ps generalizing t r with
  | nil => exact ⟨r.children, wf, by simpa using hr, fun _ hn _ => hn, nofun⟩
  | cons p ps ih =>
    obtain ⟨⟨b, hb, hi, hsb⟩, hs, hu⟩ := hp p (.head _)
    obtain ⟨as, bs, hc⟩ := List.append_of_mem hb
    have he := hi ▸ wf.embedBelow?_child hr hk hb
    obtain ⟨cs, hrc⟩ := hsb.recast_restylePart he hs hu clears tag
    have hr' := hrc.rebuilt.mem_roots wf hr hi hc
    rw [List.map_cons, List.nodup_cons] at hd
    -- The other children of the root are still there.
    have stays {n} (hn : n ∈ r.children) (hne : n.id ≠ p.block) :
        n ∈ (r.withChildren (as ++ b.withChildren cs :: bs)).children := by
      rw [hc] at hn
      rw [Node.children_withChildren]
      have hnb : n ≠ b := fun e => hne (e ▸ hi)
      simp only [List.mem_append, List.mem_cons] at hn ⊢
      exact hn.imp_right fun hn => .inr (hn.resolve_left hnb)
    have same {q} (hq : q ∈ ps) := (hp q (.tail _ hq)).of_mem_children hrc.rebuilt.wf hr'
      fun n hn e => stays hn fun e' => hd.left (e' ▸ e ▸ List.mem_map_of_mem hq)
    obtain ⟨cs', ih⟩ := ih hrc.rebuilt.wf hr' hk (fun q hq => (same hq).right) hd.right
    refine ⟨cs', ih.wf, ih.root, fun n hn hno => ?other, fun q hq => ?glyphs⟩
    case other =>
      rw [List.map_cons, List.mem_cons, not_or] at hno
      exact ih.other n (stays hn hno.left) hno.right
    case glyphs =>
      cases List.mem_cons.mp hq
      case inl e =>
        subst e
        have hm := ih.other (b.withChildren cs) (by simp) (by simpa [hi] using hd.left)
        have hn := ih.wf.node?_child ih.root hm
        rw [Node.id_withChildren, hi] at hn
        rw [List.foldl_cons, ← hrc.glyphs]
        exact glyphs_congr (hn.trans hrc.after.node.symm)
      case inr hq => rw [List.foldl_cons, ih.glyphs q hq, glyphsWith_congr (same hq).left]

end Tree

namespace Tree

variable {t : Tree} {r : Node} {s : BlockSelection}

-- The glyphs of a block, changed where they stand for selected chars that no embed holds.
def glyphsCovered (t : Tree) (block : NodeId) (index : Nat) (s : BlockSelection)
    (u : Glyph → Glyph) : List Glyph :=
  (t.glyphs block).mapIdx fun o g =>
    if s.Covers ⟨index, o⟩ ∧ t.isCharAt block o then u g else g

-- All selected chars that no embed holds have the style, and in each block of which something is
-- selected there is such a char.
structure SharesCovered (t : Tree) (r : Node) (s : BlockSelection) (tag : String) : Prop where
  exists_char : ∀ b ∈ r.children, ∀ i ∈ b.kind.blockIndex?, (∃ o < b.charCount, s.Covers ⟨i, o⟩) →
    ∃ o < b.charCount, s.Covers ⟨i, o⟩ ∧ t.isCharAt b.id o
  hasStyle : ∀ b ∈ r.children, ∀ i ∈ b.kind.blockIndex?, ∀ o < b.charCount, s.Covers ⟨i, o⟩ →
    t.isCharAt b.id o → (t.glyphs b.id)[o]?.any (Glyph.hasStyle tag)

instance : Decidable (t.SharesCovered r s tag) :=
  decidable_of_iff (_ ∧ _) ⟨fun h => ⟨h.left, h.right⟩, fun h => ⟨h.exists_char, h.hasStyle⟩⟩

end Tree

namespace Editor

variable {e : Editor} {r : Node} {s : BlockSelection} {tag : String}

theorem tree_restore (e : Editor) (target : Target) : (e.restore target).tree = e.tree := by
  cases target with
  | cell => rfl
  | blocks s _ =>
    rw [restore]
    split <;> rfl

theorem mem_activeStyles (hs : e.Selects s) : tag ∈ e.activeStyles ↔ e.parts s ≠ [] ∧
      ∀ p ∈ e.parts s, tag ∈ e.tree.styles p.block (e.tree.span p.block p.start p.stop) := by
  have inter (f : Part → StyleSet) (ps : List Part) (styles : StyleSet) :
      tag ∈ ps.foldl (fun common p => common ∩ f p) styles ↔
        tag ∈ styles ∧ ∀ p ∈ ps, tag ∈ f p := by
    induction ps generalizing styles with
    | nil => simp
    | cons p ps ih => simp [ih, and_assoc]
  rw [activeStyles, target?_eq hs.selectedCell? hs.readSelection?]
  simp only [Option.map_some, Option.getD_some, Target.parts]
  cases e.parts s with
  | nil => simp
  | cons p ps => simp [inter]

theorem tree_restyle (hs : e.Selects s) (tag : String) : (e.restyle .toggle tag).2.tree =
      (e.parts s).foldl (Tree.restylePart (tag ∈ e.activeStyles) tag) e.tree := by
  rw [restyle, target?_eq hs.selectedCell? hs.readSelection?]
  cases hp : e.parts s with
  | nil => simp [Target.parts]
  | cons p ps =>
    simp only [Target.parts, List.isEmpty_cons, Bool.false_eq_true, if_false, tree_restore]
    rfl

theorem addresses_ordered (ha : e.tree.Addresses r s.anchor) (hh : e.tree.Addresses r s.head) :
    e.tree.Addresses r s.ordered.1 ∧ e.tree.Addresses r s.ordered.2 := by
  rw [BlockSelection.ordered]
  split
  case isTrue => exact ⟨hh, ha⟩
  case isFalse => exact ⟨ha, hh⟩

section Covered

variable {p : Part} {b : Node} {i : Nat} (h : SimpleDocument e.document r)

include h

theorem free_of_addresses {p : BlockPoint} (ha : e.tree.Addresses r p) (hb : b ∈ r.children)
    (hi : b.kind.blockIndex? = some p.block) : p.offset ≤ b.charCount ∧ e.tree.Free b.id p.offset := by
  have ⟨_, hc, hi', hle, hf⟩ := ha
  exact h.eq_of_blockIndex? hc hb hi' hi ▸ ⟨hle, hf⟩

theorem exists_part_of_covers (hb : b ∈ r.children) (hi : b.kind.blockIndex? = some i)
    (ho : o < b.charCount) (hc : s.Covers ⟨i, o⟩) :
    ∃ p ∈ e.parts s, p.block = b.id ∧ p.start ≤ o ∧ o < p.stop := by
  have ⟨hl, hu, hs, hlt⟩ := (BlockSelection.covers_iff ho).mp hc
  exact ⟨_, (mem_parts h).mpr ⟨i, hl, hu, b, hb, hi, rfl, by omega⟩, rfl, hs, hlt⟩

variable (ha : e.tree.Addresses r s.anchor) (hh : e.tree.Addresses r s.head)

include ha hh

theorem part_of_block (hp : p ∈ e.parts s) : ∃ b ∈ r.children, ∃ i, b.kind.blockIndex? = some i ∧
    p.block = b.id ∧ p.start < p.stop ∧ p.stop ≤ b.charCount ∧ e.tree.Free b.id p.start ∧
      e.tree.Free b.id p.stop ∧ ∀ o < b.charCount, s.Covers ⟨i, o⟩ ↔ p.start ≤ o ∧ o < p.stop := by
  have ⟨hfirst, hlast⟩ := addresses_ordered ha hh
  have ⟨i, hl, hu, b, hb, hi, hpb, hlt⟩ := (mem_parts h).mp hp
  subst hpb
  refine ⟨b, hb, i, hi, rfl, hlt, ?stopLe, ?start, ?stop, fun o ho => ?covers⟩
  case covers => simp [BlockSelection.covers_iff ho, hl, hu]
  case start =>
    simp only [BlockPoint.startIn]
    split
    case isTrue e => exact (free_of_addresses h hfirst hb (e ▸ hi)).right
    case isFalse => exact Tree.free_zero
  case stop =>
    simp only [BlockPoint.stopIn]
    split
    case isTrue e => exact (free_of_addresses h hlast hb (e ▸ hi)).right
    case isFalse => exact (h.simpleBlock hb hi).free_charCount
  case stopLe =>
    simp only [BlockPoint.stopIn]
    split
    case isTrue e => exact (free_of_addresses h hlast hb (e ▸ hi)).left
    case isFalse => exact Nat.le_refl _

theorem within_of_mem_parts (hp : p ∈ e.parts s) : e.tree.Within r p := by
  have ⟨b, hb, i, hi, e, _, _, hs, hu, _⟩ := part_of_block h ha hh hp
  exact ⟨⟨b, hb, e.symm, e ▸ h.simpleBlock hb hi⟩, e ▸ hs, e ▸ hu⟩

theorem shares_iff : (∀ p ∈ e.parts s, tag ∈ e.tree.styles p.block
    (e.tree.span p.block p.start p.stop)) ↔ e.tree.SharesCovered r s tag := by
  have styles {p} (hp : p ∈ e.parts s) : tag ∈ e.tree.styles p.block
      (e.tree.span p.block p.start p.stop) ↔ e.tree.Shares p.block p.start p.stop tag := by
    have ⟨b, hb, i, hi, e, hlt, _, hs, hu, _⟩ := part_of_block h ha hh hp
    rw [e]
    exact (h.simpleBlock hb hi).mem_styles_iff (h.wf.embedBelow?_child h.root h.not_isEmbed hb) hs hu hlt
  constructor
  case mp =>
    intro hall
    -- What is selected of a block lies in a part that shares the style.
    have shares {b} (hb : b ∈ r.children) {i} (hi : b.kind.blockIndex? = some i) {o}
        (ho : o < b.charCount) (hc : s.Covers ⟨i, o⟩) : ∃ start stop, start ≤ o ∧ o < stop ∧
          e.tree.Shares b.id start stop tag ∧
          ∀ o < b.charCount, s.Covers ⟨i, o⟩ ↔ start ≤ o ∧ o < stop := by
      have ⟨p, hp, hpb, hs, hlt⟩ := exists_part_of_covers h hb hi ho hc
      have hsh := (styles hp).mp (hall p hp)
      have ⟨b', hb', i', hi', e, _, _, _, _, hcov⟩ := part_of_block h ha hh hp
      cases h.eq_of_id hb hb' (hpb.symm.trans e)
      cases hi.symm.trans hi'
      exact ⟨p.start, p.stop, hs, hlt, hpb ▸ hsh, hcov⟩
    refine ⟨fun b hb i hi ⟨o, ho, hc⟩ => ?_, fun b hb i hi o ho hc hchar => ?_⟩
    case refine_1 =>
      have ⟨start, stop, _, _, hsh, hcov⟩ := shares hb hi ho hc
      have ⟨o, hl, hr, hchar⟩ := hsh.exists_char
      have ho := (h.simpleBlock hb hi).lt_of_isCharAt hchar
      exact ⟨o, ho, (hcov o ho).mpr ⟨hl, hr⟩, hchar⟩
    case refine_2 =>
      have ⟨start, stop, hl, hr, hsh, _⟩ := shares hb hi ho hc
      exact hsh.hasStyle o hl hr hchar
  case mpr =>
    intro hsh p hp
    refine (styles hp).mpr ?_
    have ⟨b, hb, i, hi, e, hlt, hle, _, _, hcov⟩ := part_of_block h ha hh hp
    have lt {o} := (h.simpleBlock hb hi).lt_of_isCharAt (o := o)
    rw [e]
    refine ⟨?_, fun o hl hr hchar => ?_⟩
    case refine_1 =>
      have hs := (hcov p.start (by omega)).mpr ⟨Nat.le_refl _, hlt⟩
      have ⟨o, ho, hc, hchar⟩ := hsh.exists_char b hb i hi ⟨p.start, by omega, hs⟩
      have ⟨hl, hr⟩ := (hcov o ho).mp hc
      exact ⟨o, hl, hr, hchar⟩
    case refine_2 =>
      have ho := lt hchar
      exact hsh.hasStyle b hb i hi o ho ((hcov o ho).mpr ⟨hl, hr⟩) hchar

theorem glyphs_of_touched (ht : e.tree.Touched t' r (e.parts s) u cs) (hb : b ∈ r.children)
    (hi : b.kind.blockIndex? = some i) : t'.glyphs b.id = e.tree.glyphsCovered b.id i s u := by
  have lt {o} := (h.simpleBlock hb hi).lt_of_isCharAt (o := o)
  by_cases hm : b.id ∈ (e.parts s).map Part.block
  case pos =>
    obtain ⟨p, hp, hpb⟩ := List.mem_map.mp hm
    obtain ⟨b', hb', i', hi', e', _, _, _, _, hcov⟩ := part_of_block h ha hh hp
    cases h.eq_of_id hb hb' (hpb.symm.trans e')
    cases hi.symm.trans hi'
    have hg := ht.glyphs p hp
    rw [hpb] at hg
    rw [hg, Tree.glyphsWith, Tree.glyphsCovered]
    congr 1
    funext o g
    refine if_congr ?_ rfl rfl
    rw [← and_assoc]
    exact and_congr_left fun hchar => (hcov o (lt hchar)).symm
  case neg =>
    have hn := ht.wf.node?_child ht.root (ht.other b hb hm)
    have hn : t'.node? b.id = e.tree.node? b.id := hn.trans (h.wf.node?_child h.root hb).symm
    rw [Tree.glyphs_congr hn]
    apply List.ext_getElem?
    intro o
    have hf (g : Glyph) : (if s.Covers ⟨i, o⟩ ∧ e.tree.isCharAt b.id o then u g else g) = g := by
      refine if_neg fun hc => hm ?_
      obtain ⟨p, hp, hpb, _⟩ := exists_part_of_covers h hb hi (lt hc.right) hc.left
      exact hpb ▸ List.mem_map_of_mem hp
    simp only [Tree.glyphsCovered, List.getElem?_mapIdx, hf, Option.map_id']

end Covered

-- A toggle takes a style from all selected chars if all of them have it, and adds it to all of them
-- otherwise. It also adds it if what is selected of a block holds no such char. Every selection with its
-- ends in blocks can be placed, and then is the one that the editor shows.
theorem toggle_selection (h : SimpleDocument e.document r) (ha : e.tree.Addresses r s.anchor)
    (hh : e.tree.Addresses r s.head) (hs : e.Selects s) (tag : String) :
    let t' := (e.restyle .toggle tag).2.tree
    (∀ b ∈ r.children, ∀ i, b.kind.blockIndex? = some i →
      t'.glyphs b.id = e.tree.glyphsCovered b.id i s
        (if e.tree.SharesCovered r s tag then Glyph.removeStyle tag else Glyph.addStyle tag)) ∧
    (∀ n ∈ r.children, n.kind.blockIndex? = none → t'.node? n.id = some n) ∧
    ∃ live, e.tree.placeSelection e.root s = .ok live ∧ { e with live := some live }.Selects s := by
  have wf : e.tree.WellFormed := h.wf
  have ⟨cs, ht⟩ := Tree.touched_foldl (tag ∈ e.activeStyles) tag wf h.root h.not_isEmbed
    (fun p => within_of_mem_parts h ha hh) (nodup_parts (s := s) h)
  rw [← tree_restyle hs] at ht
  refine ⟨fun b hb i hi => ?_, fun n hn hi => ?_, exists_placeSelection h ha hh⟩
  case refine_1 =>
    by_cases hp : e.parts s = []
    case pos =>
      -- Without parts there is nothing to change, in whatever way.
      have hg (u) : e.tree.Touched _ r (e.parts s) u cs := { ht with glyphs := by simp [hp] }
      exact glyphs_of_touched h ha hh (hg _) hb hi
    case neg =>
      have hm : tag ∈ e.activeStyles ↔ e.tree.SharesCovered r s tag := by
        rw [mem_activeStyles hs, shares_iff h ha hh, and_iff_right hp]
      have hg := glyphs_of_touched h ha hh ht hb hi
      by_cases hsh : e.tree.SharesCovered r s tag
      case pos => simpa [hm, hsh, Glyph.restyle] using hg
      case neg => simpa [hm, hsh, Glyph.restyle] using hg
  case refine_2 =>
    refine ht.wf.node?_child ht.root (ht.other n hn fun hm => ?_)
    have ⟨p, hp, hpn⟩ := List.mem_map.mp hm
    have ⟨b, hb, i, hi', e, _⟩ := part_of_block h ha hh hp
    cases h.eq_of_id hn hb (hpn.symm.trans e)
    simp [hi] at hi'

end Editor

def Node.stacked : Node :=
  .mk ⟨0⟩ (.element "div") [
    .mk ⟨1⟩ (.block "p" 0 true) [
      .mk ⟨2⟩ (.wrapper (.single "b")) [.mk ⟨3⟩ (.text "ab") []],
      .mk ⟨4⟩ (.embed "math") [.mk ⟨5⟩ (.text "xy") []]],
    .mk ⟨6⟩ (.element "hr") [],
    .mk ⟨7⟩ (.block "p" 1 true) [
      .mk ⟨8⟩ (.lineBreak false) [],
      .mk ⟨9⟩ (.wrapper (.single "b")) [.mk ⟨10⟩ (.text "cd") []]]]

-- Two blocks, with the last char of the first one selected up to the first char of the second one.
def Editor.stacked : Editor where
  document := ⟨⟨[.stacked], 11⟩, ⟨0⟩⟩
  live := some ⟨⟨⟨3⟩, 1⟩, ⟨⟨10⟩, 1⟩⟩
  config := {}

theorem SimpleDocument.stacked : SimpleDocument Editor.stacked.document .stacked where
  wf := by decide
  root := .head _
  id_eq := rfl
  not_isEmbed := rfl
  child := by decide
  editable := by decide
  leaves := by decide
  simple := by decide
  distinct := by decide

theorem Editor.toggle_selection_stacked :
    let s : BlockSelection := ⟨⟨0, 1⟩, ⟨1, 2⟩⟩
    let t := Editor.stacked.tree
    let t' := (Editor.stacked.restyle .toggle "b").2.tree
    SimpleDocument Editor.stacked.document .stacked ∧ t.Addresses .stacked s.anchor ∧
      t.Addresses .stacked s.head ∧ Editor.stacked.Selects s ∧ t.SharesCovered .stacked s "b" ∧
      (∀ b ∈ Node.stacked.children, ∀ i, b.kind.blockIndex? = some i →
        t'.glyphs b.id = t.glyphsCovered b.id i s (Glyph.removeStyle "b")) ∧
      ∀ n ∈ Node.stacked.children, n.kind.blockIndex? = none → t'.node? n.id = some n := by
  intro s t
  have ha : t.Addresses .stacked s.anchor := by decide
  have hh : t.Addresses .stacked s.head := by decide
  have hs : Editor.stacked.Selects s := ⟨by decide, by decide⟩
  have hsh : t.SharesCovered .stacked s "b" := by decide +kernel
  have ⟨hg, hn, _⟩ := Editor.toggle_selection .stacked ha hh hs "b"
  refine ⟨.stacked, ha, hh, hs, hsh, fun b hb i hi => ?_, hn⟩
  exact (hg b hb i hi).trans (congrArg (t.glyphsCovered b.id i s) (if_pos hsh))

end RichText
