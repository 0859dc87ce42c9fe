import RichText.Proofs.Navigable
import RichText.Proofs.SimpleDocument

namespace RichText

namespace Node

theorem eq_of_mem_preorder {n m : Node} (h : m ∈ n.preorder) (h' : n ∈ m.preorder) : n = m := by
  have e := (preorder_sublist n h).eq_of_length_le (preorder_sublist m h').length_le
  rw [preorder_eq m, preorder_eq n] at e
  exact (List.head_eq_of_cons_eq e).symm

end Node

namespace Kind

theorem blockIndex?_isSome {k : Kind} (h : k.isEditableBlock) : k.blockIndex?.isSome := by
  cases k <;> simp_all [isEditableBlock, blockIndex?]

theorem isLeaf_of_isEditableBlock {k : Kind} (h : k.isEditableBlock) : k.isLeaf = false := by
  cases k <;> simp_all [isEditableBlock, isLeaf, isText, isBreak]

theorem isLeaf_of_isCell {k : Kind} (h : k.isCell) : k.isLeaf = false := by
  cases k <;> simp_all [isCell, isLeaf, isText, isBreak]

end Kind

namespace Tree

variable {t : Tree} {root block : NodeId} {b n : Node} {o : Nat}

theorem exists_of_mem_preorder (h : b ∈ t.preorder root) :
    ∃ r, t.node? root = some r ∧ b ∈ r.preorder := by
  cases hr : t.node? root with
  | none => simp [preorder, hr] at h
  | some r => exact ⟨r, rfl, by simpa [preorder, hr] using h⟩

theorem WellFormed.node?_of_mem_root (wf : t.WellFormed) (h : b ∈ t.preorder root) :
    t.node? b.id = some b :=
  have ⟨_, hr, hb⟩ := exists_of_mem_preorder h
  wf.node?_of_mem_preorder hr hb

theorem exists_of_blockAt? (h : t.blockAt? root index = some block) :
    ∃ b ∈ t.preorder root, b.id = block ∧ b.kind.blockIndex? = some index := by
  have ⟨b, hf, e⟩ := Option.map_eq_some_iff.mp h
  exact ⟨b, List.mem_of_find?_eq_some hf, e, by simpa using List.find?_some hf⟩

theorem WellFormed.ne_of_contains (wf : t.WellFormed) (hb : t.node? block = some b)
    (h : t.contains block i = false) (hn : n ∈ b.preorder) : n.id ≠ i := by
  intro e
  have hi := (wf.contains_iff hb (e ▸ wf.node?_of_mem_preorder hb hn)).mpr hn
  simp [h] at hi

theorem WellFormed.contains_root (wf : t.WellFormed) (hr : t.blockIndex? root = none)
    (hb : b ∈ t.preorder root) (hi : b.kind.blockIndex?.isSome) : t.contains b.id root = false := by
  rw [Bool.eq_false_iff]
  intro hc
  have ⟨r, hn, hbr⟩ := exists_of_mem_preorder hb
  have hrb := (wf.contains_iff (wf.node?_of_mem_root hb) hn).mp hc
  have e := Node.eq_of_mem_preorder hrb hbr
  simp [blockIndex?, kind?, hn, ← e] at hr
  simp [hr] at hi

structure IsBlock (t : Tree) (root block : NodeId) (b : Node) : Prop where
  node : t.node? block = some b
  editable : b.kind.isEditableBlock
  outside : t.contains block root = false
  flat : ∀ n ∈ Node.preorderAll b.children, n.kind.blockIndex? = none

namespace IsBlock

variable (h : t.IsBlock root block b)

include h

theorem not_isLeaf : b.kind.isLeaf = false :=
  Kind.isLeaf_of_isEditableBlock h.editable

theorem blockOf? (wf : t.WellFormed) (hn : n ∈ b.preorder) : t.blockOf? root n.id = some block := by
  have ⟨upper, hu, hm⟩ := wf.lineage_beneath h.node hn
  have ⟨above, ha⟩ := lineage_eq_cons h.node
  have hb : block ≠ root := id_of_node? h.node ▸ wf.ne_of_contains h.node h.outside b.mem_preorder_self
  have hne : ∀ a ∈ upper, decide (a.1 ≠ root) := by
    intro a ha
    have ⟨m, hm, e, _⟩ := hm a ha
    have hm : m ∈ b.preorder := by simp [Node.preorder_eq, hm]
    exact decide_eq_true (e ▸ wf.ne_of_contains h.node h.outside hm)
  have hf : upper.find? (·.2.blockIndex?.isSome) = none := by
    refine List.find?_eq_none.mpr fun a ha => ?_
    have ⟨m, hm, _, e⟩ := hm a ha
    simp [← e, h.flat m hm]
  rw [Tree.blockOf?, hu, ha, List.takeWhile_append_of_pos hne,
    List.takeWhile_cons_of_pos (by simpa using hb), List.find?_append, hf]
  simp [Kind.blockIndex?_isSome h.editable, h.editable]

theorem blockPoint?_resolve (wf : t.WellFormed) (hi : b.kind.blockIndex? = some i)
    (hb : b.Navigable) (hu : t.Unenclosed block o) (ho : o ≤ b.charCount) :
    t.blockPoint? root (t.resolve block o) = some ⟨i, o⟩ := by
  have ⟨n, hn, e⟩ := resolve_mem h.node h.not_isLeaf o
  have hk : t.blockIndex? block = some i := by simp [blockIndex?, kind?, h.node, hi]
  simp [blockPoint?, ← e, h.blockOf? wf hn, hk,
    offsetOf_resolve_of_unenclosed wf h.node h.not_isLeaf hb hu ho]

end IsBlock

-- The blocks under a root can be told apart, and their offsets lead somewhere, as those of cells do.
structure Addressable (t : Tree) (root : NodeId) : Prop where
  distinct : (t.preorder root).Pairwise fun b c =>
    b.kind.blockIndex? = c.kind.blockIndex? → b.kind.blockIndex? = none
  flat : ∀ b ∈ t.preorder root, b.kind.blockIndex?.isSome →
    ∀ n ∈ Node.preorderAll b.children, n.kind.blockIndex? = none
  block : ∀ b ∈ t.preorder root, b.kind.isEditableBlock → b.Readable
  cell : ∀ c ∈ Node.preorderAll t.roots, c.kind.isCell → c.Readable

instance : Decidable (t.Addressable root) :=
  decidable_of_iff (_ ∧ _ ∧ _ ∧ _)
    ⟨fun h => ⟨h.left, h.right.left, h.right.right.left, h.right.right.right⟩,
    fun h => ⟨h.distinct, h.flat, h.block, h.cell⟩⟩

structure HasOffset (t : Tree) (b : Node) (o : Nat) : Prop where
  le : o ≤ b.charCount
  unenclosed : t.Unenclosed b.id o

instance : Decidable (t.HasOffset b o) :=
  decidable_of_iff (_ ∧ _) ⟨fun h => ⟨h.left, h.right⟩, fun h => ⟨h.le, h.unenclosed⟩⟩

structure Editable (t : Tree) (root : NodeId) (index : Nat) (b : Node) : Prop where
  mem : b ∈ t.preorder root
  kind : b.kind.isEditableBlock
  blockIndex? : b.kind.blockIndex? = some index

namespace Addressable

variable (h : t.Addressable root)

include h

theorem leavesEmpty (hb : t.Editable root index b) : b.LeavesEmpty :=
  (h.block b hb.mem hb.kind).leavesEmpty (Kind.isLeaf_of_isEditableBlock hb.kind)

theorem leavesEmpty_cell (hb : b ∈ Node.preorderAll t.roots) (hk : b.kind.isCell) :
    b.LeavesEmpty :=
  (h.cell b hb hk).leavesEmpty (Kind.isLeaf_of_isCell hk)

theorem isBlock (wf : t.WellFormed) (hr : t.blockIndex? root = none)
    (hb : t.Editable root index b) : t.IsBlock root b.id b where
  node := wf.node?_of_mem_root hb.mem
  editable := hb.kind
  outside := wf.contains_root hr hb.mem (by simp [hb.blockIndex?])
  flat := h.flat b hb.mem (by simp [hb.blockIndex?])

theorem blockAt?_of_mem (hb : b ∈ t.preorder root) (hi : b.kind.blockIndex? = some index) :
    t.blockAt? root index = some b.id := by
  have hf : ((t.preorder root).find? (·.kind.blockIndex? = some index)).isSome :=
    List.find?_isSome.mpr ⟨b, hb, decide_eq_true hi⟩
  have ⟨c, hc⟩ := Option.isSome_iff_exists.mp hf
  have hi' : c.kind.blockIndex? = some index := by simpa using List.find?_some hc
  have e := Node.eq_of_blockIndex? h.distinct hb (List.mem_of_find?_eq_some hc) hi hi'
  rw [blockAt?, hc, Option.map_some, e]

theorem editableBlock_of_editable (wf : t.WellFormed) (hb : t.Editable root index b) :
    t.editableBlock root index = .ok b.id := by
  have hk : t.isEditableBlock b.id := by
    simp [isEditableBlock, kind?, wf.node?_of_mem_root hb.mem, hb.kind]
  simp [editableBlock, h.blockAt?_of_mem hb.mem hb.blockIndex?, hk]

end Addressable

theorem exists_editable (wf : t.WellFormed) (h : t.editableBlock root index = .ok block) :
    ∃ b, t.Editable root index b := by
  rw [editableBlock] at h
  split at h
  case h_2 => contradiction
  case h_1 i hi =>
    obtain ⟨b, hm, e, hk⟩ := exists_of_blockAt? hi
    refine ⟨b, hm, ?_, hk⟩
    by_contra he
    simp [← e, isEditableBlock, kind?, wf.node?_of_mem_root hm, he] at h

def HasPoint (t : Tree) (root : NodeId) (p : BlockPoint) : Prop :=
  ∃ b, t.Editable root p.block b ∧ t.HasOffset b p.offset

def CanPlace (t : Tree) (root : NodeId) (p : BlockPoint) : Prop :=
  ∃ block, t.editableBlock root p.block = .ok block ∧
    t.blockPoint? root (t.resolve block p.offset) = some p

theorem Addressable.canPlace (h : t.Addressable root) (wf : t.WellFormed)
    (hr : t.blockIndex? root = none) {p : BlockPoint} (hp : t.HasPoint root p) :
    t.CanPlace root p := by
  have ⟨b, hb, ho⟩ := hp
  have hblock := h.isBlock wf hr hb
  have hn := navigable_of_readable wf hblock.node hblock.not_isLeaf (h.block b hb.mem hb.kind)
  exact ⟨b.id, h.editableBlock_of_editable wf hb,
    hblock.blockPoint?_resolve wf hb.blockIndex? hn ho.unenclosed ho.le⟩

theorem readSelection_of_canPlace {s : BlockSelection} (ha : t.CanPlace root s.anchor)
    (hh : t.CanPlace root s.head) (live : Option LiveSelection) :
    t.readSelection root (t.setSelection root s live) = .ok s := by
  have ⟨_, hae, har⟩ := ha
  have ⟨_, hhe, hhr⟩ := hh
  simp [setSelection, placeSelection, hae, hhe, bind, Except.bind, pure, Except.pure,
    Except.toOption, readSelection, har, hhr]

theorem selectionIn?_placeSelectionIn {c : Node} {s : Selection} (wf : t.WellFormed)
    (hc : t.node? c.id = some c) (hk : c.kind.isLeaf = false) (hn : c.Navigable)
    (ha : t.HasOffset c s.anchor) (hh : t.HasOffset c s.head) :
    t.selectionIn? c.id (some (t.placeSelectionIn c.id s)) = some s := by
  have inside (o : Nat) : t.contains c.id (t.resolve c.id o).node := by
    have ⟨n, hm, e⟩ := resolve_mem hc hk o
    exact e ▸ (wf.contains_iff hc (wf.node?_of_mem_preorder hc hm)).mpr hm
  simp [selectionIn?, placeSelectionIn, inside,
    offsetOf_resolve_of_unenclosed wf hc hk hn ha.unenclosed ha.le,
    offsetOf_resolve_of_unenclosed wf hc hk hn hh.unenclosed hh.le]

theorem exists_editable_of_placeSelection {s : BlockSelection} {live : LiveSelection}
    (wf : t.WellFormed) (h : t.placeSelection root s = .ok live) :
    (∃ b, t.Editable root s.anchor.block b) ∧ ∃ b, t.Editable root s.head.block b := by
  have ⟨_, ha, h⟩ := bind_eq_ok.mp h
  have ⟨_, hh, _⟩ := bind_eq_ok.mp h
  exact ⟨exists_editable wf ha, exists_editable wf hh⟩

-- A selection that is set is the one that is read, in cells, and in blocks under a root that is no block
-- itself. Where an index is not that of an editable block, what was selected stays selected.
theorem readSelection_setSelection (wf : t.WellFormed) (h : t.Addressable root)
    (live : Option LiveSelection) :
    (t.blockIndex? root = none → ∀ s, t.HasPoint root s.anchor → t.HasPoint root s.head →
      t.readSelection root (t.setSelection root s live) = .ok s) ∧
    (∀ c ∈ Node.preorderAll t.roots, c.kind.isCell → ∀ s : Selection, t.HasOffset c s.anchor →
      t.HasOffset c s.head → t.selectionIn? c.id (some (t.placeSelectionIn c.id s)) = some s) ∧
    ∀ s, (∀ b, ¬t.Editable root s.anchor.block b) ∨ (∀ b, ¬t.Editable root s.head.block b) →
      t.setSelection root s live = live := by
  refine ⟨fun hr s ha hh => ?blocks, fun c hc hk s ha hh => ?cell, fun s hs => ?unknown⟩
  case blocks => exact readSelection_of_canPlace (h.canPlace wf hr ha) (h.canPlace wf hr hh) live
  case cell =>
    have hn := node?_of_mem wf.nodup hc
    have hl := Kind.isLeaf_of_isCell hk
    exact selectionIn?_placeSelectionIn wf hn hl (navigable_of_readable wf hn hl (h.cell c hc hk))
      ha hh
  case unknown =>
    cases hp : t.placeSelection root s with
    | error => simp [setSelection, hp, Except.toOption]
    | ok =>
      obtain ⟨⟨b, hb⟩, c, hc⟩ := exists_editable_of_placeSelection wf hp
      exact hs.elim (fun hs => absurd hb (hs b)) fun hs => absurd hc (hs c)

-- A cell between two paragraphs, the first of which has an embed in the middle.
def table : Tree where
  roots := [.mk ⟨0⟩ (.element "div") [
    .mk ⟨1⟩ (.block "p" 2 true) [
      .mk ⟨2⟩ (.text "ab") [],
      .mk ⟨3⟩ (.wrapper (.single "b")) [.mk ⟨4⟩ (.embed "math") [.mk ⟨5⟩ (.text "xy") []]],
      .mk ⟨6⟩ (.text "c") []],
    .mk ⟨7⟩ (.block "table" 1 false) [
      .mk ⟨8⟩ (.cell "td" 0) [.mk ⟨9⟩ (.text "de") [], .mk ⟨10⟩ (.lineBreak true) []]],
    .mk ⟨11⟩ (.block "p" 0 true) [.mk ⟨12⟩ (.lineBreak false) [], .mk ⟨13⟩ (.text "f") []]]]
  made := 14

-- Backwards from the last paragraph to the place after the embed, and within the cell.
theorem readSelection_setSelection_table :
    table.WellFormed ∧ table.Addressable ⟨0⟩ ∧ table.HasPoint ⟨0⟩ ⟨0, 2⟩ ∧
      table.HasPoint ⟨0⟩ ⟨2, 4⟩ ∧
      table.readSelection ⟨0⟩ (table.setSelection ⟨0⟩ ⟨⟨0, 2⟩, ⟨2, 4⟩⟩ none) =
        .ok ⟨⟨0, 2⟩, ⟨2, 4⟩⟩ ∧
      table.selectionIn? ⟨8⟩ (some (table.placeSelectionIn ⟨8⟩ ⟨2, 1⟩)) = some ⟨2, 1⟩ ∧
      table.setSelection ⟨0⟩ ⟨⟨0, 2⟩, ⟨1, 0⟩⟩ none = none := by
  have wf : table.WellFormed := by decide
  have h : table.Addressable ⟨0⟩ := by decide
  have ha : table.HasPoint ⟨0⟩ ⟨0, 2⟩ :=
    ⟨.mk ⟨11⟩ (.block "p" 0 true) [.mk ⟨12⟩ (.lineBreak false) [], .mk ⟨13⟩ (.text "f") []],
      ⟨by decide, rfl, rfl⟩, by decide⟩
  have hh : table.HasPoint ⟨0⟩ ⟨2, 4⟩ :=
    ⟨.mk ⟨1⟩ (.block "p" 2 true) (table.children ⟨1⟩), ⟨by decide, rfl, rfl⟩, by decide⟩
  have ⟨hb, hc, hu⟩ := readSelection_setSelection wf h none
  refine ⟨wf, h, ha, hh, hb rfl _ ha hh, ?cell, hu _ (.inr fun b hb => ?unknown)⟩
  case cell =>
    exact hc (.mk ⟨8⟩ (.cell "td" 0) (table.children ⟨8⟩)) (by decide) rfl _ (by decide) (by decide)
  case unknown =>
    have hn : ∀ b ∈ table.preorder ⟨0⟩, b.kind.isEditableBlock → b.kind.blockIndex? ≠ some 1 := by
      decide
    exact hn b hb.mem hb.kind hb.blockIndex?

def rooted : Tree where
  roots := [.mk ⟨0⟩ (.block "p" 0 true) [.mk ⟨1⟩ (.text "ab") []]]
  made := 2

def overgrown : Tree where
  roots := [.mk ⟨0⟩ (.element "div") [
    .mk ⟨1⟩ (.block "p" 0 true) [.mk ⟨2⟩ (.text "ab") [.mk ⟨3⟩ (.text "cd") []]]]]
  made := 4

-- The way up to a block ends before the root, so a root that is a block is never read. A text that has
-- a child is counted, but it is not where offsets lead, even if there is just one block, and neither
-- an embed nor a break.
theorem readSelection_rooted :
    (rooted.WellFormed ∧ rooted.Addressable ⟨0⟩ ∧ rooted.HasPoint ⟨0⟩ ⟨0, 1⟩ ∧
      rooted.readSelection ⟨0⟩ (rooted.setSelection ⟨0⟩ (.caret ⟨0, 1⟩) none) =
        .error .noSelection) ∧
    overgrown.WellFormed ∧ (overgrown.preorder ⟨0⟩).filterMap (·.kind.blockIndex?) = [0] ∧
      (∀ n ∈ Node.preorderAll overgrown.roots, n.kind.isAtomic = false) ∧
      overgrown.HasPoint ⟨0⟩ ⟨0, 1⟩ ∧
      overgrown.readSelection ⟨0⟩ (overgrown.setSelection ⟨0⟩ (.caret ⟨0, 1⟩) none) =
        .ok (.caret ⟨0, 3⟩) := by
  have hr : rooted.HasPoint ⟨0⟩ ⟨0, 1⟩ :=
    ⟨.mk ⟨0⟩ (.block "p" 0 true) (rooted.children ⟨0⟩), ⟨by decide, rfl, rfl⟩, by decide⟩
  have ho : overgrown.HasPoint ⟨0⟩ ⟨0, 1⟩ :=
    ⟨.mk ⟨1⟩ (.block "p" 0 true) (overgrown.children ⟨1⟩), ⟨by decide, rfl, rfl⟩, by decide⟩
  exact ⟨⟨by decide, by decide, hr, rfl⟩, by decide, by decide, by decide, ho, rfl⟩

end Tree

end RichText
