import RichText.Proofs.Command
import RichText.Proofs.DocumentOrder

namespace RichText

namespace Tree

variable {t t' : Tree} {root block : NodeId} {b n : Node} {cs : List Node} {o : Nat}

theorem HasOffset.of_outline (h : t.HasOffset n o) (wf : t.WellFormed) (wf' : t'.WellFormed)
    (hn : t.node? n.id = some n) (hn' : t'.node? n.id = some (n.withChildren cs))
    (hk : n.kind.isLeaf = false) (hv : n.Navigable) (hv' : (n.withChildren cs).Navigable)
    (e : Node.outlineAll cs = Node.outlineAll n.children) : t'.HasOffset (n.withChildren cs) o where
  le := by
    have hl : (n.withChildren cs).lines = n.lines := by
      rw [Node.lines_eq_ofMarks, Node.lines_eq_ofMarks, Node.marks_withChildren e]
    rw [Node.charCount, hl]
    exact h.le
  unenclosed := by
    have hu := (unenclosed_iff wf hn hk hv).mp h.unenclosed
    refine (unenclosed_iff wf' hn' hk hv').mpr ?_
    rw [Node.children_withChildren, ← Node.outlineAll_sights, e, Node.outlineAll_sights]
    exact hu

theorem WellFormed.offsetOf_le (wf : t.WellFormed) (hb : t.node? block = some b)
    (he : b.LeavesEmpty) {p : Position} (hp : t.contains block p.node) :
    t.offsetOf block p ≤ b.charCount := by
  have ⟨b', n, hb', hn, hm⟩ := wf.exists_of_contains hp
  cases hb.symm.trans hb'
  have e := wf.offsetOf_of_mem (k := p.offset) hb hm
  rw [id_of_node? hn] at e
  exact e ▸ Node.offsetOf_le (wf.nodup_ids hb) he hm p.offset

theorem Addressable.exists_editable_of_blockPoint? (h : t.Addressable root) (wf : t.WellFormed)
    {pos : Position} {p : BlockPoint} (hc : t.contains root pos.node)
    (hp : t.blockPoint? root pos = some p) :
    ∃ b, t.Editable root p.block b ∧ b.id ≠ root ∧ p.offset ≤ b.charCount := by
  obtain ⟨r, n, hr, hn, hm⟩ := wf.exists_of_contains hc
  obtain ⟨upper, hu, hup⟩ := wf.lineage_beneath hr hm
  obtain ⟨above, ha⟩ := lineage_eq_cons hr
  obtain ⟨block, hb, hp⟩ := Option.bind_eq_some_iff.mp hp
  obtain ⟨index, hi, hp⟩ := Option.bind_eq_some_iff.mp hp
  cases hp
  rw [id_of_node? hn] at hu
  rw [blockOf?, hu, ha, List.takeWhile_append_cons (by simp)] at hb
  split at hb
  case h_2 => contradiction
  case h_1 _ k hf =>
    obtain ⟨hk, hb⟩ := Option.ite_none_right_eq_some.mp hb
    cases hb
    have hmem := (List.takeWhile_sublist _).subset (List.mem_of_find?_eq_some hf)
    obtain ⟨b, hb, hbi, hbk⟩ := hup _ hmem
    have hbi : b.id = block := hbi
    have hbk : b.kind = k := hbk
    have hroot : b ∈ t.preorder root := by simp [preorder, hr, Node.preorder_eq, hb]
    have hn : t.node? block = some b := hbi ▸ wf.node?_of_mem_root hroot
    have hin : t.contains block pos.node := by
      rw [contains, hu, List.any_eq_true]
      exact ⟨_, List.mem_append_left _ hmem, by simp⟩
    have hi : b.kind.blockIndex? = some index := by simpa [blockIndex?, kind?, hn] using hi
    have hne : b.id ≠ root := by
      have hd := wf.nodup_ids hr
      rw [Node.ids_eq, List.nodup_cons, id_of_node? hr] at hd
      exact fun e => hd.left (Node.mem_idsAll_iff.mpr ⟨b, hb, e⟩)
    have hbe : t.Editable root index b := ⟨hroot, hbk ▸ hk, hi⟩
    exact ⟨b, hbe, hne, wf.offsetOf_le hn (h.leavesEmpty hbe) hin⟩

theorem Addressable.blockIndex?_root (h : t.Addressable root) (hb : t.Editable root index b)
    (hne : b.id ≠ root) : t.blockIndex? root = none := by
  have ⟨r, hr, hm⟩ := exists_of_mem_preorder hb.mem
  have hself : r ∈ t.preorder root := by simp [preorder, hr, Node.mem_preorder_self]
  rw [Node.preorder_eq, List.mem_cons] at hm
  cases hm
  case inl e => exact absurd (by rw [e, id_of_node? hr]) hne
  case inr hm =>
    by_contra hi
    have hi : r.kind.blockIndex?.isSome := by
      simpa [blockIndex?, kind?, hr, Option.isSome_iff_ne_none] using hi
    simpa [hb.blockIndex?] using h.flat r hself hi b hm

namespace Revised

variable {blocks : List NodeId} (h : t.Revised t' blocks)

include h

theorem blockAt?_eq (hr : t.node? root = some n)
    (ho : n.kind.isSolid ∨ ∀ block ∈ blocks, t.contains block root = false) (index : Nat) :
    t'.blockAt? root index = t.blockAt? root index := by
  have ⟨_, hr', ha⟩ := h.alike hr ho
  exact blockAt?_congr hr hr' ha.solids index

-- The blocks that are edited lie under the root.
variable (wf : t.WellFormed) (ha : t.Addressable root) (hr : t.blockIndex? root = none)
  (hb : ∀ block ∈ blocks, ∃ index c, t.Editable root index c ∧ c.id = block)

include wf hr hb

omit h in
theorem outside_root : ∀ block ∈ blocks, t.contains block root = false := by
  intro block hm
  have ⟨_, c, hc, e⟩ := hb block hm
  exact e ▸ wf.contains_root hr hc.mem (by simp [hc.blockIndex?])

include ha

theorem exists_isBlock (he : t.Editable root index b) :
    ∃ cs, t'.IsBlock root b.id (b.withChildren cs) ∧ (b.withChildren cs).LeavesEmpty ∧
      Node.outlineAll cs = Node.outlineAll b.children := by
  have hblock := ha.isBlock wf hr he
  obtain ⟨r, hroot, _⟩ := exists_of_mem_preorder he.mem
  have hs : b.kind.isSolid := Kind.isSolid_of_isRegion (by simp [Kind.isRegion, he.blockIndex?])
  obtain ⟨cs, hn, e⟩ := h.recut hblock.node hs (ha.leavesEmpty he) fun block hm hne hid => by
    obtain ⟨_, c, hc, e⟩ := hb block hm
    obtain ⟨m, hm, e'⟩ := Node.mem_ids_iff.mp hid
    have hmc := Node.eq_of_id_eq wf.nodup (t.mem_of_node? (wf.node?_of_mem_preorder hblock.node hm))
      (mem_of_node? (wf.node?_of_mem_root hc.mem)) (e'.trans e.symm)
    rw [Node.preorder_eq, List.mem_cons] at hm
    cases hm
    case inl hm => exact hne (by rw [← e', hm])
    case inr hm =>
      have hf := hblock.flat m hm
      simp [hmc, hc.blockIndex?] at hf
  have hl := h.leavesEmpty_of_node? hblock.node hs (ha.leavesEmpty he) hn
  refine ⟨cs, ⟨hn, hblock.editable, ?outside, fun n hn' => ?flat⟩, hl, e⟩
  case outside =>
    rw [h.contains_eq hroot (outside_root wf hr hb)]
    exact hblock.outside
  case flat =>
    by_contra hi
    have hst := Kind.isStyleable_of_isSolid (Kind.isSolid_of_isRegion (k := n.kind)
      (by simp [Kind.isRegion, Option.isSome_iff_ne_none, hi]))
    have hm := Node.mem_preorderAll_of_outline_eq e hl.children hn' hst
    exact hi (hblock.flat n hm)

theorem canPlace {p : BlockPoint} (hp : t.HasPoint root p) : t'.CanPlace root p := by
  have ⟨b, hbe, ho⟩ := hp
  have hblock := ha.isBlock wf hr hbe
  have ⟨r, hroot, _⟩ := exists_of_mem_preorder hbe.mem
  have ⟨cs, hblock', hl, e⟩ := h.exists_isBlock wf ha hr hb hbe
  have hv := navigable_of_readable wf hblock.node hblock.not_isLeaf (ha.block b hbe.mem hbe.kind)
  have hv' := hv.of_outline e hl.children
  have ho' := ho.of_outline wf h.wf hblock.node hblock'.node hblock.not_isLeaf hv hv' e
  refine ⟨b.id, ?editable, ?point⟩
  case editable =>
    have hat := h.blockAt?_eq hroot (.inr (outside_root wf hr hb)) p.block
    rw [ha.blockAt?_of_mem hbe.mem hbe.blockIndex?] at hat
    simp [editableBlock, hat, isEditableBlock, kind?, hblock'.node, hbe.kind]
  case point =>
    exact hblock'.blockPoint?_resolve h.wf hbe.blockIndex? hv' ho'.unenclosed ho'.le

end Revised

theorem Revised.selectionIn?_placeSelectionIn {cell : NodeId} {c : Node} {s : Selection}
    {blocks : List NodeId} (h : t.Revised t' blocks) (hb : ∀ block ∈ blocks, block = cell)
    (wf : t.WellFormed) (hn : t.node? cell = some c) (hk : c.kind.isCell) (hr : c.Readable)
    (ha : t.HasOffset c s.anchor) (hh : t.HasOffset c s.head) :
    t'.selectionIn? cell (some (t'.placeSelectionIn cell s)) = some s := by
  have hs : c.kind.isSolid := Kind.isSolid_of_isRegion (by simp [Kind.isRegion, hk])
  have hl := Kind.isLeaf_of_isCell hk
  have he := hr.leavesEmpty hl
  obtain ⟨cs, hn', e⟩ := h.recut hn hs he fun block hm hne => absurd (hb block hm) hne
  have hv := navigable_of_readable wf hn hl hr
  have hv' := hv.of_outline e (h.leavesEmpty_of_node? hn hs he hn').children
  have hi := id_of_node? hn
  subst hi
  have place {o} (ho : t.HasOffset c o) := ho.of_outline wf h.wf hn hn' hl hv hv' e
  exact Tree.selectionIn?_placeSelectionIn (c := c.withChildren cs) h.wf hn' hl hv' (place ha) (place hh)

theorem hasOffset_of_selectionIn? {cell : NodeId} {c : Node} {s : Selection} (wf : t.WellFormed)
    (hn : t.node? cell = some c) (he : c.LeavesEmpty) (h : t.selectionIn? cell live = some s)
    (ha : t.Unenclosed cell s.anchor) (hh : t.Unenclosed cell s.head) :
    t.HasOffset c s.anchor ∧ t.HasOffset c s.head := by
  have ⟨live, _, h⟩ := Option.bind_eq_some_iff.mp h
  have ⟨hc, h⟩ := Option.ite_none_right_eq_some.mp h
  cases h
  rw [Bool.and_eq_true] at hc
  have hi := id_of_node? hn
  exact ⟨⟨wf.offsetOf_le hn he hc.left, hi ▸ ha⟩, ⟨wf.offsetOf_le hn he hc.right, hi ▸ hh⟩⟩

section Blocks

variable {live : LiveSelection} {s : BlockSelection}

theorem blockPoint?_of_readSelection (h : t.readSelection root (some live) = .ok s) :
    t.blockPoint? root live.anchor = some s.anchor ∧
      t.blockPoint? root live.focus = some s.head := by
  rw [readSelection] at h
  split at h
  case h_1 ha hh =>
    cases h
    exact ⟨ha, hh⟩
  case h_2 => contradiction

theorem Revised.readSelection_eq {blocks : List NodeId} (h : t.Revised t' blocks)
    (hb : ∀ block ∈ blocks, ∃ index c, t.Editable root index c ∧ c.id = block)
    (wf : t.WellFormed) (hr : t.Addressable root) (hs : t.readSelection root (some live) = .ok s)
    (hal : t.contains root live.anchor.node) (hhl : t.contains root live.focus.node)
    (ha : ∀ b, t.Editable root s.anchor.block b → t.Unenclosed b.id s.anchor.offset)
    (hh : ∀ b, t.Editable root s.head.block b → t.Unenclosed b.id s.head.offset)
    (live' : Option LiveSelection) :
    t'.readSelection root (t'.setSelection root s live') = .ok s := by
  have ⟨hap, hhp⟩ := blockPoint?_of_readSelection hs
  have ⟨a, hae, hne, hale⟩ := hr.exists_editable_of_blockPoint? wf hal hap
  have ⟨b, hbe, _, hble⟩ := hr.exists_editable_of_blockPoint? wf hhl hhp
  have hroot := hr.blockIndex?_root hae hne
  have hpa := h.canPlace wf hr hroot hb ⟨a, hae, hale, ha a hae⟩
  have hph := h.canPlace wf hr hroot hb ⟨b, hbe, hble, hh b hbe⟩
  exact readSelection_of_canPlace hpa hph live'

end Blocks

end Tree

namespace Editor

variable {e : Editor} {cell : NodeId}

theorem readSelection?_eq_some {s : BlockSelection} :
    e.readSelection? = some s ↔ e.tree.readSelection e.root e.live = .ok s := by
  rw [readSelection?]
  cases e.tree.readSelection e.root e.live <;> simp [Except.toOption]

theorem live_restore_blocks (e : Editor) (s : BlockSelection) (ps : List Part) :
    (e.restore (.blocks s ps)).live = e.tree.setSelection e.root s e.live := by
  rw [restore]
  cases h : e.tree.placeSelection e.root s <;> simp [Tree.setSelection, h, Except.toOption]

theorem root_restore (e : Editor) (target : Target) : (e.restore target).root = e.root := by
  cases target with
  | cell => rfl
  | blocks s _ =>
    rw [restore]
    split <;> rfl

theorem leavesEmpty_of_covered (wf : e.tree.WellFormed) (h : e.tree.Addressable e.root) :
    ∀ block ∈ e.covered, ∀ b, e.tree.node? block = some b → b.LeavesEmpty := by
  intro block hm b hb
  have ⟨p, hp, hi⟩ := List.mem_map.mp hm
  cases ht : e.target? with
  | none => simp [ht] at hp
  | some target =>
    simp only [ht, Option.map_some, Option.getD_some] at hp
    have ⟨b', hb', hk⟩ := exists_of_target? wf ht hp
    cases hb.symm.trans (hi ▸ hb')
    obtain hk | ⟨_, hk⟩ := hk
    case inl => exact h.leavesEmpty_cell (Tree.mem_of_node? hb) hk
    case inr => exact h.leavesEmpty hk

-- A command puts a selection back where it was read, in blocks under the root or in a cell, unless one
-- of its ends is in an embed. If nothing is selected, nothing is changed.
theorem selection_restyle (wf : e.tree.WellFormed) (h : e.tree.Addressable e.root)
    (command : Command) (tag : String) :
    let e' := (e.restyle command tag).2
    ((e.restyle command tag).1 = false → e' = e) ∧
    (∀ cell s, e.tree.selectedCell? e.root e.live = some cell →
      e.tree.selectionIn? cell e.live = some s →
      e.tree.Unenclosed cell s.anchor → e.tree.Unenclosed cell s.head →
      e'.tree.selectionIn? cell e'.live = some s) ∧
    ∀ live s, e.live = some live → e.Selects s → e.tree.contains e.root live.anchor.node →
      e.tree.contains e.root live.focus.node →
      (∀ b, e.tree.Editable e.root s.anchor.block b → e.tree.Unenclosed b.id s.anchor.offset) →
      (∀ b, e.tree.Editable e.root s.head.block b → e.tree.Unenclosed b.id s.head.offset) →
      e'.readSelection? = some s := by
  have hrev := revised_restyle wf (leavesEmpty_of_covered wf h) command tag
  obtain hr | ⟨target, clears, ht, hr⟩ := e.restyle_cases command tag
  case inl =>
    rw [hr]
    exact ⟨fun _ => rfl, fun _ _ _ hs _ _ => hs, fun _ _ _ hs _ _ _ _ => hs.readSelection?⟩
  case inr =>
    rw [hr] at hrev ⊢
    refine ⟨nofun, fun cell s hc hs ha hh => ?cell, fun live s hl hs hal hhl ha hh => ?blocks⟩
    case cell =>
      have ht' : e.target? = some (.cell cell s) := by simp [target?, hc, hs]
      cases ht.symm.trans ht'
      have hb : ∀ block ∈ e.covered, block = cell := by
        rw [covered_of_target? ht', Target.parts]
        split <;> simp
      obtain ⟨c, hn, hk⟩ := Tree.exists_of_selectedCell? wf hc
      have hm := Tree.mem_of_node? hn
      obtain ⟨hao, hho⟩ := Tree.hasOffset_of_selectionIn? wf hn (h.leavesEmpty_cell hm hk) hs ha hh
      have hrd := h.cell c hm hk
      exact hrev.selectionIn?_placeSelectionIn hb wf hn hk hrd hao hho
    case blocks =>
      cases ht.symm.trans (target?_eq hs.selectedCell? hs.readSelection?)
      have hb : ∀ block ∈ e.covered, ∃ index c, e.tree.Editable e.root index c ∧ c.id = block := by
        rw [covered_of_target? ht, Target.parts]
        exact List.forall_mem_map.mpr fun p hp => exists_editable_of_mem_parts wf hp
      have hread := hl ▸ readSelection?_eq_some.mp hs.readSelection?
      rw [tree_restore] at hrev
      rw [readSelection?_eq_some, tree_restore, root_restore, live_restore_blocks]
      exact hrev.readSelection_eq hb wf h hread hal hhl ha hh _

-- The first char of one paragraph and the last one of another are selected, backwards.
def table : Editor where
  document := ⟨.table, ⟨0⟩⟩
  live := some ⟨⟨⟨2⟩, 1⟩, ⟨⟨13⟩, 0⟩⟩
  config := {}

-- Both paragraphs are restyled, and so is all of the cell if that is selected instead.
theorem selection_restyle_table :
    table.tree.WellFormed ∧ table.tree.Addressable table.root ∧
      table.Selects ⟨⟨2, 1⟩, ⟨0, 1⟩⟩ ∧ (table.restyle .apply "i").1 ∧
      (table.restyle .apply "i").2.readSelection? = some ⟨⟨2, 1⟩, ⟨0, 1⟩⟩ ∧
      let e : Editor := { table with live := some ⟨⟨⟨9⟩, 0⟩, ⟨⟨9⟩, 2⟩⟩ }
      let e' := (e.restyle .toggle "i").2
      (e.restyle .toggle "i").1 ∧ e.tree.selectionIn? ⟨8⟩ e.live = some ⟨0, 2⟩ ∧
        e'.tree.selectionIn? ⟨8⟩ e'.live = some ⟨0, 2⟩ := by
  have wf : table.tree.WellFormed := by decide
  have h : table.tree.Addressable table.root := by decide
  have hs : table.Selects ⟨⟨2, 1⟩, ⟨0, 1⟩⟩ := ⟨by decide, by decide⟩
  have free : ∀ b ∈ table.tree.preorder table.root, b.kind.isEditableBlock →
    table.tree.Unenclosed b.id 1 := by decide
  have ⟨_, _, hb⟩ := selection_restyle (e := table) wf h .apply "i"
  refine ⟨wf, h, hs, by decide, ?blocks, by decide, by decide, ?cell⟩
  case blocks =>
    exact hb _ _ rfl hs (by decide) (by decide) (fun b hb => free b hb.mem hb.kind)
      fun b hb => free b hb.mem hb.kind
  case cell =>
    have ⟨_, hc, _⟩ := selection_restyle
      (e := { table with live := some ⟨⟨⟨9⟩, 0⟩, ⟨⟨9⟩, 2⟩⟩ }) wf h .toggle "i"
    exact hc _ _ (by decide) (by decide) (by decide) (by decide)

-- A selection that ends in a paragraph that is not in the document any more.
def departed : Editor where
  document := {
    tree := {
      roots := [
        .mk ⟨0⟩ (.element "div") [
          .mk ⟨1⟩ (.block "p" 0 true) [
            .mk ⟨2⟩ (.wrapper (.single "b")) [.mk ⟨3⟩ (.text "ab") []],
            .mk ⟨4⟩ (.text "cd") []]],
        .mk ⟨5⟩ (.block "p" 1 true) [.mk ⟨6⟩ (.text "e") []]]
      made := 7 }
    root := ⟨0⟩ }
  live := some ⟨⟨⟨4⟩, 0⟩, ⟨⟨6⟩, 1⟩⟩
  config := {}

def overgrown : Editor where
  document := ⟨.overgrown, ⟨0⟩⟩
  live := some ⟨⟨⟨2⟩, 0⟩, ⟨⟨2⟩, 2⟩⟩
  config := {}

-- A block that is not under the root is read but not found again, so what was selected stays selected,
-- and the text with the anchor is gone. A text that has a child is not where offsets lead. In neither
-- document there is an embed or a break.
theorem selection_restyle_departed :
    (departed.tree.WellFormed ∧ departed.tree.Addressable departed.root ∧
      departed.tree.LeavesEmpty ∧
      (∀ n ∈ Node.preorderAll departed.tree.roots, n.kind.isAtomic = false) ∧
      departed.Selects ⟨⟨0, 2⟩, ⟨1, 1⟩⟩ ∧ (departed.restyle .apply "b").1 ∧
      (departed.restyle .apply "b").2.readSelection? = none) ∧
    overgrown.tree.WellFormed ∧
      (overgrown.tree.preorder overgrown.root).filterMap (·.kind.blockIndex?) = [0] ∧
      (∀ n ∈ Node.preorderAll overgrown.tree.roots, n.kind.isAtomic = false) ∧
      overgrown.Selects ⟨⟨0, 0⟩, ⟨0, 2⟩⟩ ∧ (overgrown.restyle .apply "b").1 ∧
      (overgrown.restyle .apply "b").2.readSelection? = some ⟨⟨0, 2⟩, ⟨0, 4⟩⟩ :=
  ⟨⟨by decide, by decide, by decide, by decide, ⟨by decide, by decide⟩, by decide +kernel,
      by decide +kernel⟩,
    by decide, by decide, by decide, ⟨by decide, by decide⟩, by decide, by decide +kernel⟩

end Editor

end RichText
