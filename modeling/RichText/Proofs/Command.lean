import RichText.Proofs.ReadSelection
import RichText.Proofs.Revised
import RichText.Proofs.ToggleSelection

namespace RichText

open Editor (Part)

namespace Tree

variable {t : Tree} {root : NodeId} {b : Node} {p : Part} {ps : List Part}

theorem blockAt?_of_node? {r : Node} (h : t.node? root = some r) (index : Nat) :
    t.blockAt? root index = (r.solids.find? (·.2.blockIndex? = some index)).map Prod.fst := by
  have hf : (fun a : Node => a.kind.isSolid && decide (a.kind.blockIndex? = some index)) =
      fun a => decide (a.kind.blockIndex? = some index) := by
    funext a
    cases a.kind <;> simp [Kind.isSolid, Kind.blockIndex?, Kind.isLeaf, Kind.isText, Kind.isBreak,
      Kind.isWrapper]
  simp [blockAt?, preorder, h, Node.solids, List.find?_map, Function.comp_def, hf]

theorem blockAt?_congr {t' : Tree} {r r' : Node} (h : t.node? root = some r)
    (h' : t'.node? root = some r') (e : r'.solids = r.solids) (index : Nat) :
    t'.blockAt? root index = t.blockAt? root index := by
  rw [blockAt?_of_node? h', blockAt?_of_node? h, e]

theorem edited_restylePart (wf : t.WellFormed) (hb : t.node? p.block = some b)
    (hs : b.kind.isSolid) (clears : Bool) (tag : String) :
    ∃ cs, t.Edited (t.restylePart clears tag p) p.block b cs := by
  cases clears with
  | false => exact edited_apply wf hb hs _ tag
  | true => exact edited_clear wf hb hs _ tag

theorem revised_foldl (wf : t.WellFormed)
    (hp : ∀ p ∈ ps, ∃ b, t.node? p.block = some b ∧ b.kind.isSolid ∧ b.LeavesEmpty)
    (clears : Bool) (tag : String) :
    t.Revised (ps.foldl (restylePart clears tag) t) (ps.map Part.block) := by
  induction ps generalizing t with
  | nil => exact .refl wf
  | cons p ps ih =>
    rw [List.forall_mem_cons] at hp
    have ⟨⟨b, hb, hs, he⟩, hps⟩ := hp
    have ⟨cs, hed⟩ := edited_restylePart wf hb hs clears tag
    have h := hed.revised wf hb he hs
    refine h.trans (ih h.wf fun q hq => ?_) fun block hm => ?_
    case refine_1 =>
      have ⟨c, hc, hs, he⟩ := hps q hq
      have ⟨c', hc', ha⟩ := h.alike hc (.inl hs)
      exact ⟨c', hc', ha.kind ▸ hs, ha.leavesEmpty he⟩
    case refine_2 =>
      have ⟨q, hq, e⟩ := List.mem_map.mp hm
      have ⟨c, hc, hs, _⟩ := hps q hq
      exact e ▸ ⟨c, hc, hs⟩

theorem exists_of_mem_lineage (h : a ∈ t.lineage i) : ∃ m ∈ Node.preorderAll t.roots,
    m.id = a.1 ∧ m.kind = a.2 := by
  cases hl : t.locate? i with
  | none => simp [lineage, hl] at h
  | some l =>
    rw [lineage_of_locate? hl] at h
    obtain ⟨m, hm, hi, hk, _⟩ := l.exists_of_mem_lineage h
    have ht := Node.mem_preorderAll_of_mem (top_of_locate? hl)
    exact ⟨m, (Node.preorderAll_sublist _ ht).subset hm, hi, hk⟩

theorem exists_of_selectedCell? (wf : t.WellFormed) (h : t.selectedCell? root live = some cell) :
    ∃ c, t.node? cell = some c ∧ c.kind.isCell := by
  have ⟨s, _, h⟩ := Option.bind_eq_some_iff.mp h
  have ⟨⟨i, k⟩, hf, e⟩ := Option.bind_eq_some_iff.mp h
  cases e
  have hm := (List.takeWhile_sublist _).subset (List.mem_of_find?_eq_some hf)
  have ⟨c, hc, hi, hk⟩ := exists_of_mem_lineage hm
  have hf := List.find?_some hf
  have hi : c.id = cell := hi
  exact ⟨c, hi ▸ node?_of_mem wf.nodup hc, by simpa [hk] using hf⟩

end Tree

namespace Editor

variable {e : Editor} {p : Part} {target : Target}

theorem exists_editable_of_part? (wf : e.tree.WellFormed)
    (h : e.part? first last index = some p) :
    ∃ b, e.tree.Editable e.root index b ∧ b.id = p.block := by
  have ⟨block, hb, h⟩ := Option.bind_eq_some_iff.mp h
  have ⟨b, hm, hi, hk⟩ := Tree.exists_of_blockAt? hb
  have ⟨he, h⟩ := Option.ite_none_right_eq_some.mp h
  cases h
  rw [Bool.and_eq_true] at he
  have he : b.kind.isEditableBlock := by
    simpa [← hi, Tree.isEditableBlock, Tree.kind?, wf.node?_of_mem_root hm] using he.left
  exact ⟨b, ⟨hm, he, hk⟩, hi⟩

theorem exists_editable_of_mem_parts (wf : e.tree.WellFormed) (h : p ∈ e.parts s) :
    ∃ index b, e.tree.Editable e.root index b ∧ b.id = p.block := by
  have ⟨index, _, h⟩ := List.mem_filterMap.mp h
  exact ⟨index, exists_editable_of_part? wf h⟩

theorem target?_cases (h : e.target? = some target) :
    (∃ cell s, target = .cell cell s ∧ e.tree.selectedCell? e.root e.live = some cell ∧
      e.tree.selectionIn? cell e.live = some s) ∨
    ∃ s, target = .blocks s (e.parts s) ∧ e.Selects s := by
  cases hc : e.tree.selectedCell? e.root e.live with
  | some cell =>
    rw [target?, hc] at h
    obtain ⟨s, hs, ht⟩ := Option.map_eq_some_iff.mp h
    exact .inl ⟨cell, s, ht.symm, rfl, hs⟩
  | none =>
    cases hr : e.readSelection? with
    | none => simp [target?, hc, hr] at h
    | some s =>
      rw [target?_eq hc hr] at h
      exact .inr ⟨s, (Option.some.inj h).symm, hc, hr⟩

theorem exists_of_target? (wf : e.tree.WellFormed) (h : e.target? = some target)
    (hp : p ∈ target.parts) : ∃ b, e.tree.node? p.block = some b ∧
      (b.kind.isCell ∨ ∃ index, e.tree.Editable e.root index b) := by
  obtain ⟨cell, s, rfl, hc, _⟩ | ⟨s, rfl, _⟩ := target?_cases h
  case inl =>
    obtain ⟨c, hn, hk⟩ := Tree.exists_of_selectedCell? wf hc
    have e : p.block = cell := by
      rw [Target.parts] at hp
      split at hp
      case isTrue => contradiction
      case isFalse => exact congrArg Part.block (List.mem_singleton.mp hp)
    exact ⟨c, e ▸ hn, .inl hk⟩
  case inr =>
    obtain ⟨index, b, hb, hi⟩ := exists_editable_of_mem_parts wf hp
    exact ⟨b, hi ▸ wf.node?_of_mem_root hb.mem, .inr ⟨index, hb⟩⟩

def covered (e : Editor) : List NodeId :=
  ((e.target?.map Target.parts).getD []).map Part.block

theorem covered_of_target? (h : e.target? = some target) :
    e.covered = target.parts.map Part.block := by
  simp [covered, h]

-- The selection covers something of a cell, the one its anchor is in, or of an editable block: what is
-- covered of a block is what it has between the ends of the selection.
inductive Covers (e : Editor) : NodeId → Prop where
  | cell {id : NodeId} {s : Selection} (selected : e.tree.selectedCell? e.root e.live = some id)
    (selection : e.tree.selectionIn? id e.live = some s) (apart : s.anchor ≠ s.head) : Covers e id
  | block {id : NodeId} {s : BlockSelection} {i o : Nat} (selects : e.Selects s)
    (found : e.document.blockAt? i = some id) (editable : e.tree.isEditableBlock id)
    (covers : s.Covers ⟨i, o⟩) (within : o < e.tree.charCount id ∨ i = s.ordered.2.block) :
    Covers e id

theorem exists_covers_iff {s : BlockSelection} {i length : Nat} :
    (∃ o, s.Covers ⟨i, o⟩ ∧ (o < length ∨ i = s.ordered.2.block)) ↔
      (s.ordered.1.block ≤ i ∧ i ≤ s.ordered.2.block) ∧
        s.ordered.1.startIn i < s.ordered.2.stopIn i length := by
  simp only [BlockSelection.Covers, BlockPoint.precedes, BlockPoint.startIn, BlockPoint.stopIn]
  generalize s.ordered.1 = first, s.ordered.2 = last
  constructor
  case mp =>
    rintro ⟨o, ⟨hl, hu⟩, hw⟩
    grind
  case mpr =>
    rintro ⟨hi, hlt⟩
    refine ⟨if i = first.block then first.offset else 0, ?_⟩
    grind

theorem block_part? {first last : BlockPoint} {i : Nat} {id : NodeId} :
    (e.part? first last i).map Part.block = some id ↔
      e.document.blockAt? i = some id ∧ e.tree.isEditableBlock id ∧
        first.startIn i < last.stopIn i (e.tree.charCount id) := by
  rw [Option.map_eq_some_iff]
  constructor
  case mp =>
    rintro ⟨p, hp, rfl⟩
    obtain ⟨block, hb, h⟩ := Option.bind_eq_some_iff.mp hp
    obtain ⟨hc, h⟩ := Option.ite_none_right_eq_some.mp h
    cases h
    simpa [hb, BlockPoint.startIn, BlockPoint.stopIn] using hc
  case mpr =>
    rintro ⟨hb, he, hlt⟩
    refine ⟨⟨id, first.startIn i, last.stopIn i (e.tree.charCount id)⟩, ?_, rfl⟩
    simp only [BlockPoint.startIn, BlockPoint.stopIn] at hlt ⊢
    simp [part?, hb, he, hlt]

theorem mem_map_parts {s : BlockSelection} {id : NodeId} : id ∈ (e.parts s).map Part.block ↔
    ∃ i, e.document.blockAt? i = some id ∧ e.tree.isEditableBlock id ∧
      ∃ o, s.Covers ⟨i, o⟩ ∧ (o < e.tree.charCount id ∨ i = s.ordered.2.block) := by
  simp only [exists_covers_iff, parts, List.map_filterMap, List.mem_filterMap, List.mem_range'_1,
    block_part?]
  refine exists_congr fun i => ?_
  constructor
  case mp =>
    rintro ⟨hi, hb, he, hlt⟩
    exact ⟨hb, he, by omega, hlt⟩
  case mpr =>
    rintro ⟨hb, he, hi, hlt⟩
    exact ⟨by omega, hb, he, hlt⟩

theorem mem_covered {id : NodeId} : id ∈ e.covered ↔ e.Covers id := by
  constructor
  case mp =>
    intro h
    cases ht : e.target? with
    | none => simp [covered, ht] at h
    | some target =>
      rw [covered_of_target? ht] at h
      obtain ⟨cell, s, rfl, hc, hs⟩ | ⟨s, rfl, hs⟩ := target?_cases ht
      case inl =>
        cases hcol : s.isCollapsed
        case true => simp [Target.parts, hcol] at h
        case false =>
          have e : id = cell := by simpa [Target.parts, hcol] using h
          exact .cell (e ▸ hc) (e ▸ hs) (by simpa [Selection.isCollapsed] using hcol)
      case inr =>
        obtain ⟨i, hb, he, o, hc, hw⟩ := mem_map_parts.mp h
        exact .block hs hb he hc hw
  case mpr =>
    intro h
    cases h with
    | @cell s hc hs hne =>
      have ht : e.target? = some (.cell id s) := by simp [target?, hc, hs]
      have hcol : s.isCollapsed = false := by simpa [Selection.isCollapsed] using hne
      simp [covered_of_target? ht, Target.parts, hcol]
    | block hs hb he hc hw =>
      rw [covered_of_target? (target?_eq hs.selectedCell? hs.readSelection?)]
      exact mem_map_parts.mpr ⟨_, hb, he, _, hc, hw⟩

theorem restyle_cases (e : Editor) (command : Command) (tag : String) :
    e.restyle command tag = (false, e) ∨ ∃ target clears, e.target? = some target ∧
      e.restyle command tag = (true, { e with
        document := { e.document with
          tree := target.parts.foldl (Tree.restylePart clears tag) e.tree } }.restore target) := by
  cases ht : e.target? with
  | none => exact .inl (by simp [restyle, ht])
  | some target =>
    cases hp : target.parts.isEmpty
    case true => exact .inl (by simp [restyle, ht, hp])
    case false =>
      simp only [restyle, ht, hp]
      cases command
      case apply => exact .inr ⟨target, false, rfl, rfl⟩
      case clear => exact .inr ⟨target, true, rfl, rfl⟩
      case toggle => exact .inr ⟨target, decide (tag ∈ e.activeStyles), rfl, rfl⟩

theorem revised_restyle (wf : e.tree.WellFormed)
    (he : ∀ block ∈ e.covered, ∀ b, e.tree.node? block = some b → b.LeavesEmpty)
    (command : Command) (tag : String) :
    e.tree.Revised (e.restyle command tag).2.tree e.covered := by
  obtain h | ⟨target, clears, ht, h⟩ := e.restyle_cases command tag
  case inl =>
    rw [h]
    exact .refl wf
  case inr =>
    rw [covered_of_target? ht] at he
    rw [h, tree_restore, covered_of_target? ht]
    refine Tree.revised_foldl wf (fun p hp => ?_) clears tag
    have ⟨b, hb, hk⟩ := exists_of_target? wf ht hp
    have hr : b.kind.isRegion := by
      obtain hk | ⟨_, hk⟩ := hk
      case inl => simp [Kind.isRegion, hk]
      case inr => simp [Kind.isRegion, hk.blockIndex?]
    exact ⟨b, hb, Kind.isSolid_of_isRegion hr, he _ (List.mem_map_of_mem hp) b hb⟩

end Editor

end RichText
