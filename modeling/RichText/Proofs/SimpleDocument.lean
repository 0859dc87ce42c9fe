import RichText.Editor
import RichText.Proofs.Query

namespace RichText

theorem Kind.blockIndex?_eq_some {k : Kind} (h : k.blockIndex? = some i) :
    ∃ tag editable, k = .block tag i editable := by
  cases k <;> simp_all [blockIndex?]

theorem Node.eq_of_blockIndex? {ns : List Node} {b c : Node} (h : ns.Pairwise fun b c =>
      b.kind.blockIndex? = c.kind.blockIndex? → b.kind.blockIndex? = none)
    (hb : b ∈ ns) (hc : c ∈ ns) (hi : b.kind.blockIndex? = some i)
    (hi' : c.kind.blockIndex? = some i) : b = c := by
  by_contra hne
  have : Std.Symm fun b c : Node =>
      b.kind.blockIndex? = c.kind.blockIndex? → b.kind.blockIndex? = none :=
    ⟨fun _ _ h e => e.trans (h e.symm)⟩
  have e := h.forall hb hc hne (hi.trans hi'.symm)
  simp [hi] at e

namespace Tree

variable {t : Tree} {r b : Node}

theorem WellFormed.locate?_child (wf : t.WellFormed) (hr : r ∈ t.roots)
    (hc : r.children = as ++ b :: bs) :
    t.locate? b.id = some ⟨b, [⟨r.id, r.kind, as.reverse, bs⟩]⟩ := by
  refine wf.locate?_of_top (l := ⟨b, [⟨r.id, r.kind, as.reverse, bs⟩]⟩) ?_
  have e : (Location.mk b [⟨r.id, r.kind, as.reverse, bs⟩]).top = r := by
    simp [Location.top, Frame.plug, ← hc, Node.eta]
  exact e ▸ hr

theorem WellFormed.node?_child (wf : t.WellFormed) (hr : r ∈ t.roots) (hb : b ∈ r.children) :
    t.node? b.id = some b :=
  have hm := Node.mem_preorder_of_child hb (Node.mem_preorder_self b)
  node?_of_mem wf.nodup ((Node.preorderAll_sublist _ (Node.mem_preorderAll_of_mem hr)).subset hm)

theorem WellFormed.embedBelow?_child (wf : t.WellFormed) (hr : r ∈ t.roots)
    (hk : r.kind.isEmbed = false) (hb : b ∈ r.children) : t.embedBelow? b.id b.id = none := by
  have ⟨as, bs, hc⟩ := List.append_of_mem hb
  rw [embedBelow?, wf.locate?_child hr hc]
  by_cases hi : r.id = b.id <;> simp [Location.embedBelow?, Location.ancestors, hi, hk]

end Tree

-- A document whose blocks all hold simple content. They are right beneath the root, each with an index
-- of its own, and can be edited.
structure SimpleDocument (d : Document) (r : Node) : Prop where
  wf : d.tree.WellFormed
  root : r ∈ d.tree.roots
  id_eq : r.id = d.root
  not_isEmbed : r.kind.isEmbed = false
  child : ∀ b ∈ r.preorder, b.kind.blockIndex?.isSome → b ∈ r.children
  editable : ∀ b ∈ r.children, b.kind.blockIndex?.isSome → b.kind.isEditableBlock
  leaves : ∀ b ∈ r.children, b.kind.blockIndex?.isSome → Node.LeavesEmptyAll b.children
  simple : ∀ b ∈ r.children, b.kind.blockIndex?.isSome → Canonical.IsSimple b.children
  distinct : r.children.Pairwise fun b c =>
    b.kind.blockIndex? = c.kind.blockIndex? → b.kind.blockIndex? = none

namespace SimpleDocument

variable {d : Document} {r b : Node} {i : Nat}

section

variable (h : SimpleDocument d r)

include h

theorem eq_of_blockIndex? (hb : b ∈ r.children) (hc : c ∈ r.children)
    (hi : b.kind.blockIndex? = some i) (hi' : c.kind.blockIndex? = some i) : b = c :=
  Node.eq_of_blockIndex? h.distinct hb hc hi hi'

theorem eq_of_id (hb : b ∈ r.children) (hc : c ∈ r.children) (e : b.id = c.id) : b = c := by
  have hn := h.wf.node?_child h.root hb
  rw [e, h.wf.node?_child h.root hc] at hn
  exact (Option.some.inj hn).symm

theorem node?_root : d.tree.node? d.root = some r :=
  h.id_eq ▸ Tree.node?_of_mem h.wf.nodup (Node.mem_preorderAll_of_mem h.root)

theorem blockAt?_eq_some {block : NodeId} : d.blockAt? i = some block ↔
    ∃ b ∈ r.children, b.kind.blockIndex? = some i ∧ b.id = block := by
  rw [Document.blockAt?, Tree.blockAt?, Tree.preorder, h.node?_root]
  simp only [Option.map_some, Option.getD_some, Option.map_eq_some_iff]
  constructor
  case mp =>
    intro ⟨b, hf, e⟩
    have hi : b.kind.blockIndex? = some i := by simpa using List.find?_some hf
    exact ⟨b, h.child b (List.mem_of_find?_eq_some hf) (by simp [hi]), hi, e⟩
  case mpr =>
    intro ⟨b, hb, hi, e⟩
    have hm := Node.mem_preorder_of_child hb (Node.mem_preorder_self b)
    have hf : (r.preorder.find? (·.kind.blockIndex? = some i)).isSome :=
      List.find?_isSome.mpr ⟨b, hm, decide_eq_true hi⟩
    have ⟨c, hf⟩ := Option.isSome_iff_exists.mp hf
    have hi' : c.kind.blockIndex? = some i := by simpa using List.find?_some hf
    have hc := h.child c (List.mem_of_find?_eq_some hf) (by simp [hi'])
    exact ⟨c, hf, (congrArg Node.id (h.eq_of_blockIndex? hb hc hi hi')).symm.trans e⟩

theorem simpleBlock (hb : b ∈ r.children) (hi : b.kind.blockIndex? = some i) :
    SimpleBlock d.tree b.id b where
  wf := h.wf
  node := h.wf.node?_child h.root hb
  not_isLeaf := by
    have ⟨_, _, hk⟩ := Kind.blockIndex?_eq_some hi
    rw [hk]
    rfl
  not_isWrapper := by
    have ⟨_, _, hk⟩ := Kind.blockIndex?_eq_some hi
    rw [Node.isWrapper, hk]
    rfl
  leaves := h.leaves b hb (by simp [hi])
  simple := h.simple b hb (by simp [hi])

end

end SimpleDocument

namespace BlockPoint

-- The offset at which a selection that starts at the point starts in a block.
def startIn (first : BlockPoint) (index : Nat) : Nat :=
  if index = first.block then first.offset else 0

-- The offset at which a selection that stops at the point stops in a block with the given length.
def stopIn (last : BlockPoint) (index length : Nat) : Nat :=
  if index = last.block then last.offset else length

end BlockPoint

def BlockSelection.Covers (s : BlockSelection) (p : BlockPoint) : Prop :=
  p.precedes s.ordered.1 = false ∧ p.precedes s.ordered.2

instance : DecidablePred (BlockSelection.Covers s) :=
  fun _ => inferInstanceAs (Decidable (_ ∧ _))

theorem BlockSelection.covers_iff {s : BlockSelection} (ho : o < length) : s.Covers ⟨i, o⟩ ↔
    s.ordered.1.block ≤ i ∧ i ≤ s.ordered.2.block ∧
      s.ordered.1.startIn i ≤ o ∧ o < s.ordered.2.stopIn i length := by
  simp only [Covers, BlockPoint.precedes, BlockPoint.startIn, BlockPoint.stopIn]
  split <;> split <;> simp <;> omega

namespace Editor

def parts (e : Editor) (s : BlockSelection) : List Part :=
  let (first, last) := s.ordered
  (List.range' first.block (last.block + 1 - first.block)).filterMap (e.part? first last)

theorem target?_eq {e : Editor} (hc : e.tree.selectedCell? e.root e.live = none)
    (hr : e.readSelection? = some s) : e.target? = some (.blocks s (e.parts s)) := by
  simp [target?, hc, hr, parts]

section Parts

variable {e : Editor} {r : Node} {s : BlockSelection} {p : Part} (h : SimpleDocument e.document r)

include h

theorem part?_eq_some {first last : BlockPoint} : e.part? first last i = some p ↔
    ∃ b ∈ r.children, b.kind.blockIndex? = some i ∧
      p = ⟨b.id, first.startIn i, last.stopIn i b.charCount⟩ ∧
      first.startIn i < last.stopIn i b.charCount := by
  have part (b : Node) (hb : b ∈ r.children) (hi : b.kind.blockIndex? = some i) :
      e.part? first last i =
        if first.startIn i < last.stopIn i b.charCount then
          some ⟨b.id, first.startIn i, last.stopIn i b.charCount⟩
        else none := by
    have hn : e.tree.node? b.id = some b := h.wf.node?_child h.root hb
    have hk := h.editable b hb (by simp [hi])
    have ha := h.blockAt?_eq_some.mpr ⟨b, hb, hi, rfl⟩
    simp only [part?, ha, Tree.isEditableBlock, Tree.kind?, hn, hk, Tree.charCount_of_node? hn, bind,
      pure, Option.bind_some, Option.map_some, Option.getD_some, Bool.true_and, decide_eq_true_eq]
    rfl
  constructor
  case mp =>
    intro hp
    obtain ⟨block, hblock, _⟩ := Option.bind_eq_some_iff.mp hp
    obtain ⟨b, hb, hi, _⟩ := h.blockAt?_eq_some.mp hblock
    rw [part b hb hi] at hp
    split at hp
    case isTrue hlt => exact ⟨b, hb, hi, (Option.some.inj hp).symm, hlt⟩
    case isFalse => contradiction
  case mpr =>
    rintro ⟨b, hb, hi, hp, hlt⟩
    rw [part b hb hi, if_pos hlt, hp]

theorem mem_parts : p ∈ e.parts s ↔
    ∃ i, s.ordered.1.block ≤ i ∧ i ≤ s.ordered.2.block ∧
      ∃ b ∈ r.children, b.kind.blockIndex? = some i ∧
        p = ⟨b.id, s.ordered.1.startIn i, s.ordered.2.stopIn i b.charCount⟩ ∧
        s.ordered.1.startIn i < s.ordered.2.stopIn i b.charCount := by
  simp only [parts, List.mem_filterMap, List.mem_range'_1, part?_eq_some h, ← and_assoc]
  refine exists_congr fun i => and_congr_left fun _ => ?_
  omega

theorem nodup_parts : ((e.parts s).map Part.block).Nodup := by
  rw [parts, List.map_filterMap]
  refine (List.nodup_range' ..).filterMap fun i j block hi hj => ?_
  have ⟨_, hp, hi⟩ := Option.map_eq_some_iff.mp hi
  have ⟨_, hq, hj⟩ := Option.map_eq_some_iff.mp hj
  have ⟨b, hb, hbi, hp, _⟩ := (part?_eq_some h).mp hp
  have ⟨c, hc, hcj, hq, _⟩ := (part?_eq_some h).mp hq
  subst hp hq hi
  cases h.eq_of_id hb hc hj.symm
  exact Option.some.inj (hbi.symm.trans hcj)

end Parts

end Editor

end RichText
