import RichText.Proofs.Around
import RichText.Proofs.RoundTrip
import RichText.Proofs.SimpleDocument

namespace RichText

namespace Tree

variable {t : Tree} {block : NodeId} {b r : Node} {p : Position} {o : Nat}

theorem WellFormed.lineage_child (wf : t.WellFormed) (hr : r ∈ t.roots) (hb : b ∈ r.children)
    {l : Location} (hl : l.top = b) :
    (t.lineage l.node.id).takeWhile (·.1 ≠ r.id) = l.lineage := by
  obtain ⟨as, bs, hc⟩ := List.append_of_mem hb
  have e : t.lineage l.node.id = l.lineage ++ [(r.id, r.kind)] := by
    rw [lineage, wf.locate?_beneath (wf.locate?_child hr hc) hl]
    simp [Location.lineage, Location.ancestors]
  have hd := wf.nodup.sublist (Node.ids_sublist_of_mem hr)
  rw [Node.ids_eq, List.nodup_cons] at hd
  have hne : ∀ a ∈ l.lineage, decide (a.1 ≠ r.id) := by
    intro a ha
    obtain ⟨m, hm, hi, _⟩ := l.exists_of_mem_lineage ha
    have hm : m.id ∈ b.ids := Node.mem_ids_iff.mpr ⟨m, hl ▸ hm, rfl⟩
    exact decide_eq_true fun e => hd.left (e ▸ hi ▸ (Node.ids_sublist_of_mem hb).subset hm)
  rw [e, List.takeWhile_append_of_pos hne]
  simp

theorem Landing.offsetOf_eq (hp : Landing b o p) (h : SimpleBlock t block b) (ho : o ≤ b.charCount) :
    t.offsetOf block p = o := by
  cases hp with
  | inText perch total => exact (perch.offsetOf h.wf h.node h.not_isLeaf).trans total
  | @between xs ys hc hle hr =>
    have ht := h.charCount_eq
    rw [hc, List.flatMap_append, Piece.total_append] at ht
    have e : Piece.total (xs.flatMap Node.pieces) = o := by omega
    rw [h.id_eq]
    cases ys with
    | nil =>
      rw [List.append_nil] at hc
      rw [← hc, offsetOf_end h.wf h.node h.not_isLeaf, h.charCount_eq, hc, e]
    | cons n ys =>
      have hs : b.children = (Seat.bare xs ys).plug [n] := by simp [hc]
      have hm := h.wf.offsetOf_of_mem (k := xs.length) h.node b.mem_preorder_self
      rw [h.id_eq, Node.offsetOf_before h.not_isLeaf hc,
        Node.countBefore_of_plug (h.wf.nodup_ids h.node) h.not_isLeaf hs, Seat.lead_bare] at hm
      exact hm.trans e

theorem Landing.lineage_eq (hp : Landing b o p) (wf : t.WellFormed) (hr : r ∈ t.roots)
    (hb : b ∈ r.children) : ∃ upper, (t.lineage p.node).takeWhile (·.1 ≠ r.id) =
      upper ++ [(b.id, b.kind)] ∧ ∀ a ∈ upper, a.2.blockIndex? = none ∧ a.2.isCell = false := by
  cases hp with
  | between => exact ⟨[], wf.lineage_child hr hb (l := ⟨b, []⟩) rfl, nofun⟩
  | @inText p s n perch =>
    rw [perch.node]
    have e := wf.lineage_child hr hb (Seat.top_location perch.children)
    have ⟨content, hk⟩ := Node.isText_iff.mp perch.isText
    cases s with
    | bare before after =>
      exact ⟨[(n.id, n.kind)], e, by simp [hk, Kind.blockIndex?, Kind.isCell]⟩
    | held before id styles left right after =>
      exact ⟨[(n.id, n.kind), (id, .wrapper styles)], e, by simp [hk, Kind.blockIndex?, Kind.isCell]⟩

def Addresses (t : Tree) (r : Node) (p : BlockPoint) : Prop :=
  ∃ b ∈ r.children, b.kind.blockIndex? = some p.block ∧ p.offset ≤ b.charCount ∧
    t.Free b.id p.offset

instance (p : BlockPoint) : Decidable (t.Addresses r p) :=
  inferInstanceAs (Decidable (∃ b ∈ r.children, _))

end Tree

namespace Editor

structure Selects (e : Editor) (s : BlockSelection) : Prop where
  selectedCell? : e.tree.selectedCell? e.root e.live = none
  readSelection? : e.readSelection? = some s

end Editor

namespace SimpleDocument

variable {d : Document} {r : Node} (h : SimpleDocument d r)

include h

theorem exists_placed {p : BlockPoint} (hp : d.tree.Addresses r p) : ∃ block,
    d.tree.editableBlock d.root p.block = .ok block ∧
      d.tree.blockPoint? d.root (d.tree.resolve block p.offset) = some p ∧
      ∀ focus, d.tree.selectedCell? d.root (some ⟨d.tree.resolve block p.offset, focus⟩) = none := by
  obtain ⟨b, hb, hi, hle, hf⟩ := hp
  have hsb := h.simpleBlock hb hi
  have hl := hsb.landing_resolve hf
  obtain ⟨upper, hu, hk⟩ := hl.lineage_eq h.wf h.root hb
  rw [h.id_eq] at hu
  have hat : d.tree.blockAt? d.root p.block = some b.id := h.blockAt?_eq_some.mpr ⟨b, hb, hi, rfl⟩
  have he := h.editable b hb (by simp [hi])
  have hblock : d.tree.kind? b.id = some b.kind := by simp [Tree.kind?, hsb.node]
  refine ⟨b.id, ?editable, ?point, fun focus => ?cell⟩
  case editable => simp [Tree.editableBlock, hat, Tree.isEditableBlock, hblock, he]
  case point =>
    have hn : upper.find? (·.2.blockIndex?.isSome) = none :=
      List.find?_eq_none.mpr fun a ha => by simp [(hk a ha).left]
    have hof : d.tree.blockOf? d.root (d.tree.resolve b.id p.offset).node = some b.id := by
      rw [Tree.blockOf?, hu, List.find?_append, hn]
      simp [hi, he]
    simp [Tree.blockPoint?, hof, Tree.blockIndex?, hblock, hi, hl.offsetOf_eq hsb hle]
  case cell =>
    obtain ⟨_, _, hkb⟩ := Kind.blockIndex?_eq_some hi
    have hn : (upper ++ [(b.id, b.kind)]).find? (·.2.isCell) = none := by
      simpa [hkb, Kind.isCell] using fun a ha => (hk a ha).right
    simp only [Tree.selectedCell?, Option.bind_eq_bind, Option.bind_some, hu, hn, Option.bind_none]

end SimpleDocument

namespace Editor

variable {e : Editor} {r : Node} {s : BlockSelection}

theorem exists_placeSelection (h : SimpleDocument e.document r) (ha : e.tree.Addresses r s.anchor)
    (hh : e.tree.Addresses r s.head) : ∃ live,
      e.tree.placeSelection e.root s = .ok live ∧ { e with live := some live }.Selects s := by
  have ⟨anchorBlock, hab, har, hac⟩ := h.exists_placed ha
  have ⟨headBlock, hhb, hhr, _⟩ := h.exists_placed hh
  have hp : e.tree.placeSelection e.root s =
      .ok ⟨e.tree.resolve anchorBlock s.anchor.offset, e.tree.resolve headBlock s.head.offset⟩ := by
    simp only [Tree.placeSelection, tree, root, hab, hhb]
    rfl
  refine ⟨_, hp, ?_, ?_⟩
  case refine_1 => exact hac _
  case refine_2 =>
    simp only [readSelection?, Tree.readSelection, tree, root, har, hhr]
    rfl

end Editor

end RichText
