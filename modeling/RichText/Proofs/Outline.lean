import RichText.Proofs.Clear

namespace RichText

namespace Node

mutual

-- What is there when wrappers are seen through: the chars of the texts, and whole other nodes.
def outline : Node → List Item
  | mk i k cs =>
    match k with
    | .text s => s.toList.map .char
    | .wrapper _ => outlineAll cs
    | k => [.node (mk i k cs)]

def outlineAll : List Node → List Item
  | [] => []
  | n :: ns => n.outline ++ outlineAll ns

end

theorem outlineAll_eq_flatMap (ns : List Node) : outlineAll ns = ns.flatMap outline := by
  induction ns with
  | nil => rfl
  | cons n ns ih => simp [outlineAll, ih]

end Node

namespace Item

def outline : Item → List Item
  | char c => [.char c]
  | node n => n.outline

end Item

namespace Piece

def outline (p : Piece) : List Item :=
  p.item.outline

end Piece

namespace Node

theorem outline_of_isText {n : Node} (h : n.isText) : n.outline = n.items := by
  have ⟨i, k, cs⟩ := n
  cases k <;> first | rfl | contradiction

theorem outline_of_isWrapper {n : Node} (h : n.isWrapper) : n.outline = outlineAll n.children := by
  have ⟨i, k, cs⟩ := n
  cases k <;> first | rfl | contradiction

theorem items_outline (n : Node) : n.items.flatMap Item.outline = n.outline := by
  cases ht : n.isText
  case true =>
    have ⟨s, hs⟩ := isText_iff.mp ht
    rw [outline_of_isText ht, items_text hs, List.flatMap_map, List.map_eq_flatMap]
    rfl
  case false =>
    rw [items_of_not_isText ht, List.flatMap_singleton]
    rfl

theorem pieces_outline (n : Node) : n.pieces.flatMap Piece.outline = n.outline := by
  have h (host : Option StyleSet) (items : List Item) :
      (items.map (Piece.mk · host)).flatMap Piece.outline = items.flatMap Item.outline :=
    List.flatMap_map ..
  cases hw : n.isWrapper
  case true =>
    have ⟨s, hs⟩ : ∃ s, n.kind = .wrapper s := by
      cases hk : n.kind <;> simp_all [isWrapper, Kind.isWrapper]
    rw [pieces_wrapper hs, h, List.flatMap_assoc, outline_of_isWrapper hw, outlineAll_eq_flatMap]
    exact List.flatMap_congr fun m _ => m.items_outline
  case false => rw [pieces_of_not_isWrapper hw, h, items_outline]

theorem flatMap_pieces_outline (ns : List Node) :
    (ns.flatMap pieces).flatMap Piece.outline = outlineAll ns := by
  rw [List.flatMap_assoc, outlineAll_eq_flatMap]
  exact List.flatMap_congr fun n _ => n.pieces_outline

end Node

namespace Piece

@[simp]
theorem outline_addStyle (tag : String) (p : Piece) : (p.addStyle tag).outline = p.outline := by
  rw [addStyle]
  split <;> rfl

theorem outline_loosen (p : Piece) : p.loosen.flatMap outline = p.outline := by
  have ⟨item, host⟩ := p
  rw [loosen]
  split
  case isFalse => simp
  case isTrue =>
    cases item with
    | char c => rfl
    | node n => exact n.pieces_outline

theorem outline_clearStyle (tag : String) (p : Piece) :
    (p.clearStyle tag).flatMap outline = p.outline := by
  rw [clearStyle]
  split
  case isTrue => exact outline_loosen _
  case isFalse => simp

end Piece

namespace Canonical

theorem outline_round (ns : List Node) :
    Node.outlineAll (round ns).kept = Node.outlineAll ns := by
  have hu (ns : List Node) : Node.outlineAll (unwrapUnstyled ns).kept = Node.outlineAll ns := by
    rw [Node.outlineAll_eq_flatMap, Node.outlineAll_eq_flatMap]
    refine Pass.flatMap_each fun n _ => ?_
    rw [← Node.outlineAll_eq_flatMap, ← Node.flatMap_pieces_outline, pieces_dissolve,
      List.flatMap_assoc, ← n.pieces_outline]
    exact List.flatMap_congr fun p _ => p.outline_loosen
  simp only [round, Pass.andThen]
  rw [← Node.flatMap_pieces_outline, pieces_mergeTexts, pieces_mergeWrappers,
    pieces_dropEmptyWrappers, Node.flatMap_pieces_outline, hu, ← Node.flatMap_pieces_outline,
    pieces_mergeTextsInWrappers, Node.flatMap_pieces_outline]

theorem outline_canonicalize (ns : List Node) :
    Node.outlineAll (canonicalize ns).kept = Node.outlineAll ns :=
  rounds_induction (q := fun ms => Node.outlineAll ms = Node.outlineAll ns)
    (fun ms h => (outline_round ms).trans h) _ ns rfl

end Canonical

namespace Draft

theorem Tagged.outline {d d' : Draft} (h : d.Tagged d' left right tag) :
    Node.outlineAll d'.content = Node.outlineAll d.content := by
  have ⟨as, bs, cs, hp, _, _, hp'⟩ := h.pieces
  rw [← Node.flatMap_pieces_outline, ← Node.flatMap_pieces_outline, hp, hp']
  simp [List.flatMap_map]

theorem Cleared.outline {ns ms : List Node}
    (h : Cleared tag (ns.flatMap Node.pieces) left right (ms.flatMap Node.pieces)) :
    Node.outlineAll ms = Node.outlineAll ns := by
  have ⟨as, bs, cs, hp, _, _, hp'⟩ := h
  rw [← Node.flatMap_pieces_outline, ← Node.flatMap_pieces_outline, hp, hp']
  simp [List.flatMap_assoc, Piece.outline_clearStyle]

end Draft

namespace Node

variable {ns : List Node} {n m x : Node}

section Members

mutual

theorem mem_preorder_of_outline (n : Node) (h : .node x ∈ n.outline) : x ∈ n.preorder := by
  have ⟨i, k, cs⟩ := n
  cases k
  case text => simp [outline] at h
  case wrapper => exact .tail _ (mem_preorderAll_of_outline cs h)
  all_goals
    cases List.mem_singleton.mp h
    exact mem_preorder_self _

theorem mem_preorderAll_of_outline (ns : List Node) (h : .node x ∈ outlineAll ns) :
    x ∈ preorderAll ns := by
  match ns with
  | [] => contradiction
  | n :: ns =>
    cases List.mem_append.mp h
    case inl h => exact List.mem_append_left _ (mem_preorder_of_outline n h)
    case inr h => exact List.mem_append_right _ (mem_preorderAll_of_outline ns h)

end

mutual

theorem exists_mem_outline (n : Node) (h : n.LeavesEmpty) (hm : m ∈ n.preorder)
    (hs : m.isStyleable = false) : ∃ x, .node x ∈ n.outline ∧ m ∈ x.preorder := by
  have ⟨i, k, cs⟩ := n
  cases k
  case wrapper =>
    cases List.mem_cons.mp hm
    case inl e => exact absurd hs (by simp [e, isStyleable, isWrapper, Kind.isWrapper])
    case inr hm => exact exists_mem_outlineAll cs (leavesEmpty_mk.mp h).right hm hs
  case text =>
    have hc : cs = [] := (leavesEmpty_mk.mp h).left rfl
    rw [hc, preorder, preorderAll, List.mem_singleton] at hm
    exact absurd hs (by simp [hm, isStyleable, isText, Kind.isText])
  all_goals exact ⟨_, .head _, hm⟩

theorem exists_mem_outlineAll (ns : List Node) (h : LeavesEmptyAll ns) (hm : m ∈ preorderAll ns)
    (hs : m.isStyleable = false) : ∃ x, .node x ∈ outlineAll ns ∧ m ∈ x.preorder := by
  match ns with
  | [] => contradiction
  | n :: ns =>
    rw [leavesEmptyAll_cons] at h
    cases List.mem_append.mp hm
    case inl hm =>
      have ⟨x, hx, hmx⟩ := exists_mem_outline n h.left hm hs
      exact ⟨x, List.mem_append_left _ hx, hmx⟩
    case inr hm =>
      have ⟨x, hx, hmx⟩ := exists_mem_outlineAll ns h.right hm hs
      exact ⟨x, List.mem_append_right _ hx, hmx⟩

end

theorem mem_preorderAll_of_outline_eq {ms : List Node} (e : outlineAll ms = outlineAll ns)
    (h : LeavesEmptyAll ms) (hm : m ∈ preorderAll ms) (hs : m.isStyleable = false) :
    m ∈ preorderAll ns := by
  have ⟨x, hx, hmx⟩ := exists_mem_outlineAll ms h hm hs
  exact (preorderAll_sublist ns (mem_preorderAll_of_outline ns (e ▸ hx))).subset hmx

end Members

end Node

end RichText
