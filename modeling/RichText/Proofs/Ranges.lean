import RichText.Proofs.LinedBlock
import RichText.Proofs.Undo

namespace RichText

namespace Piece

variable {s t : String} {left right left' right' o : Nat} {p : Piece} {ps qs : List Piece}

-- The pieces that start between two offsets get a style, where the first one is at the given
-- offset.
def styleBetween (tag : String) (left right : Nat) : Nat → List Piece → List Piece
  | _, [] => []
  | o, p :: ps =>
    (if left ≤ o ∧ o < right then p.addStyle tag else p) ::
      styleBetween tag left right (o + p.width) ps

theorem total_cons (p : Piece) (ps : List Piece) : total (p :: ps) = p.width + total ps := by
  simp [total, width]

theorem addStyle_comm (s t : String) (p : Piece) :
    (p.addStyle s).addStyle t = (p.addStyle t).addStyle s := by
  have hc (styles : StyleSet) : (styles.insert s).insert t = (styles.insert t).insert s :=
    StyleSet.ext fun u => by simp [or_left_comm]
  have ⟨item, host⟩ := p
  cases item <;> cases host <;> simp [addStyle, isStyleable, hc]

theorem styleBetween_comm (ps : List Piece) (o : Nat) :
    styleBetween t left' right' o (styleBetween s left right o ps) =
      styleBetween s left right o (styleBetween t left' right' o ps) := by
  induction ps generalizing o with
  | nil => rfl
  | cons p ps ih =>
    have hw (tag : String) (left right : Nat) :
        (if left ≤ o ∧ o < right then p.addStyle tag else p).width = p.width := by
      split <;> simp
    simp only [styleBetween, hw, ih]
    congr 1
    split_ifs <;> first | rfl | exact addStyle_comm s t p

theorem map_shape_styleBetween (ps : List Piece) (o : Nat) :
    (styleBetween t left right o ps).map shape = ps.map shape := by
  induction ps generalizing o with
  | nil => rfl
  | cons p ps ih =>
    rw [styleBetween, List.map_cons, List.map_cons, ih]
    split <;> simp

theorem styleBetween_append (ps qs : List Piece) (o : Nat) :
    styleBetween t left right o (ps ++ qs) =
      styleBetween t left right o ps ++ styleBetween t left right (o + total ps) qs := by
  induction ps generalizing o with
  | nil => rfl
  | cons p ps ih =>
    rw [List.cons_append, styleBetween, styleBetween, ih, List.cons_append, total_cons,
      Nat.add_assoc]

section Wide

variable (hw : ∀ p ∈ ps, p.isStyleable → 0 < p.width)

include hw

theorem styleBetween_before (h : o + total ps ≤ left) : styleBetween t left right o ps = ps := by
  induction ps generalizing o with
  | nil => rfl
  | cons p ps ih =>
    rw [total_cons] at h
    rw [styleBetween, ih (fun q hq => hw q (.tail _ hq)) (by omega)]
    split
    case isFalse => rfl
    case isTrue ho =>
      have hp := hw p (.head _)
      rw [addStyle, if_neg fun hs => by have := hp hs; omega]

theorem styleBetween_within (hl : left ≤ o) (hr : o + total ps ≤ right) :
    styleBetween t left right o ps = ps.map (addStyle t) := by
  induction ps generalizing o with
  | nil => rfl
  | cons p ps ih =>
    rw [total_cons] at hr
    rw [styleBetween, List.map_cons, ih (fun q hq => hw q (.tail _ hq)) (by omega) (by omega)]
    split
    case isTrue => rfl
    case isFalse ho =>
      have hp := hw p (.head _)
      rw [addStyle, if_neg fun hs => by have := hp hs; omega]

end Wide

theorem styleBetween_after (h : right ≤ o) : styleBetween t left right o ps = ps := by
  induction ps generalizing o with
  | nil => rfl
  | cons p ps ih => rw [styleBetween, if_neg (by omega), ih (by omega)]

theorem styleBetween_eq {ps qs rs : List Piece}
    (hw : ∀ p ∈ ps ++ qs ++ rs, p.isStyleable → 0 < p.width) :
    styleBetween t (total ps) (total (ps ++ qs)) 0 (ps ++ qs ++ rs) =
      ps ++ qs.map (addStyle t) ++ rs := by
  have hp : ∀ p ∈ ps, p.isStyleable → 0 < p.width := fun p hp => hw p (by simp [hp])
  have hq : ∀ p ∈ qs, p.isStyleable → 0 < p.width := fun p hp => hw p (by simp [hp])
  rw [styleBetween_append, styleBetween_append, styleBetween_before hp (by omega),
    styleBetween_within hq (by omega) (by rw [total_append]; omega),
    styleBetween_after (by omega)]

end Piece

namespace Location

theorem ne_of_mem_ancestors {l : Location} (hd : l.top.ids.Nodup) (ha : a ∈ l.ancestors) :
    a.1 ≠ l.node.id := by
  obtain ⟨n, _ | ⟨f, path⟩⟩ := l
  case nil => contradiction
  case cons =>
    have ⟨m, hm, hi, _, hf⟩ := exists_of_mem_lineage ⟨f.plug n, path⟩ ha
    have ht := Location.node_mem_top ⟨f.plug n, path⟩
    have hn : n ∈ (f.plug n).children := by simp [Frame.plug]
    have hnt := Node.mem_preorder_trans ht (Node.mem_preorder_of_child hn n.mem_preorder_self)
    have hd : (Location.mk (f.plug n) path).top.ids.Nodup := hd
    intro e
    -- Otherwise the node would hold the node right above it.
    have e : m = n := List.inj_on_of_nodup_map hd hm hnt (hi.trans e)
    have hd := Node.nodup_ids_of_mem hd ht
    rw [Node.ids_eq, List.nodup_cons] at hd
    have hfn : (f.plug n).id ∈ n.ids := Node.mem_ids_iff.mpr ⟨_, e ▸ hf, rfl⟩
    exact hd.left ((Node.ids_sublist_of_mem hn).subset hfn)

end Location

theorem Tree.Rebuilt.embedBelow? {t t' : Tree} {block : NodeId} {cs : List Node}
    (h : t.Rebuilt t' block cs) (wf : t.WellFormed) (hb : t.node? block = some b) :
    t'.embedBelow? block block = t.embedBelow? block block := by
  have ⟨l, hl, _⟩ := Tree.exists_locate? hb
  have hd := wf.nodup.sublist (Node.ids_sublist_of_mem (Tree.top_of_locate? hl))
  have ho : ∀ a ∈ l.ancestors, a.1 ≠ block := fun a ha =>
    Tree.id_of_locate? hl ▸ Location.ne_of_mem_ancestors hd ha
  rw [Tree.embedBelow?, Tree.embedBelow?, hl, h.locate? hl ho]
  simp only [Option.bind_some, Location.embedBelow?, Location.ancestors_rebuild]

theorem Node.eq_of_mem_items {n c : Node} (h : .node n ∈ c.items) : c = n ∧ c.isText = false := by
  cases ht : c.isText
  case false =>
    rw [items_of_not_isText ht, List.mem_singleton] at h
    cases h
    exact ⟨rfl, rfl⟩
  case true =>
    have ⟨text, hk⟩ := isText_iff.mp ht
    simp [items_text hk] at h

namespace LinedBlock

variable {t : Tree} {block : NodeId} {b : Node}

theorem lined_iff {ns : List Node} :
    (∀ w ∈ ns, w.isWrapper → ∀ n ∈ w.children, n.isText ∨ n.kind = .lineBreak false) ↔
      ∀ n, .held n ∈ Node.shapes ns → n.kind = .lineBreak false := by
  constructor
  case mp =>
    intro h n hn
    have ⟨p, hp, e⟩ := List.mem_map.mp hn
    have ⟨w, hw, hp⟩ := List.mem_flatMap.mp hp
    have hh := Node.host_of_mem_pieces hp
    obtain ⟨_ | m, _ | styles⟩ := p <;> try contradiction
    case node.some =>
      cases e
      have ⟨i, kind, cs⟩ := w
      cases kind <;> try contradiction
      case wrapper =>
        have ⟨item, hi, e⟩ := List.mem_map.mp hp
        rw [(Piece.mk.inj e).left] at hi
        have ⟨c, hc, hi⟩ := List.mem_flatMap.mp hi
        have ⟨e, ht⟩ := Node.eq_of_mem_items hi
        exact e ▸ (h _ hw rfl c hc).resolve_left (by simp [ht])
  case mpr =>
    intro h w hw hk n hn
    have ⟨i, kind, cs⟩ := w
    cases kind <;> try contradiction
    case wrapper styles =>
      cases ht : n.isText
      case true => exact .inl rfl
      case false =>
        refine .inr (h n (List.mem_map.mpr ⟨⟨.node n, some styles⟩, ?_, rfl⟩))
        refine List.mem_flatMap.mpr ⟨_, hw, ?_⟩
        rw [Node.pieces_wrapper rfl]
        have hi : .node n ∈ n.items := by simp [Node.items_of_not_isText ht]
        exact List.mem_map_of_mem (List.mem_flatMap.mpr ⟨n, hn, hi⟩)

theorem width_of_isStyleable (h : LinedBlock t block b) (hp : p ∈ b.children.flatMap Node.pieces)
    (hs : p.isStyleable) : p.width = 1 := by
  have ⟨item, host⟩ := p
  cases item with
  | char => rfl
  | node n =>
    have ⟨styles, e⟩ := Option.isSome_iff_exists.mp hs
    simp only at e
    subst e
    have hk := lined_iff.mp h.lined n (List.mem_map.mpr ⟨_, hp, rfl⟩)
    have hw : Piece.width ⟨.node n, some styles⟩ = n.charCount := n.length_glyphs
    rw [hw, Node.charCount_of_break hk]

end LinedBlock

namespace Shape

def range? (stuck : Bool) (ss : List Shape) (start stop : Nat) : Option (Nat × Nat) :=
  (limits stuck ss start).range? (limits stuck ss stop)

end Shape

namespace Piece

def styleRange (tag : String) (range? : Option (Nat × Nat)) (ps : List Piece) : List Piece :=
  range?.elim ps fun r => styleBetween tag r.1 r.2 0 ps

variable {s t : String} {r r' : Option (Nat × Nat)} {ps : List Piece}

theorem map_shape_styleRange : (styleRange t r ps).map shape = ps.map shape := by
  cases r with
  | none => rfl
  | some => exact map_shape_styleBetween ps 0

theorem styleRange_comm :
    styleRange t r' (styleRange s r ps) = styleRange s r (styleRange t r' ps) := by
  cases r <;> cases r' <;> first | rfl | exact styleBetween_comm ps 0

end Piece

namespace LinedBlock

variable {t t' : Tree} {block : NodeId} {b : Node}

structure Dyed (t t' : Tree) (block : NodeId) (b b' : Node) (tag : String)
    (range? : Option (Nat × Nat)) : Prop where
  lined : LinedBlock t' block b'
  pieces : b'.children.flatMap Node.pieces =
    Piece.styleRange tag range? (b.children.flatMap Node.pieces)
  embedBelow? : t'.embedBelow? block block = t.embedBelow? block block

theorem Dyed.shapes {b' : Node} {tag : String} {range? : Option (Nat × Nat)}
    (h : Dyed t t' block b b' tag range?) : Node.shapes b'.children = Node.shapes b.children := by
  rw [Node.shapes, h.pieces, Piece.map_shape_styleRange]
  rfl

theorem dyed_apply (h : LinedBlock t block b) (start stop : Nat) (tag : String) :
    ∃ b', Dyed t (t.apply block (t.span block start stop) tag).2 block b b' tag
      (Shape.range? (t.embedBelow? block block).isSome (Node.shapes b.children) start stop) := by
  have hr := t.range_nonemptyEndpoints block (t.span block start stop)
  rw [Tree.span, h.limits_resolve, h.limits_resolve, ← Tree.span] at hr
  rw [Shape.range?, ← hr, Tree.apply_eq, Tree.applyStyle_eq]
  cases hn : t.nonemptyEndpoints block (t.span block start stop) with
  | error => exact ⟨b, h, rfl, rfl⟩
  | ok r =>
    obtain ⟨e, left, right⟩ := r
    obtain ⟨_, _, _, hc⟩ := Tree.cover_of_node h.wf h.node h.not_isLeaf hn
    obtain ⟨cs, hm⟩ := Tree.marked_apply h.wf h.node h.flat h.leaves hc tag
    obtain ⟨ps, qs, rs, hp, rfl, rfl, hp'⟩ := hm.pieces
    have hw : ∀ p ∈ ps ++ qs ++ rs, p.isStyleable → 0 < p.width := fun p hm hs =>
      Nat.lt_of_lt_of_eq Nat.one_pos (h.width_of_isStyleable (hp ▸ hm) hs).symm
    have hpieces : cs.flatMap Node.pieces = Piece.styleRange tag
        (some (Piece.total ps, Piece.total (ps ++ qs))) (b.children.flatMap Node.pieces) := by
      rw [hp', hp]
      exact (Piece.styleBetween_eq hw).symm
    have hs : Node.shapes cs = Node.shapes b.children := by
      rw [Node.shapes, hpieces, Piece.map_shape_styleRange]
      rfl
    have hl : LinedBlock _ block (b.withChildren cs) :=
      ⟨hm.wf, hm.toRebuilt.node? h.node, h.not_isLeaf, hm.leaves, hm.flat,
        lined_iff.mpr (hs ▸ lined_iff.mp h.lined)⟩
    exact ⟨_, hl, hpieces, hm.toRebuilt.embedBelow? h.wf h.node⟩

end LinedBlock

end RichText
