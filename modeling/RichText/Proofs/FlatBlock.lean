import RichText.Proofs.Canonical
import RichText.Proofs.FlatWalk

namespace RichText

namespace Piece

def node? (p : Piece) : Option Node :=
  match p.item with
  | .char _ => none
  | .node n => some n

def isChar (p : Piece) : Bool :=
  p.node?.isNone

-- Embeds hold texts, none of them empty, and a trailing break comes last.
structure Steady (ps : List Piece) : Prop where
  embed : ∀ p ∈ ps, ∀ n ∈ p.node?, n.kind.isEmbed →
    n.children ≠ [] ∧ ∀ m ∈ n.children, m.isText ∧ m.isEmptyText = false
  trailing : ∀ p ∈ ps.dropLast, ∀ n ∈ p.node?, n.kind ≠ .lineBreak true

instance (ps : List Piece) : Decidable (Steady ps) :=
  decidable_of_iff (_ ∧ _) ⟨fun h => ⟨h.left, h.right⟩, fun h => ⟨h.embed, h.trailing⟩⟩

end Piece

namespace Node

theorem not_isWrapper_of_solid {n : Node} (h : n.Solid) : n.isWrapper = false := by
  unfold Solid at h
  rw [isWrapper]
  cases hk : n.kind <;> simp_all [Kind.isWrapper, Kind.isLeaf, Kind.isText, Kind.isBreak, Kind.isEmbed]

theorem Flat.of_isFlat {ns : List Node} (h : Canonical.IsFlat ns) : Flat ns where
  child n hn := by
    obtain ht | hk | hw := h.child n hn
    case inl => exact .inl (solid_iff.mpr (.inl ht))
    case inr.inl => exact .inl (solid_iff.mpr (.inr hk))
    case inr.inr => exact .inr hw
  inside w hw hk n hn := solid_iff.mpr (h.inside w hw hk n hn)

theorem Flat.isAtomic {ns : List Node} (h : Flat ns) (hp : p ∈ ns.flatMap pieces)
    (hn : n ∈ p.node?) : n.kind.isAtomic := by
  have ⟨c, hc, hp⟩ := List.mem_flatMap.mp hp
  have atomic {m : Node} {host : Option StyleSet} (hm : m.Solid)
      (hp : p ∈ m.items.map (⟨·, host⟩)) : n.kind.isAtomic := by
    have ⟨item, hi, e⟩ := List.mem_map.mp hp
    cases ht : m.isText
    case true =>
      have ⟨s, hs⟩ := isText_iff.mp ht
      rw [items_text hs] at hi
      have ⟨c, _, e'⟩ := List.mem_map.mp hi
      simp [← e, ← e', Piece.node?] at hn
    case false =>
      rw [items_of_not_isText ht, List.mem_singleton] at hi
      have e' : m = n := by simpa [← e, hi, Piece.node?] using hn
      exact e' ▸ (solid_iff.mp hm).resolve_left (by simp [ht])
  cases hw : c.isWrapper
  case false =>
    rw [pieces_of_not_isWrapper hw] at hp
    exact atomic ((h.child c hc).resolve_right (by simp [hw])) hp
  case true =>
    have ⟨i, k, cs⟩ := c
    cases k <;> try contradiction
    case wrapper s =>
      rw [pieces_wrapper rfl, List.map_flatMap] at hp
      have ⟨m, hm, hp⟩ := List.mem_flatMap.mp hp
      exact atomic (h.inside _ hc rfl m hm) hp

theorem items_ne_nil {n : Node} (h : n.isEmptyText = false) : n.items ≠ [] := by
  intro hi
  have ht : n.isText := by
    by_contra hn
    simp [items_of_not_isText (by simpa using hn)] at hi
  exact absurd (isEmptyText_iff.mpr ⟨ht, hi⟩) (by simp [h])

theorem items_of_isEmbed {n : Node} (h : n.kind.isEmbed) : n.items = [.node n] :=
  items_of_not_isText <| by
    rw [isText]
    cases hk : n.kind <;> simp_all [Kind.isEmbed, Kind.isText]

end Node

namespace Seat

theorem pieces_plug_of_solid {s : Seat} {n : Node} (h : n.Solid) :
    (s.plug [n]).flatMap Node.pieces = s.lead ++ s.seated [n] ++ s.rest := by
  cases s with
  | bare => simp [seated, Node.pieces_of_not_isWrapper (Node.not_isWrapper_of_solid h)]
  | held => simp [seated, Node.pieces]

end Seat

namespace Canonical

theorem IsCanonical.not_isEmptyText {ns : List Node} {s : Seat} (h : IsCanonical ns)
    (hc : ns = s.plug [n]) : n.isEmptyText = false := by
  cases s with
  | bare before after => exact h.merged.nonempty n (by simp [hc])
  | held before i styles left right after =>
    have hw : Node.mk i (.wrapper styles) (left ++ n :: right) ∈ ns := by simp [hc]
    exact (h.mergedInside _ hw rfl).nonempty n (by simp)

theorem IsCanonical.pieces_ne_nil {ns : List Node} (h : IsCanonical ns) (hn : n ∈ ns) :
    n.pieces ≠ [] := by
  cases hw : n.isWrapper
  case false =>
    rw [Node.pieces_of_not_isWrapper hw]
    simpa using Node.items_ne_nil (h.merged.nonempty n hn)
  case true =>
    have ⟨m, ms, e⟩ := List.exists_cons_of_ne_nil (h.nonempty n hn hw)
    have hm := Node.items_ne_nil ((h.mergedInside n hn hw).nonempty m (by simp [e]))
    have ⟨i, k, cs⟩ := n
    cases k <;> try contradiction
    case wrapper s =>
      rw [Node.children_mk] at e
      simp [Node.pieces, e, hm]

end Canonical

structure FlatBlock (t : Tree) (block : NodeId) (b : Node) : Prop where
  wf : t.WellFormed
  node : t.node? block = some b
  not_isLeaf : b.kind.isLeaf = false
  leaves : Node.LeavesEmptyAll b.children
  canonical : Canonical.IsFlat b.children
  steady : Piece.Steady (b.children.flatMap Node.pieces)

namespace FlatBlock

variable {t : Tree} {block : NodeId} {b n : Node} {s : Seat}

theorem not_isText (h : FlatBlock t block b) : b.isText = false :=
  Node.not_isText_of_not_isLeaf h.not_isLeaf

theorem flat (h : FlatBlock t block b) : Node.Flat b.children :=
  .of_isFlat h.canonical

section Seat

variable (h : FlatBlock t block b) (hc : b.children = s.plug [n])

include h hc

theorem solid (hn : n.isWrapper = false) : n.Solid := by
  cases s with
  | bare before after => exact (h.flat.child n (by simp [hc])).resolve_right (by simp [hn])
  | held before i styles left right after =>
    exact h.flat.inside (.mk i (.wrapper styles) (left ++ n :: right)) (by simp [hc]) rfl n (by simp)

theorem leavesEmpty : n.LeavesEmpty := by
  have hl := h.leaves
  rw [hc, Seat.leavesEmptyAll_plug] at hl
  simpa using hl.right

theorem embed (hk : n.kind.isEmbed) :
    n.children ≠ [] ∧ ∀ m ∈ n.children, m.isText ∧ m.isEmptyText = false := by
  have hn : n.Solid := by simp [Node.Solid, hk]
  refine h.steady.embed ⟨.node n, s.host⟩ ?_ n rfl hk
  rw [hc, Seat.pieces_plug_of_solid hn]
  simp [Seat.seated, Node.items_of_isEmbed hk]

theorem preorderAll_children (hn : n.Solid) : Node.preorderAll n.children = n.children := by
  have hl := Node.leavesEmpty_iff.mp (h.leavesEmpty hc)
  cases hk : n.kind.isEmbed
  case false =>
    have hk : n.kind.isLeaf := by simpa [Node.Solid, hk] using hn
    rw [hl.left hk]
    rfl
  case true =>
    have hm : ∀ m ∈ n.children, m.preorder = [m] := by
      intro m hm
      have hlm := Node.leavesEmptyAll_iff.mp hl.right m hm
      have ht := ((h.embed hc hk).right m hm).left
      have hk : m.kind.isLeaf := by simpa [Kind.isLeaf] using .inl ht
      rw [Node.preorder_eq, (Node.leavesEmpty_iff.mp hlm).left hk]
      rfl
    rw [Node.preorderAll_eq_flatMap, List.flatMap_congr hm, List.flatMap_singleton']

theorem isText_of_mem_children (hn : n.Solid) (hm : m ∈ n.children) : m.isText := by
  cases hk : n.kind.isEmbed
  case true => exact ((h.embed hc hk).right m hm).left
  case false =>
    have hk : n.kind.isLeaf := by simpa [Node.Solid, hk] using hn
    rw [(Node.leavesEmpty_iff.mp (h.leavesEmpty hc)).left hk] at hm
    contradiction

theorem eq_of_isEmbed (hn : n.Solid) (hm : m ∈ n.preorder) (hk : m.kind.isEmbed) : m = n := by
  rw [Node.preorder_eq, h.preorderAll_children hc hn] at hm
  cases List.mem_cons.mp hm
  case inl e => exact e
  case inr hm =>
    have ht := h.isText_of_mem_children hc hn hm
    rw [Node.isText] at ht
    cases hk' : m.kind <;> simp_all [Kind.isText, Kind.isEmbed]

end Seat

theorem exists_seat_of_embed (h : FlatBlock t block b) (hn : n ∈ Node.preorderAll b.children)
    (hk : n.kind.isEmbed) : ∃ s : Seat, b.children = s.plug [n] := by
  rw [Node.preorderAll_eq_flatMap] at hn
  obtain ⟨c, hcs, hn⟩ := List.mem_flatMap.mp hn
  obtain ⟨as, bs, e⟩ := List.append_of_mem hcs
  have hc : b.children = (Seat.bare as bs).plug [c] := by simpa using e
  cases hw : c.isWrapper
  case false => exact ⟨_, h.eq_of_isEmbed hc (h.solid hc hw) hn hk ▸ hc⟩
  case true =>
    obtain ⟨i, k, cs⟩ := c
    cases k <;> try contradiction
    case wrapper styles =>
      cases List.mem_cons.mp hn
      case inl e => simp [e, Kind.isEmbed] at hk
      case inr hn =>
        rw [Node.preorderAll_eq_flatMap] at hn
        obtain ⟨x, hx, hn⟩ := List.mem_flatMap.mp hn
        obtain ⟨left, right, e'⟩ := List.append_of_mem hx
        have hc : b.children = (Seat.held as i styles left right bs).plug [x] := by simp [e, e']
        have hs : x.Solid := h.flat.inside _ hcs rfl x hx
        exact ⟨_, h.eq_of_isEmbed hc hs hn hk ▸ hc⟩

theorem legible (h : FlatBlock t block b) : Node.Legible b.children where
  leaf := h.leaves
  embed n hn hk m hm := by
    have ⟨s, hc⟩ := h.exists_seat_of_embed hn hk
    have hs : n.Solid := by simp [Node.Solid, hk]
    rw [h.preorderAll_children hc hs] at hm
    have ht := h.isText_of_mem_children hc hs hm
    rw [Node.isText] at ht
    cases hk' : m.kind <;> simp_all [Kind.isText, Kind.isEmbed]
  text n hn hk m hm := by
    have ⟨s, hc⟩ := h.exists_seat_of_embed hn hk
    have hs : n.Solid := by simp [Node.Solid, hk]
    rw [h.preorderAll_children hc hs] at hm
    have ht := h.isText_of_mem_children hc hs ((List.takeWhile_sublist _).subset hm)
    have := List.mem_takeWhile_imp hm
    simp [ht] at this

section Rest

variable (h : FlatBlock t block b)

include h

theorem items_ne_nil (hc : b.children = s.plug [n]) : n.items ≠ [] :=
  Node.items_ne_nil (h.canonical.canonical.not_isEmptyText hc)

theorem after_eq_nil (hc : b.children = as ++ c :: bs) (hr : bs.flatMap Node.pieces = []) :
    bs = [] := by
  cases bs with
  | nil => rfl
  | cons c' bs =>
    have hne : c'.pieces ≠ [] := h.canonical.canonical.pieces_ne_nil (by simp [hc])
    simp [hne] at hr

theorem marksAfter_eq_nil (hc : b.children = s.plug [n]) (hr : s.rest = []) (i : NodeId) :
    s.marksAfter i = [] := by
  cases s with
  | bare before after =>
    have ha : after = [] := h.after_eq_nil (by simpa using hc) hr
    simp [Seat.marksAfter, ha, Node.landmarksAmong]
  | held before j styles left right after =>
    rw [Seat.rest_held, List.append_eq_nil_iff] at hr
    have ha : after = [] := h.after_eq_nil (by simpa using hc) hr.right
    have hri : right = [] := by
      cases right with
      | nil => rfl
      | cons x xs =>
        have hx : b.children = (Seat.held before j styles (left ++ [n]) xs after).plug [x] := by
          simp [hc]
        simp [h.items_ne_nil hx] at hr
    simp [Seat.marksAfter, ha, hri, Node.landmarksAmong]

theorem passable (hl : Node.landmarksAmong b.id 0 b.children = ls ++ l :: rs) (hr : rs ≠ []) :
    Landmark.Passable l.node := by
  obtain ⟨s, hc, _, _, ha⟩ := Node.exists_seat_of_landmark h.flat [] hl
  rw [List.nil_append] at hc
  have hm : l ∈ Node.landmarksAmong b.id 0 b.children := by simp [hl]
  have hn : l.node.Solid := Node.solid_of_mem_landmarksAmong b.children hm
  constructor
  case solid => exact hn
  case placed =>
    intro hk
    have hrest : s.rest ≠ [] := fun hr' => hr (ha ▸ h.marksAfter_eq_nil hc hr' _)
    have ht : l.node.isText = false := by rw [Node.isText, hk]; rfl
    refine h.steady.trailing ⟨.node l.node, s.host⟩ ?_ l.node rfl hk
    rw [hc, Seat.pieces_plug_of_solid hn, List.dropLast_append_of_ne_nil hrest]
    simp [Seat.seated, Node.items_of_not_isText ht]
  case text =>
    intro hk
    obtain ⟨hne, ht⟩ := h.embed hc hk
    rw [h.preorderAll_children hc hn]
    cases hcs : l.node.children with
    | nil => contradiction
    | cons m ms => simp [(ht m (by simp [hcs])).left]

theorem width_pos (hp : p ∈ (b.children.flatMap Node.pieces).dropLast) : 0 < p.width := by
  have hp' := List.dropLast_subset _ hp
  obtain ⟨item, host⟩ := p
  cases item with
  | char c => simp [Piece.width, Piece.glyphs]
  | node n =>
    have ha : n.kind.isAtomic := h.flat.isAtomic hp' rfl
    have hw : (Piece.mk (.node n) host).width = n.charCount := Node.length_glyphs ..
    rw [hw]
    cases hk : n.kind.isEmbed
    case true =>
      obtain ⟨hne, ht⟩ := h.steady.embed _ hp' n rfl hk
      have hl : n.kind.isLeaf = false := by
        cases hn : n.kind <;> simp_all [Kind.isEmbed, Kind.isLeaf, Kind.isText, Kind.isBreak]
      obtain ⟨m, ms, e⟩ := List.exists_cons_of_ne_nil hne
      obtain ⟨hm, hne⟩ := ht m (by simp [e])
      have hlen := List.length_pos_iff.mpr (Node.items_ne_nil hne)
      rw [Node.length_items hm] at hlen
      rw [Node.charCount_of_not_isLeaf hl, e, List.map_cons, List.sum_cons]
      omega
    case false =>
      have hb : n.kind.isBreak := by simpa [Kind.isAtomic, hk] using ha
      have hl : n.kind.isLeaf := by simp [Kind.isLeaf, hb]
      have ht := h.steady.trailing _ hp n rfl
      rw [Node.charCount_of_isLeaf hl]
      cases hn : n.kind <;> simp_all [Kind.isBreak, Kind.width]

theorem total_pos (hc : b.children.flatMap Node.pieces = ps ++ qs ++ rs) (hq : qs ≠ [])
    (hr : rs ≠ []) : 0 < Piece.total qs := by
  have ⟨p, qs', e⟩ := List.exists_cons_of_ne_nil hq
  have hp : p ∈ (b.children.flatMap Node.pieces).dropLast := by
    rw [hc, List.dropLast_append_of_ne_nil hr, e]
    simp
  have := h.width_pos hp
  rw [Piece.total_eq_sum, e, List.map_cons, List.sum_cons]
  omega

theorem charCount_pos (hc : b.children = s.plug [n]) (hn : n.Solid) (hr : s.marksAfter i ≠ []) :
    0 < n.charCount := by
  have hp := congrArg (·.flatMap Node.pieces) hc
  rw [Seat.pieces_plug_of_solid hn] at hp
  have hs : s.seated [n] ≠ [] := by simpa [Seat.seated] using h.items_ne_nil hc
  have hpos := h.total_pos hp hs fun hr' => hr (h.marksAfter_eq_nil hc hr' i)
  rwa [Seat.seated, List.flatMap_singleton, Node.total_items] at hpos

end Rest

end FlatBlock

end RichText
