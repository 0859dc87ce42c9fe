import RichText.Proofs.Toggle

namespace RichText

namespace Node

theorem pieces_of_isAtomic {n : Node} (h : n.kind.isAtomic) : n.pieces = [⟨.node n, none⟩] := by
  have ⟨i, k, cs⟩ := n
  cases k <;> first | contradiction | rfl

theorem charCount_around {i : NodeId} {s : StyleSet} (n : Node) :
    (mk i (.wrapper s) [n]).charCount = n.charCount := by
  rw [charCount_of_not_isLeaf rfl]
  simp

theorem isChar_of_mem_items {n : Node} (h : n.isText) (hp : p ∈ n.items.map (Piece.mk · host)) :
    p.isChar := by
  have ⟨s, hk⟩ := isText_iff.mp h
  rw [items_text hk, List.map_map] at hp
  have ⟨c, _, e⟩ := List.mem_map.mp hp
  exact e ▸ rfl

end Node

namespace Piece

-- Only chars are in wrappers. The rest are breaks and embeds, the embeds hold texts that are not empty,
-- and a trailing break comes last.
structure Simple (ps : List Piece) : Prop where
  char : ∀ p ∈ ps, p.host.isSome → p.isChar
  atomic : ∀ p ∈ ps, ∀ n ∈ p.node?, n.kind.isAtomic
  embed : ∀ p ∈ ps, ∀ n ∈ p.node?, n.kind.isEmbed → ∀ m ∈ n.children, m.isText ∧ m.isEmptyText = false
  trailing : ∀ p ∈ ps.dropLast, ∀ n ∈ p.node?, n.kind ≠ .lineBreak true

namespace Simple

variable {ps qs : List Piece}

theorem isStyleable (h : Simple ps) (hp : p ∈ ps) : p.isStyleable = p.isChar := by
  have hc := h.char p hp
  have ⟨item, host⟩ := p
  cases item with
  | char => rfl
  | node n => cases host <;> simp_all [Piece.isStyleable, isChar, node?]

theorem of_item (h : Simple ps) (e : ps.map item = qs.map item)
    (hc : ∀ q ∈ qs, q.host.isSome → q.isChar) : Simple qs where
  char := hc
  atomic q hq n hn := by
    have ⟨p, hp, e⟩ := List.mem_map.mp (e ▸ List.mem_map_of_mem hq)
    exact h.atomic p hp n (by simpa [node?, e] using hn)
  embed q hq n hn := by
    have ⟨p, hp, e⟩ := List.mem_map.mp (e ▸ List.mem_map_of_mem hq)
    exact h.embed p hp n (by simpa [node?, e] using hn)
  trailing q hq n hn := by
    have e := congrArg List.dropLast e
    rw [← List.map_dropLast, ← List.map_dropLast] at e
    have ⟨p, hp, e⟩ := List.mem_map.mp (e ▸ List.mem_map_of_mem hq)
    exact h.trailing p hp n (by simpa [node?, e] using hn)

end Simple

end Piece

namespace Canonical

-- Content in canonical form in which each wrapper is around one text, embeds hold texts that are not
-- empty, and a trailing break comes last.
structure IsSimple (ns : List Node) : Prop where
  canonical : IsCanonical ns
  child : ∀ n ∈ ns, n.isText ∨ n.kind.isAtomic ∨ n.isWrapper
  inside : ∀ w ∈ ns, w.isWrapper → w.children.length = 1 ∧ ∀ n ∈ w.children, n.isText
  embed : ∀ n ∈ ns, n.kind.isEmbed → ∀ m ∈ n.children, m.isText ∧ m.isEmptyText = false
  trailing : ∀ n ∈ ns.dropLast, n.kind ≠ .lineBreak true

instance (ns : List Node) : Decidable (IsSimple ns) :=
  decidable_of_iff (_ ∧ _ ∧ _ ∧ _ ∧ _)
    ⟨fun h => ⟨h.left, h.right.left, h.right.right.left, h.right.right.right.left,
      h.right.right.right.right⟩,
    fun h => ⟨h.canonical, h.child, h.inside, h.embed, h.trailing⟩⟩

theorem IsCanonical.dropLast_pieces {ms : List Node} (h : IsCanonical (ms ++ [n])) :
    ((ms ++ [n]).flatMap Node.pieces).dropLast =
      ms.flatMap Node.pieces ++ n.pieces.dropLast := by
  rw [List.flatMap_append, List.flatMap_singleton,
    List.dropLast_append_of_ne_nil (h.pieces_ne_nil (by simp))]

namespace IsSimple

variable {ns : List Node} {n : Node}

theorem wrapper (h : IsSimple ns) (hn : n ∈ ns) (hw : n.isWrapper) :
    ∃ i s m, n = .mk i (.wrapper s) [m] ∧ m.isText ∧ m.items ≠ [] := by
  have ⟨hl, ht⟩ := h.inside n hn hw
  have hm := (h.canonical.mergedInside n hn hw).nonempty
  have ⟨i, k, cs⟩ := n
  cases k <;> try contradiction
  case wrapper s =>
    have ⟨m, e⟩ := List.length_eq_one_iff.mp hl
    rw [Node.children_mk] at e
    subst e
    exact ⟨i, s, m, rfl, ht m (by simp), Node.items_ne_nil (hm m (by simp))⟩

theorem cases (h : IsSimple ns) (hn : n ∈ ns) :
    (n.isText ∧ n.items ≠ []) ∨ n.kind.isAtomic ∨
      ∃ i s m, n = .mk i (.wrapper s) [m] ∧ m.isText ∧ m.items ≠ [] := by
  obtain ht | ha | hw := h.child n hn
  case inl => exact .inl ⟨ht, Node.items_ne_nil (h.canonical.merged.nonempty n hn)⟩
  case inr.inl => exact .inr (.inl ha)
  case inr.inr => exact .inr (.inr (h.wrapper hn hw))

theorem charCount_pos (h : IsSimple ns) (hn : n ∈ ns) (hs : n.isStyleable) : 0 < n.charCount := by
  obtain ⟨ht, hi⟩ | ha | ⟨i, s, m, rfl, hm, hi⟩ := h.cases hn
  case inl => exact Node.charCount_of_isText_pos ht hi
  case inr.inl => simp [Node.not_isStyleable_of_isAtomic ha] at hs
  case inr.inr => exact Node.charCount_around m ▸ Node.charCount_of_isText_pos hm hi

theorem mem_pieces (h : IsSimple ns) (hn : n ∈ ns) (hp : p ∈ n.pieces) :
    p.isChar ∨ n.kind.isAtomic ∧ p = ⟨.node n, none⟩ := by
  obtain ⟨ht, hi⟩ | ha | ⟨i, s, m, rfl, ht, -⟩ := h.cases hn
  case inl => exact .inl (Node.isChar_of_mem_items ht (Seat.pieces_of_isText ht ▸ hp))
  case inr.inl => exact .inr ⟨ha, by simpa [Node.pieces_of_isAtomic ha] using hp⟩
  case inr.inr =>
    rw [Node.pieces_wrapper rfl, Node.children_mk, List.flatMap_singleton] at hp
    exact .inl (Node.isChar_of_mem_items ht hp)

theorem mem_of_node? (h : IsSimple ns) (hp : p ∈ ns.flatMap Node.pieces) (hn : n ∈ p.node?) :
    n ∈ ns ∧ n.kind.isAtomic ∧ p = ⟨.node n, none⟩ := by
  have ⟨m, hm, hp⟩ := List.mem_flatMap.mp hp
  cases h.mem_pieces hm hp
  case inl hc => simp_all [Piece.isChar]
  case inr ha =>
    have e : m = n := by simpa [ha.right, Piece.node?] using hn
    exact ⟨e ▸ hm, e ▸ ha.left, e ▸ ha.right⟩

theorem simple_pieces (h : IsSimple ns) : Piece.Simple (ns.flatMap Node.pieces) where
  char p hp hh := by
    have ⟨n, hn, hp⟩ := List.mem_flatMap.mp hp
    cases h.mem_pieces hn hp
    case inl hc => exact hc
    case inr ha => simp [ha.right] at hh
  atomic p hp n hn := (h.mem_of_node? hp hn).right.left
  embed p hp n hn := h.embed n (h.mem_of_node? hp hn).left
  trailing p hp n hn := by
    obtain rfl | ⟨ms, l, e⟩ := ns.eq_nil_or_concat
    case inl => simp at hp
    case inr =>
      rw [List.concat_eq_append] at e
      subst e
      rw [h.canonical.dropLast_pieces, List.mem_append] at hp
      cases hp
      case inl hp =>
        -- The piece stands for a child before the last one.
        have ⟨m, hm, hp⟩ := List.mem_flatMap.mp hp
        cases h.mem_pieces (List.mem_append_left _ hm) hp
        case inl hc => simp_all [Piece.isChar]
        case inr ha =>
          have e : m = n := by simpa [ha.right, Piece.node?] using hn
          exact e ▸ h.trailing m (by simpa using hm)
      case inr hp =>
        cases h.mem_pieces (by simp) (List.dropLast_subset _ hp)
        case inl hc => simp_all [Piece.isChar]
        case inr ha => simp [Node.pieces_of_isAtomic ha.left] at hp

end IsSimple

theorem IsSimple.of_pieces {ns : List Node} (hc : IsCanonical ns)
    (h : Piece.Simple (ns.flatMap Node.pieces)) : IsSimple ns := by
  refine ⟨hc, fun n hn => ?child, fun w hw hk => ?inside, fun n hn hk => ?embed, fun n hn => ?trailing⟩
  case child =>
    cases ht : n.isText
    case true => exact .inl rfl
    case false =>
      cases hw : n.isWrapper
      case true => exact .inr (.inr rfl)
      case false =>
        have hp : ⟨.node n, none⟩ ∈ n.pieces := by
          simp [Node.pieces_of_not_isWrapper hw, Node.items_of_not_isText ht]
        exact .inr (.inl (h.atomic _ (List.mem_flatMap.mpr ⟨n, hn, hp⟩) n rfl))
  case inside =>
    have ht : ∀ m ∈ w.children, m.isText := by
      intro m hm
      obtain ⟨i, k, cs⟩ := w
      cases k <;> try contradiction
      case wrapper s =>
        by_contra ht
        have hp : ⟨.node m, some s⟩ ∈ ns.flatMap Node.pieces := by
          refine List.mem_flatMap.mpr ⟨_, hw, ?_⟩
          rw [Node.pieces_wrapper rfl]
          exact List.mem_map.mpr ⟨.node m, List.mem_flatMap.mpr ⟨m, hm, by
            simp [Node.items_of_not_isText (by simpa using ht)]⟩, rfl⟩
        exact absurd (h.char _ hp rfl) (by simp [Piece.isChar, Piece.node?])
    refine ⟨?_, ht⟩
    have hne := hc.nonempty w hw hk
    have ha := (hc.mergedInside w hw hk).apart
    cases hcs : w.children with
    | nil => contradiction
    | cons m ms =>
      cases ms with
      | nil => rfl
      | cons m' ms =>
        rw [hcs] at ha ht
        exact absurd ⟨ht m (by simp), ht m' (by simp)⟩ (List.isChain_cons_cons.mp ha).left
  case embed =>
    have hp : ⟨.node n, none⟩ ∈ n.pieces := by
      simp [Node.pieces_of_isAtomic (show n.kind.isAtomic by simp [Kind.isAtomic, hk])]
    exact h.embed _ (List.mem_flatMap.mpr ⟨n, hn, hp⟩) n rfl hk
  case trailing =>
    intro hk
    obtain ⟨ms, l, e⟩ := ns.eq_nil_or_concat.resolve_left (by rintro rfl; simp at hn)
    rw [List.concat_eq_append] at e
    subst e
    rw [List.dropLast_concat] at hn
    have hp : ⟨.node n, none⟩ ∈ n.pieces := by
      simp [Node.pieces_of_isAtomic (show n.kind.isAtomic by simp [Kind.isAtomic, Kind.isBreak, hk])]
    refine h.trailing ⟨.node n, none⟩ ?_ n rfl hk
    rw [hc.dropLast_pieces]
    exact List.mem_append_left _ (List.mem_flatMap.mpr ⟨n, hn, hp⟩)

end Canonical

namespace Node

theorem preorderAll_of_isText {ns : List Node} (h : ∀ n ∈ ns, n.isText) (hl : LeavesEmptyAll ns) :
    preorderAll ns = ns := by
  have hn : ∀ n ∈ ns, n.preorder = [n] := by
    intro n hn
    have hk : n.kind.isLeaf := by simpa [Kind.isLeaf] using .inl (h n hn)
    rw [preorder_eq, (leavesEmpty_iff.mp (leavesEmptyAll_iff.mp hl n hn)).left hk]
    rfl
  rw [preorderAll_eq_flatMap, List.flatMap_congr hn, List.flatMap_singleton']

end Node

structure SimpleBlock (t : Tree) (block : NodeId) (b : Node) : Prop where
  wf : t.WellFormed
  node : t.node? block = some b
  not_isLeaf : b.kind.isLeaf = false
  not_isWrapper : b.isWrapper = false
  leaves : Node.LeavesEmptyAll b.children
  simple : Canonical.IsSimple b.children

namespace SimpleBlock

variable {t : Tree} {block : NodeId} {b n m : Node}

section

variable (h : SimpleBlock t block b)

include h

theorem not_isText : b.isText = false :=
  Node.not_isText_of_not_isLeaf h.not_isLeaf

theorem id_eq : b.id = block :=
  Tree.id_of_node? h.node

theorem charCount_eq : b.charCount = Piece.total (b.children.flatMap Node.pieces) := by
  rw [Node.charCount_of_not_isLeaf h.not_isLeaf, Node.total_pieces]

theorem lt_of_isCharAt (ho : t.isCharAt block o) : o < b.charCount := by
  rw [Tree.isCharAt, Tree.children_of_node? h.node] at ho
  obtain ⟨p, hp, _⟩ := (Option.any_eq_true ..).mp ho
  exact h.charCount_eq ▸ Piece.lt_total_of_itemAt? hp

theorem isText_of_beneath (hn : n ∈ b.children) (hm : m ∈ Node.preorderAll n.children) :
    m.isText := by
  have hl := Node.leavesEmpty_iff.mp (Node.leavesEmptyAll_iff.mp h.leaves n hn)
  have ht : ∀ m ∈ n.children, m.isText := by
    cases hk : n.kind.isLeaf
    case true => simp [hl.left hk]
    case false =>
      cases hw : n.isWrapper
      case true => exact (h.simple.inside n hn hw).right
      case false =>
        have ha := (h.simple.child n hn).resolve_left (by simp_all [Kind.isLeaf, Node.isText])
        have he : n.kind.isEmbed := by simp_all [Kind.isAtomic, Kind.isLeaf]
        exact fun m hm => (h.simple.embed n hn he m hm).left
  rw [Node.preorderAll_of_isText ht hl.right] at hm
  exact ht m hm

theorem mem_or_isText (hn : n ∈ Node.preorderAll b.children) : n ∈ b.children ∨ n.isText := by
  rw [Node.preorderAll_eq_flatMap] at hn
  have ⟨c, hc, hn⟩ := List.mem_flatMap.mp hn
  rw [Node.preorder_eq] at hn
  cases List.mem_cons.mp hn
  case inl e => exact .inl (e ▸ hc)
  case inr hn => exact .inr (h.isText_of_beneath hc hn)

theorem mem_of_isEmbed (hn : n ∈ Node.preorderAll b.children) (hk : n.kind.isEmbed) :
    n ∈ b.children := by
  refine (h.mem_or_isText hn).resolve_right fun ht => ?_
  rw [Node.isText] at ht
  cases hk' : n.kind <;> simp_all [Kind.isText, Kind.isEmbed]

theorem legible : Node.Legible b.children where
  leaf := h.leaves
  embed n hn hk m hm := by
    have ht := h.isText_of_beneath (h.mem_of_isEmbed hn hk) hm
    rw [Node.isText] at ht
    cases hk' : m.kind <;> simp_all [Kind.isText, Kind.isEmbed]
  text n hn hk m hm := by
    have ht := h.isText_of_beneath (h.mem_of_isEmbed hn hk) (List.takeWhile_subset _ hm)
    rw [Node.isText] at ht
    cases hk' : m.kind <;> simp_all [Kind.isText, Kind.isBreak]

end

end SimpleBlock

end RichText
