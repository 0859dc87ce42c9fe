import RichText.Restyle.Apply
import RichText.Proofs.Count

namespace RichText

theorem bind_eq_ok {x : Except ε α} {f : α → Except ε β} :
    (x >>= f) = .ok b ↔ ∃ a, x = .ok a ∧ f a = .ok b := by
  cases x with
  | error e => exact ⟨nofun, nofun⟩
  | ok a => exact ⟨fun h => ⟨a, rfl, h⟩, fun ⟨_, h, h'⟩ => by cases h; exact h'⟩

theorem mapError_eq_ok {x : Except ε α} {f : ε → ε'} : x.mapError f = .ok a ↔ x = .ok a := by
  cases x <;> simp [Except.mapError]

namespace Location

theorem top_child? {l : Location} (h : l.child? i = some l') : l'.top = l.top := by
  obtain ⟨n, hn, rfl⟩ := Option.map_eq_some_iff.mp h
  have hi := (List.getElem?_eq_some_iff.mp hn).choose
  have hc : l.node.children.take i ++ n :: l.node.children.drop (i + 1) = l.node.children := by
    rw [← (List.getElem?_eq_some_iff.mp hn).choose_spec, ← List.drop_eq_getElem_cons hi,
      List.take_append_drop]
  simp [top, Frame.plug, hc, Node.eta]

theorem top_seekRight_go {path : List Frame} {ns : List Node}
    (h : seekRight.go p f path before n ns = some l) :
    l.top = (Location.mk (.mk f.id f.kind (before.reverse ++ n :: ns)) path).top := by
  induction ns generalizing before n with
  | nil =>
    rw [seekRight.go] at h
    split at h
    case isTrue => cases h; rfl
    case isFalse => contradiction
  | cons m ns ih =>
    rw [seekRight.go] at h
    split at h
    case isTrue => cases h; rfl
    case isFalse => simpa using ih h

theorem top_seekRight {l : Location} (h : l.seekRight p = some l') : l'.top = l.top := by
  obtain ⟨n, _ | ⟨f, path⟩⟩ := l
  case nil =>
    rw [seekRight] at h
    split at h
    case isTrue => cases h; rfl
    case isFalse => contradiction
  case cons => exact top_seekRight_go h

theorem top_seekLeft_go {path : List Frame} {ns : List Node}
    (h : seekLeft.go p f path after n ns = some l) :
    l.top = (Location.mk (.mk f.id f.kind (ns.reverse ++ n :: after)) path).top := by
  induction ns generalizing after n with
  | nil =>
    rw [seekLeft.go] at h
    split at h
    case isTrue => cases h; rfl
    case isFalse => contradiction
  | cons m ns ih =>
    rw [seekLeft.go] at h
    split at h
    case isTrue => cases h; rfl
    case isFalse => simpa using ih h

theorem top_seekLeft {l : Location} (h : l.seekLeft p = some l') : l'.top = l.top := by
  obtain ⟨n, _ | ⟨f, path⟩⟩ := l
  case nil =>
    rw [seekLeft] at h
    split at h
    case isTrue => cases h; rfl
    case isFalse => contradiction
  case cons => exact top_seekLeft_go h

end Location

namespace Spot

structure Lies (b : Node) (s : Spot) : Prop where
  top : s.location.top = b
  le : s.offset ≤ s.node.extent

namespace Lies

variable {b : Node} {s s' : Spot}

theorem atStart (h : l.top = b) : (atStart l).Lies b where
  top := h
  le := Nat.zero_le _

theorem atEnd (h : l.top = b) : (atEnd l).Lies b where
  top := h
  le := Nat.le_refl _

theorem startInBlock (h : s.Lies b) (hs : s.startInBlock = .ok s') : s'.Lies b := by
  unfold Spot.startInBlock at hs
  split at hs
  case isTrue =>
    split at hs <;> cases hs
    case h_1 hc => exact atStart (Location.top_child? hc |>.trans h.top)
  case isFalse => cases hs; exact h

theorem stopInBlock (h : s.Lies b) (hs : s.stopInBlock = .ok s') : s'.Lies b := by
  unfold Spot.stopInBlock at hs
  split at hs
  case isTrue =>
    split at hs
    case h_1 => contradiction
    case h_2 =>
      split at hs <;> cases hs
      case h_1 hc => exact atEnd (Location.top_child? hc |>.trans h.top)
  case isFalse => cases hs; exact h

theorem startPastAtoms (h : s.Lies b) (hs : s.startPastAtoms = .ok s') : s'.Lies b := by
  unfold Spot.startPastAtoms at hs
  split at hs
  case isTrue =>
    split at hs <;> cases hs
    case h_1 hc => exact atStart (Location.top_seekRight hc |>.trans h.top)
  case isFalse => cases hs; exact h

theorem stopPastAtoms (h : s.Lies b) (hs : s.stopPastAtoms = .ok s') : s'.Lies b := by
  unfold Spot.stopPastAtoms at hs
  split at hs
  case isTrue =>
    split at hs <;> cases hs
    case h_1 hc => exact atEnd (Location.top_seekLeft hc |>.trans h.top)
  case isFalse => cases hs; exact h

theorem startInWrapper (h : s.Lies b) : s.startInWrapper.Lies b := by
  unfold Spot.startInWrapper
  split
  case isTrue =>
    split
    case h_1 hc => exact atStart (Location.top_child? hc |>.trans h.top)
    case h_2 =>
      split
      case h_1 hc => exact atEnd (Location.top_child? hc |>.trans h.top)
      case h_2 => exact h
  case isFalse => exact h

theorem stopInWrapper (h : s.Lies b) : s.stopInWrapper.Lies b := by
  unfold Spot.stopInWrapper
  split
  case isTrue =>
    simp only
    split
    case h_1 l _ hc =>
      split at hc
      case isTrue => contradiction
      case isFalse => exact atEnd (Location.top_child? hc |>.trans h.top)
    case h_2 hc => exact atStart (Location.top_child? hc |>.trans h.top)
    case h_3 => exact h
  case isFalse => exact h

theorem seat (h : s.Lies b) (hs : s.isStyleable) :
    ∃ seat : Seat, b.children = seat.plug [s.node] ∧ s.node.isText ∧
      s.offset ≤ s.node.kind.textLength := by
  have ⟨⟨n, path⟩, offset⟩ := s
  simp only [isStyleable, node, Bool.and_eq_true] at hs
  have hle : offset ≤ n.kind.textLength := by
    have := h.le
    simpa [node, Node.extent, hs.left] using this
  have ht : _ = b := h.top
  split at hs
  case h_1 f => exact ⟨.bare f.before.reverse f.after, by simp [← ht, Location.top, Frame.plug, node],
      hs.left, hle⟩
  case h_2 f g =>
    have ⟨i, k, before, after⟩ := f
    unfold Kind.isWrapper at hs
    split at hs
    case h_1 styles hk =>
      refine ⟨.held g.before.reverse i styles before.reverse after g.after, ?_, hs.left, hle⟩
      simp only at hk
      simp [← ht, Location.top, Frame.plug, node, hk]
    case h_2 => simp at hs
  case h_3 => simp at hs

end Lies

end Spot

namespace Endpoints

theorem lies_of_ofSpots {start stop : Spot} {e : Endpoints} (h : ofSpots start stop = .ok e)
    (hs : start.Lies b) (ht : stop.Lies b) :
    ∃ start' stop' : Spot, e = ⟨start'.position, stop'.position⟩ ∧
      (start'.Lies b ∧ start'.isStyleable) ∧ (stop'.Lies b ∧ stop'.isStyleable) := by
  have ⟨s₁, hs₁, h⟩ := bind_eq_ok.mp h
  have ⟨t₁, ht₁, h⟩ := bind_eq_ok.mp h
  have ⟨s₂, hs₂, h⟩ := bind_eq_ok.mp h
  have ⟨t₂, ht₂, h⟩ := bind_eq_ok.mp h
  simp only at h
  split at h
  case isTrue hst =>
    cases h
    rw [Bool.and_eq_true] at hst
    have hs := ((hs.startInBlock hs₁).startPastAtoms hs₂).startInWrapper
    have ht := ((ht.stopInBlock ht₁).stopPastAtoms ht₂).stopInWrapper
    exact ⟨_, _, rfl, ⟨hs, hst.left⟩, ⟨ht, hst.right⟩⟩
  case isFalse => contradiction

end Endpoints

-- The endpoints delimit the offsets from `left` to `right` among the children of a block, in one
-- text or in two.
inductive Cover (cs : List Node) (e : Endpoints) : Nat → Nat → Prop
  | single {s : Seat} {n : Node} (children : cs = s.plug [n]) (isText : n.isText)
    (start : e.start.node = n.id) (stop : e.stop.node = n.id) (lt : e.start.offset < e.stop.offset)
    (le : e.stop.offset ≤ n.charCount) :
    Cover cs e (Piece.total s.lead + e.start.offset) (Piece.total s.lead + e.stop.offset)
  | several {p : Stretch} {n m : Node} (children : cs = p.plug [n] [m]) (firstIsText : n.isText)
    (lastIsText : m.isText) (start : e.start.node = n.id) (stop : e.stop.node = m.id)
    (startLe : e.start.offset ≤ n.charCount) (stopLe : e.stop.offset ≤ m.charCount) :
    Cover cs e (Piece.total p.lead + e.start.offset)
      (Piece.total (p.last [n]).lead + e.stop.offset)

namespace Tree

-- Texts and breaks have no children.
def LeavesEmpty (t : Tree) : Prop :=
  ∀ n ∈ Node.preorderAll t.roots, n.kind.isLeaf → n.children = []

instance (t : Tree) : Decidable t.LeavesEmpty :=
  inferInstanceAs (Decidable (∀ n ∈ Node.preorderAll t.roots, _))

variable {t : Tree} {block : NodeId} {span : Span}

theorem lies_of_spot (h : t.spot b p = .ok s) : s.Lies b := by
  unfold spot at h
  split at h
  case h_1 => contradiction
  case h_2 l hl =>
    split at h
    case isTrue => contradiction
    case isFalse =>
      split at h
      case isTrue => contradiction
      case isFalse => cases h; exact ⟨Node.top_of_locate? hl, Nat.min_le_right ..⟩

-- A position in a text of the block, at a seat.
structure Perch (b : Node) (p : Position) (s : Seat) (n : Node) : Prop where
  children : b.children = s.plug [n]
  isText : n.isText
  node : p.node = n.id
  le : p.offset ≤ n.charCount

theorem perch_of_endpoints (h : t.endpoints block span = .ok e) :
    ∃ b s n s' m, t.node? block = some b ∧ Perch b e.start s n ∧ Perch b e.stop s' m := by
  unfold endpoints at h
  split at h
  case h_1 => contradiction
  case h_2 b hb =>
    have ⟨s₁, hs₁, h⟩ := bind_eq_ok.mp h
    have ⟨s₂, hs₂, h⟩ := bind_eq_ok.mp h
    obtain ⟨s₁', s₂', rfl, ⟨hl₁, ht₁⟩, ⟨hl₂, ht₂⟩⟩ :=
      Endpoints.lies_of_ofSpots (mapError_eq_ok.mp h) (lies_of_spot hs₁) (lies_of_spot hs₂)
    have ⟨s, hc, hn, hle⟩ := hl₁.seat ht₁
    have ⟨s', hc', hm, hle'⟩ := hl₂.seat ht₂
    rw [← Node.charCount_of_isText hn] at hle
    rw [← Node.charCount_of_isText hm] at hle'
    exact ⟨b, s, s₁'.node, s', s₂'.node, hb, ⟨hc, hn, rfl, hle⟩, ⟨hc', hm, rfl, hle'⟩⟩

namespace Perch

variable {b n : Node} {p : Position} {s : Seat}

theorem mem_preorder (h : Perch b p s n) : n ∈ b.preorder := by
  rw [Node.preorder_eq, h.children]
  exact .tail _ (Seat.mem_preorderAll_plug (.head _))

theorem not_isLeaf (h : Perch b p s n) (he : t.LeavesEmpty) (hb : t.node? block = some b) :
    b.kind.isLeaf = false := by
  rw [Bool.eq_false_iff]
  intro hk
  have := h.children.symm.trans (he b (mem_of_node? hb) hk)
  cases s <;> simp at this

theorem offsetOf (h : Perch b p s n) (wf : t.WellFormed) (hb : t.node? block = some b)
    (hk : b.kind.isLeaf = false) : t.offsetOf block p = Piece.total s.lead + p.offset := by
  have hn : t.node? p.node = some n := h.node ▸ wf.node?_of_mem_preorder hb h.mem_preorder
  have hle := h.le
  rw [Node.charCount_of_isText h.isText] at hle
  simp only [Tree.offsetOf, hb, hn]
  rw [Node.offsetOf, if_pos h.isText,
    Node.countBefore_of_plug (wf.nodup_ids hb) hk h.children, Nat.min_eq_left hle]

section Two

variable {m : Node} {s' : Seat} {e : Endpoints} (hp : Perch b e.start s n) (hq : Perch b e.stop s' m)
  (hlt : Piece.total s.lead + e.start.offset < Piece.total s'.lead + e.stop.offset)

include hp hq hlt

theorem same_or_before : (s = s' ∧ n = m ∧ e.start.offset < e.stop.offset) ∨
    ∃ p : Stretch, s = p.first [m] ∧ s' = p.last [n] := by
  have hc := hp.children.symm.trans hq.children
  have single {n : Node} (h : n.isText) : ∀ m ∈ [n], m.isText := by simpa using h
  obtain ⟨rfl, rfl⟩ | h | ⟨p, rfl, rfl⟩ := Seat.same_or_stretch hc hp.isText hq.isText
  case inl => exact .inl ⟨rfl, rfl, by omega⟩
  case inr.inl => exact .inr h
  case inr.inr =>
    -- The stop comes before the start, so there is nothing between.
    rw [Stretch.lead_first, Stretch.lead_last (single hq.isText)] at hlt
    have hle := hq.le
    rw [← Node.total_items p.firstHost] at hle
    simp only [Piece.total_append, List.flatMap_singleton] at hlt
    omega

theorem cover : Cover b.children e (Piece.total s.lead + e.start.offset)
    (Piece.total s'.lead + e.stop.offset) := by
  obtain ⟨rfl, rfl, hlt⟩ | ⟨p, rfl, rfl⟩ := hp.same_or_before hq hlt
  case inl => exact .single hp.children hp.isText hp.node hq.node hlt hq.le
  case inr =>
    rw [Stretch.lead_first]
    exact .several (p.plug_first [n] [m] ▸ hp.children) hp.isText hq.isText hp.node hq.node
      hp.le hq.le

end Two

end Perch

theorem cover_of_node (wf : t.WellFormed) (hb : t.node? block = some b) (hk : b.kind.isLeaf = false)
    (h : t.nonemptyEndpoints block span = .ok (e, left, right)) :
    t.endpoints block span = .ok e ∧ e.offsets t block = (left, right) ∧ left < right ∧
      Cover b.children e left right := by
  have ⟨e', h', h⟩ := bind_eq_ok.mp h
  simp only at h
  split at h
  case isFalse => contradiction
  case isTrue hlt =>
    cases h
    refine ⟨h', rfl, hlt, ?_⟩
    have ⟨b', s, n, s', m, hb', hp, hq⟩ := perch_of_endpoints h'
    cases hb.symm.trans hb'
    simp only [Endpoints.offsets] at hlt ⊢
    rw [hp.offsetOf wf hb hk, hq.offsetOf wf hb hk] at hlt ⊢
    exact hp.cover hq hlt

theorem cover_of_nonemptyEndpoints (wf : t.WellFormed) (he : t.LeavesEmpty)
    (h : t.nonemptyEndpoints block span = .ok (e, left, right)) :
    t.endpoints block span = .ok e ∧ e.offsets t block = (left, right) ∧ left < right ∧
      ∃ b, t.node? block = some b ∧ Cover b.children e left right := by
  have ⟨_, h', _⟩ := bind_eq_ok.mp h
  have ⟨b, _, _, _, _, hb, hp, _⟩ := perch_of_endpoints h'
  have ⟨hep, ho, hlt, hc⟩ := cover_of_node wf hb (hp.not_isLeaf he hb) h
  exact ⟨hep, ho, hlt, b, hb, hc⟩

end Tree

end RichText
