import RichText.Proofs.FlatBlock
import RichText.Proofs.Normalize

namespace RichText

namespace Node

theorem charCount_of_isText_pos {n : Node} (h : n.isText) (hn : n.items ≠ []) : 0 < n.charCount := by
  rw [← length_items h]
  exact List.length_pos_iff.mpr hn

theorem not_isStyleable_of_isAtomic {n : Node} (h : n.kind.isAtomic) : n.isStyleable = false := by
  rw [isStyleable, isText, isWrapper]
  cases hk : n.kind <;>
    simp_all [Kind.isAtomic, Kind.isBreak, Kind.isEmbed, Kind.isText, Kind.isWrapper]

theorem not_isStyleable_of_mem_pieces {ns : List Node} (h : ∀ n ∈ ns, n.kind.isAtomic)
    (hp : p ∈ ns.flatMap pieces) : p.isStyleable = false := by
  have ⟨n, hn, hp⟩ := List.mem_flatMap.mp hp
  rw [isStyleable_of_mem_pieces hp]
  exact not_isStyleable_of_isAtomic (h n hn)

theorem charCount_of_break {n : Node} (h : n.kind = .lineBreak false) : n.charCount = 1 := by
  rw [charCount_of_isLeaf (by simp [h, Kind.isLeaf, Kind.isBreak]), h]
  rfl

end Node

namespace Tree

-- A start from which no text is reached: on a block that is in an embed itself, or on a wrapper
-- after its last child.
def isStartStuck (t : Tree) (block : NodeId) (p : Position) : Bool :=
  if p.node = block then (t.embedBelow? block block).isSome
  else (t.kind? p.node).any Kind.isWrapper && (t.children p.node).length ≤ p.offset

-- A stop from which no text is reached: on a block that is in an embed itself, on a block after a
-- wrapper that does not end in a text, maybe with breaks and embeds between, or on a wrapper.
def isStopStuck (t : Tree) (block : NodeId) (p : Position) : Bool :=
  if p.node = block then
    let last? := ((t.children block).take p.offset).reverse.find? (!·.kind.isAtomic)
    (t.embedBelow? block block).isSome ||
      last?.any fun n => n.isWrapper && !n.children.getLast?.any Node.isText
  else (t.kind? p.node).any Kind.isWrapper

end Tree

namespace FlatBlock

variable {t : Tree} {block : NodeId} {b n m : Node} {s : Seat} {o : Nat} {site : Site}

section Resolve

variable (h : FlatBlock t block b) (hc : b.children = s.plug [n])

include h hc

theorem resolve_eq_walk (hn : n.Solid) (ho : Piece.total s.lead < o) :
    t.resolve block o = Landmark.walk ⟨block, b.children.length⟩ (o - Piece.total s.lead)
      (⟨n, s.site b.id⟩ :: s.marksAfter b.id) := by
  have hr := (Tree.resolve_cases h.node h.not_isLeaf o).resolve_right (by omega)
  have hl : Node.landmarksAmong b.id 0 b.children =
      s.marksBefore b.id ++ ⟨n, s.site b.id⟩ :: s.marksAfter b.id := by
    rw [hc, Seat.landmarksAmong_plug hn]
  have hp : ∀ l ∈ s.marksBefore b.id, Landmark.Passable l.node := by
    intro l hm
    have ⟨xs, ys, e⟩ := List.append_of_mem hm
    rw [e, List.append_assoc, List.cons_append] at hl
    exact h.passable hl (by simp)
  rw [← Seat.sum_marksBefore b.id] at ho
  rw [hr, Tree.seek_block (h.wf.nodup_ids h.node) h.legible, hl, Landmark.walk_append hp ho,
    Seat.sum_marksBefore]

theorem resolve_text (ht : n.isText) (ho : Piece.total s.lead < o)
    (hle : o ≤ Piece.total s.lead + n.charCount) :
    t.resolve block o = ⟨n.id, o - Piece.total s.lead⟩ := by
  have ⟨text, hk⟩ := Node.isText_iff.mp ht
  have hlen : n.charCount = text.length := by
    rw [Node.charCount_of_isText ht, hk]
    rfl
  rw [h.resolve_eq_walk hc (Node.solid_iff.mpr (.inl ht)) ho]
  simp only [Landmark.walk, hk]
  exact if_pos (by omega)

theorem resolve_embed (hk : n.kind.isEmbed) (ho : Piece.total s.lead < o)
    (hle : o ≤ Piece.total s.lead + n.charCount) : t.resolve block o = (s.site b.id).after := by
  have hn : n.Solid := by simp [Node.Solid, hk]
  obtain ⟨hne, ht⟩ := h.embed hc hk
  have hany : (Node.preorderAll n.children).any Node.isText := by
    rw [h.preorderAll_children hc hn]
    cases hcs : n.children with
    | nil => contradiction
    | cons m ms => simp [(ht m (by simp [hcs])).left]
  obtain ⟨tag, hk⟩ : ∃ tag, n.kind = .embed tag := by cases hk' : n.kind <;> simp_all [Kind.isEmbed]
  rw [h.resolve_eq_walk hc hn ho]
  simp only [Landmark.walk, hk]
  rw [if_pos hany, if_neg (by omega), if_pos (by omega)]

theorem resolve_break (hk : n.kind = .lineBreak false) (hm : m.isText)
    (ha : s.marksAfter b.id = ⟨m, site⟩ :: ls) :
    t.resolve block (Piece.total s.lead + 1) = ⟨m.id, 0⟩ := by
  have hn : n.Solid := by simp [Node.Solid, hk, Kind.isLeaf, Kind.isBreak]
  obtain ⟨text, hm⟩ := Node.isText_iff.mp hm
  rw [h.resolve_eq_walk hc hn (Nat.lt_add_one _), ha, Nat.add_sub_cancel_left]
  simp [Landmark.walk, hk, hm]

end Resolve

section Next

variable (h : FlatBlock t block b)

include h

theorem landmarks_ne_nil (hc : b.children = as ++ c :: bs) (site : Site) : c.landmarks site ≠ [] := by
  have hm : c ∈ b.children := by simp [hc]
  cases h.flat.child c hm
  case inl hs => simp [Node.landmarks_of_solid hs]
  case inr hw =>
    have ⟨i, styles, cs, e, hl⟩ := Node.landmarks_of_isWrapper hw site
    have hne := h.canonical.canonical.nonempty c hm hw
    have ⟨x, xs, ex⟩ := List.exists_cons_of_ne_nil hne
    have hx : x.Solid := h.flat.inside c hm hw x (by simp [ex])
    rw [e, Node.children_mk] at ex
    simp [hl, ex, Node.landmarksAmong, Node.landmarks_of_solid hx]

theorem before_eq_nil (hc : b.children = before ++ after)
    (hb : Node.landmarksAmong b.id 0 before = []) : before = [] := by
  cases before with
  | nil => rfl
  | cons c cs =>
    have hc : b.children = [] ++ c :: (cs ++ after) := hc
    have hne := h.landmarks_ne_nil hc ⟨b.id, 0⟩
    rw [Node.landmarksAmong, List.append_eq_nil_iff] at hb
    exact absurd hb.left hne

theorem left_eq_nil (hc : b.children = (Seat.held before i styles left right after).plug [n])
    (hb : Node.landmarksAmong i 0 left = []) : left = [] := by
  cases left with
  | nil => rfl
  | cons x xs =>
    have hw : Node.mk i (.wrapper styles) (x :: xs ++ n :: right) ∈ b.children := by simp [hc]
    have hx : x.Solid := h.flat.inside _ hw rfl x (by simp)
    simp [Node.landmarksAmong, Node.landmarks_of_solid hx] at hb

theorem lead_eq_nil (hc : b.children = s.plug [n]) (hb : s.marksBefore b.id = []) :
    s.lead = [] := by
  cases s with
  | bare before after =>
    simp [h.before_eq_nil (hc.trans (List.append_assoc ..)) hb]
  | held before i styles left right after =>
    have hb := List.append_eq_nil_iff.mp hb
    simp [h.before_eq_nil hc hb.left, h.left_eq_nil hc hb.right]

theorem next_bare (hc : b.children = before ++ n :: after)
    (ha : Node.landmarksAmong b.id (before.length + 1) after = ⟨m, site⟩ :: ls) :
    (∃ rest, after = m :: rest) ∨
      ∃ i styles right rest, after = .mk i (.wrapper styles) (m :: right) :: rest := by
  cases after with
  | nil => contradiction
  | cons c rest =>
    have hm : c ∈ b.children := by simp [hc]
    rw [Node.landmarksAmong] at ha
    cases h.flat.child c hm
    case inl hs =>
      rw [Node.landmarks_of_solid hs] at ha
      injection ha with e
      injection e with e
      exact .inl ⟨rest, by rw [e]⟩
    case inr hw =>
      have ⟨i, styles, cs, e, hl⟩ := Node.landmarks_of_isWrapper hw ⟨b.id, before.length + 1⟩
      have hne := h.canonical.canonical.nonempty c hm hw
      have ⟨x, xs, ex⟩ := List.exists_cons_of_ne_nil hne
      have hx : x.Solid := h.flat.inside c hm hw x (by simp [ex])
      rw [e, Node.children_mk] at ex
      rw [hl, ex, Node.landmarksAmong, Node.landmarks_of_solid hx] at ha
      injection ha with e'
      injection e' with e'
      exact .inr ⟨i, styles, xs, rest, by rw [e, ex, e']⟩

theorem next_held (hc : b.children = (Seat.held before i styles left right after).plug [n])
    (ha : (Seat.held before i styles left right after).marksAfter b.id = ⟨m, site⟩ :: ls) :
    right = [] ∨ ∃ rest, right = m :: rest := by
  cases right with
  | nil => exact .inl rfl
  | cons x rest =>
    have hw : Node.mk i (.wrapper styles) (left ++ n :: x :: rest) ∈ b.children := by simp [hc]
    have hx : x.Solid := h.flat.inside _ hw rfl x (by simp)
    rw [Seat.marksAfter, Node.landmarksAmong, Node.landmarks_of_solid hx] at ha
    injection ha with e
    injection e with e
    exact .inr ⟨rest, by rw [e]⟩

end Next

section Wrapper

variable (h : FlatBlock t block b)
  (hc : b.children = (Seat.held before i styles left right after).plug [n])

include h hc

theorem wrapper : t.node? i = some (.mk i (.wrapper styles) (left ++ n :: right)) := by
  have hw : Node.mk i (.wrapper styles) (left ++ n :: right) ∈ b.preorder :=
    Node.mem_preorder_of_child (by simp [hc]) (Node.mem_preorder_self _)
  exact h.wf.node?_of_mem_preorder h.node hw

theorem id_ne_of_held : i ≠ block := by
  intro e
  have hd := h.wf.nodup_ids h.node
  rw [Node.ids_eq, hc, List.nodup_cons, Tree.id_of_node? h.node] at hd
  exact hd.left (by simp [e])

end Wrapper

section Start

variable (h : FlatBlock t block b) (ht : m.isText)

include h ht

theorem enters_block (hc : b.children = before ++ m :: after)
    (he : t.embedBelow? block block = none) :
    t.Enters b ⟨block, before.length⟩ ⟨m.id, 0⟩ (.bare before after) m := by
  simpa using Tree.enters_block h.node h.not_isText he (List.forall_mem_nil _) ht (by simpa using hc)

theorem enters_block_held (hc : b.children = before ++ .mk i (.wrapper styles) (m :: right) :: after)
    (he : t.embedBelow? block block = none) :
    t.Enters b ⟨block, before.length⟩ ⟨m.id, 0⟩ (.held before i styles [] right after) m := by
  simpa using Tree.enters_block_held h.node h.not_isText he (List.forall_mem_nil _) ht
    (by simpa using hc)

theorem enters_held (hc : b.children = (Seat.held before i styles left right after).plug [m]) :
    t.Enters b ⟨i, left.length⟩ ⟨m.id, 0⟩ (.held before i styles left right after) m where
  perch := ⟨hc, ht, rfl, Nat.zero_le _⟩
  leads := by
    have hw : b.children = (Seat.bare before after).plug
        [.mk i (.wrapper styles) (left ++ m :: right)] := by simpa using hc
    have hk : left.length ≤ (Node.mk i (.wrapper styles) (left ++ m :: right)).extent := by
      simp [Node.extent, Node.isText, Kind.isText]
    exact ⟨_, h.wf.spot_seat h.node hw hk, Seat.toStart_held⟩

theorem enters_after_bare (hc : b.children = before ++ n :: after)
    (ha : Node.landmarksAmong b.id (before.length + 1) after = ⟨m, site⟩ :: ls)
    (he : t.embedBelow? block block = none) :
    ∃ s, t.Enters b ⟨block, before.length + 1⟩ ⟨m.id, 0⟩ s m ∧
      s.lead = (before ++ [n]).flatMap Node.pieces := by
  have hl : (before ++ [n]).length = before.length + 1 := by simp
  obtain ⟨rest, e⟩ | ⟨i, styles, right, rest, e⟩ := h.next_bare hc ha
  case inl =>
    have hc : b.children = before ++ [n] ++ m :: rest := by simp [hc, e]
    exact ⟨_, hl ▸ h.enters_block ht hc he, by simp⟩
  case inr =>
    have hc : b.children = before ++ [n] ++ .mk i (.wrapper styles) (m :: right) :: rest := by
      simp [hc, e]
    exact ⟨_, hl ▸ h.enters_block_held ht hc he, by simp⟩

theorem enters_after_held (hc : b.children = (Seat.held before i styles left right after).plug [n])
    (ha : (Seat.held before i styles left right after).marksAfter b.id = ⟨m, site⟩ :: ls)
    (hr : right ≠ []) :
    ∃ s, t.Enters b ⟨i, left.length + 1⟩ ⟨m.id, 0⟩ s m ∧
      s.lead = (Seat.held before i styles (left ++ [n]) [] []).lead := by
  have hl : (left ++ [n]).length = left.length + 1 := by simp
  have ⟨rest, e⟩ := (h.next_held hc ha).resolve_left hr
  have hc : b.children = (Seat.held before i styles (left ++ [n]) rest after).plug [m] := by
    simp [hc, e]
  exact ⟨_, hl ▸ h.enters_held ht hc, by simp⟩

theorem enters_after_embed (hc : b.children = s.plug [n]) (hn : n.Solid)
    (ha : s.marksAfter b.id = ⟨m, site⟩ :: ls)
    (hs : t.isStartStuck block (s.site b.id).after = false) :
    ∃ s', t.Enters b (s.site b.id).after ⟨m.id, 0⟩ s' m ∧
      Piece.total s'.lead = Piece.total s.lead + n.charCount := by
  have hi := Tree.id_of_node? h.node
  cases s with
  | bare before after =>
    have he : t.embedBelow? block block = none := by
      simpa [Tree.isStartStuck, Seat.site, Site.after, hi] using hs
    have hc : b.children = before ++ n :: after := by simpa using hc
    obtain ⟨s, hs, hl⟩ := h.enters_after_bare ht hc ha he
    refine ⟨s, hi ▸ hs, ?_⟩
    rw [hl, List.flatMap_append, Piece.total_append, Seat.lead_bare, List.flatMap_singleton,
      Node.pieces_of_not_isWrapper (Node.not_isWrapper_of_solid hn), Node.total_items]
  | held before i styles left right after =>
    have hr : right ≠ [] := by
      intro e
      have hw := h.wrapper hc
      simp [Tree.isStartStuck, Seat.site, Site.after, h.id_ne_of_held hc, Tree.kind?,
        Tree.children_of_node? hw, hw, e, Kind.isWrapper] at hs
    obtain ⟨s, hs, hl⟩ := h.enters_after_held ht hc ha hr
    refine ⟨s, hs, ?_⟩
    simp only [hl, Seat.lead_held, List.flatMap_append, List.map_append, Piece.total_append,
      List.flatMap_singleton, Node.total_items, Nat.add_assoc]

theorem enters_start (hc : b.children = s.plug [m]) (hb : s.marksBefore b.id = [])
    (hs : t.isStartStuck block (t.resolve block 0) = false) :
    ∃ s, t.Enters b (t.resolve block 0) ⟨m.id, 0⟩ s m ∧ s.lead = [] := by
  have ⟨text, hk⟩ := Node.isText_iff.mp ht
  cases Tree.resolve_cases h.node h.not_isLeaf 0
  case inl hr =>
    have hl : Node.landmarksAmong b.id 0 b.children = ⟨m, s.site b.id⟩ :: s.marksAfter b.id := by
      rw [hc, Seat.landmarksAmong_plug (Node.solid_iff.mpr (.inl ht)), hb, List.nil_append]
    rw [hr, Tree.seek_block (h.wf.nodup_ids h.node) h.legible, hl]
    simp only [Landmark.walk, hk, Nat.zero_le, if_true]
    exact ⟨s, Tree.enters_here h.node h.wf hc ht (Nat.zero_le _), h.lead_eq_nil hc hb⟩
  case inr hr =>
    rw [hr.right] at hs ⊢
    have he : t.embedBelow? block block = none := by simpa [Tree.isStartStuck] using hs
    cases s with
    | bare before after =>
      have hbefore : before = [] := h.before_eq_nil (hc.trans (List.append_assoc ..)) hb
      subst hbefore
      have hc : b.children = [] ++ m :: after := hc
      exact ⟨_, h.enters_block ht hc he, rfl⟩
    | held before i styles left right after =>
      have hb := List.append_eq_nil_iff.mp hb
      have hbefore : before = [] := h.before_eq_nil hc hb.left
      have hleft : left = [] := h.left_eq_nil hc hb.right
      subst hbefore hleft
      have hc : b.children = [] ++ .mk i (.wrapper styles) (m :: right) :: after := hc
      exact ⟨_, h.enters_block_held ht hc he, rfl⟩

end Start

theorem exists_seat_before (h : FlatBlock t block b) (hc : b.children = s.plug [n]) (hn : n.Solid)
    (hb : s.marksBefore b.id = ls ++ [l]) :
    ∃ s' : Seat, b.children = s'.plug [l.node] ∧
      s'.marksAfter b.id = ⟨n, s.site b.id⟩ :: s.marksAfter b.id ∧
      Piece.total s.lead = Piece.total s'.lead + l.node.charCount ∧ 0 < l.node.charCount ∧
      Landmark.Passable l.node := by
  have hl : Node.landmarksAmong b.id 0 b.children =
      ls ++ l :: ⟨n, s.site b.id⟩ :: s.marksAfter b.id := by
    rw [hc, Seat.landmarksAmong_plug hn, hb]
    simp
  have hp := h.passable hl (by simp)
  have ⟨s', hc', _, hls, ha⟩ := Node.exists_seat_of_landmark h.flat [] hl
  rw [List.nil_append] at hc'
  refine ⟨s', hc', ha.symm, ?_, h.charCount_pos (i := b.id) hc' hp.solid (by simp [← ha]), hp⟩
  rw [← Seat.sum_marksBefore b.id, ← Seat.sum_marksBefore b.id, hb, ← hls]
  simp [Node.landmarksAmong]

theorem enters_resolve (h : FlatBlock t block b) (hc : b.children = s.plug [n]) (ht : n.isText)
    (hk : k ≤ n.charCount)
    (hs : t.isStartStuck block (t.resolve block (Piece.total s.lead + k)) = false) :
    ∃ s' m q, t.Enters b (t.resolve block (Piece.total s.lead + k)) q s' m ∧
      Piece.total s'.lead + q.offset = Piece.total s.lead + k := by
  have hi := Tree.id_of_node? h.node
  have hn : n.Solid := Node.solid_iff.mpr (.inl ht)
  cases Nat.eq_zero_or_pos k
  case inr hpos =>
    rw [h.resolve_text hc ht (by omega) (by omega), Nat.add_sub_cancel_left]
    exact ⟨s, n, _, Tree.enters_here h.node h.wf hc ht hk, rfl⟩
  case inl e =>
    subst e
    rw [Nat.add_zero] at hs ⊢
    obtain hb | ⟨ls, l, hb⟩ := (s.marksBefore b.id).eq_nil_or_concat'
    case inl =>
      have hz : Piece.total s.lead = 0 := by rw [h.lead_eq_nil hc hb, Piece.total_nil]
      rw [hz] at hs ⊢
      have ⟨s', he, hl⟩ := h.enters_start ht hc hb hs
      exact ⟨s', n, _, he, by simp [hl]⟩
    case inr =>
      have ⟨s', hc', ha, hl, hpos, hp⟩ := h.exists_seat_before hc hn hb
      obtain ht' | hbr | he := hp.cases
      case inl =>
        rw [hl, h.resolve_text hc' ht' (by omega) (by omega), Nat.add_sub_cancel_left]
        exact ⟨s', l.node, _, Tree.enters_here h.node h.wf hc' ht' (Nat.le_refl _), rfl⟩
      case inr.inl =>
        have hw : l.node.charCount = 1 := Node.charCount_of_break hbr
        rw [hl, hw, h.resolve_break hc' hbr ht ha]
        exact ⟨s, n, _, Tree.enters_here h.node h.wf hc ht (Nat.zero_le _), by rw [hl, hw]; rfl⟩
      case inr.inr =>
        rw [hl, h.resolve_embed hc' he (by omega) (by omega)] at hs ⊢
        have ⟨s'', he, hl'⟩ := h.enters_after_embed ht hc' hp.solid ha hs
        exact ⟨s'', n, _, he, hl'⟩

section Stop

variable (h : FlatBlock t block b)

include h

-- Right after an embed of the block, a stop moves back to a text, past pieces that have no style.
theorem leaves_after_bare (hn : n.kind.isEmbed) (hc : b.children = before ++ n :: after)
    (hs : t.isStopStuck block ⟨block, before.length + 1⟩ = false)
    (hp : ∃ p ∈ before.flatMap Node.pieces, p.isStyleable) :
    ∃ s m ps, t.Leaves b ⟨block, before.length + 1⟩ ⟨m.id, m.charCount⟩ s m ∧
      (before ++ [n]).flatMap Node.pieces = s.lead ++ s.seated [m] ++ ps ∧
      ∀ p ∈ ps, p.isStyleable = false := by
  have hn : n.kind.isAtomic := by simp [Kind.isAtomic, hn]
  have htake : b.children.take (before.length + 1) = before ++ [n] := by
    rw [hc, List.append_cons, List.take_left' (by simp)]
  simp only [Tree.isStopStuck, if_true, Tree.children_of_node? h.node, htake, Bool.or_eq_false_iff,
    List.reverse_append, List.reverse_singleton, List.singleton_append] at hs
  rw [List.find?_cons_of_neg (by simp [hn])] at hs
  have he : t.embedBelow? block block = none := by simpa using hs.left
  cases hf : before.reverse.find? (!·.kind.isAtomic) with
  | none =>
    have ha : ∀ a ∈ before, a.kind.isAtomic := by simpa using hf
    obtain ⟨p, hp, hps⟩ := hp
    simp [Node.not_isStyleable_of_mem_pieces ha hp] at hps
  | some c =>
    rw [hf] at hs
    obtain ⟨hk, as, bs, hbs, ha⟩ := List.find?_eq_some_iff_append.mp hf
    have ha : ∀ a ∈ as.reverse ++ [n], a.kind.isAtomic := by
      simpa [or_imp, forall_and, hn] using ha
    have hb : before = bs.reverse ++ c :: as.reverse := by
      rw [← before.reverse_reverse, hbs]
      simp
    subst hb
    have hlen : (bs.reverse ++ c :: as.reverse).length + 1 =
        (bs.reverse ++ c :: (as.reverse ++ [n])).length := by
      simp
      omega
    have hc : b.children = bs.reverse ++ c :: (as.reverse ++ [n]) ++ after := by simp [hc]
    have hm : c ∈ b.children := by simp [hc]
    have hcw := (h.canonical.child c hm).imp_right (·.resolve_left (by simpa using hk))
    rw [hlen]
    cases hcw
    case inl ht =>
      refine ⟨_, c, (as.reverse ++ [n]).flatMap Node.pieces,
        Tree.leaves_block h.node h.not_isText he ha ht hc, ?_, ?_⟩
      · simp [Seat.seated, Seat.pieces_of_isText ht]
      · exact fun p hp => Node.not_isStyleable_of_mem_pieces ha hp
    case inr hw =>
      have hl : c.children.getLast?.any Node.isText := by simpa [hw] using hs.right
      obtain ⟨m, hm', ht⟩ := (Option.any_eq_true ..).mp hl
      obtain ⟨left, hcs⟩ := List.getLast?_eq_some_iff.mp hm'
      obtain ⟨i, k, cs⟩ := c
      cases k <;> try contradiction
      case wrapper styles =>
        rw [Node.children_mk] at hcs
        subst hcs
        refine ⟨_, m, (as.reverse ++ [n]).flatMap Node.pieces,
          Tree.leaves_block_held h.node h.not_isText he ha ht hc, ?_, ?_⟩
        · simp [Seat.seated, Node.pieces]
        · exact fun p hp => Node.not_isStyleable_of_mem_pieces ha hp

end Stop

theorem leaves_after_embed (h : FlatBlock t block b) (hn : n.kind.isEmbed)
    (hc : b.children = before ++ n :: after)
    (hs : t.isStopStuck block ⟨block, before.length + 1⟩ = false)
    (ho : o < Piece.total (before.flatMap Node.pieces) + n.charCount)
    (hp : (itemAt? Piece.width (b.children.flatMap Node.pieces) o).any Piece.isStyleable) :
    ∃ s m q, t.Leaves b ⟨block, before.length + 1⟩ q s m ∧
      Piece.total s.lead + q.offset ≤ Piece.total (before.flatMap Node.pieces) + n.charCount ∧
      ∀ o, Piece.total s.lead + q.offset ≤ o →
        o < Piece.total (before.flatMap Node.pieces) + n.charCount →
          (itemAt? Piece.width (b.children.flatMap Node.pieces) o).any Piece.isStyleable = false := by
  have hb : b.children.flatMap Node.pieces =
      (before ++ [n]).flatMap Node.pieces ++ after.flatMap Node.pieces := by simp [hc]
  have hl : Piece.total ((before ++ [n]).flatMap Node.pieces) =
      Piece.total (before.flatMap Node.pieces) + n.charCount := by
    rw [Node.total_pieces, Node.total_pieces]
    simp
  rw [← hl] at ho ⊢
  obtain ⟨p, hp, hps⟩ := (Option.any_eq_true ..).mp hp
  have hp : p ∈ before.flatMap Node.pieces := by
    rw [hb] at hp
    have hp := Piece.mem_of_itemAt?_left hp ho
    rw [List.flatMap_append] at hp
    refine (List.mem_append.mp hp).resolve_right fun hp => ?_
    have ha : ∀ a ∈ [n], a.kind.isAtomic := by simp [Kind.isAtomic, hn]
    simp [Node.not_isStyleable_of_mem_pieces ha hp] at hps
  obtain ⟨s, m, ps, hs, he, hns⟩ := h.leaves_after_bare hn hc hs ⟨p, hp, hps⟩
  have ht : Piece.total (s.lead ++ s.seated [m]) = Piece.total s.lead + m.charCount := by
    simp [Seat.seated, Node.total_items]
  refine ⟨s, m, _, hs, ?_, fun o hle hlt => ?_⟩
  · rw [he, Piece.total_append, ht]
    exact Nat.le_add_right ..
  rw [Option.any_eq_false]
  intro p hp
  rw [hb, he] at hp
  have hm : Piece.total (s.lead ++ s.seated [m]) ≤ o := ht ▸ hle
  exact hns p (Piece.mem_of_itemAt?_mid hp hm (he ▸ hlt))

-- Where a text starts or goes on, a stop leads to that offset, or past embeds to an offset before
-- it.
theorem leaves_resolve (h : FlatBlock t block b) (hc : b.children = s.plug [n]) (ht : n.isText)
    (hk : k ≤ n.charCount) (ho : o < Piece.total s.lead + k)
    (hp : (itemAt? Piece.width (b.children.flatMap Node.pieces) o).any Piece.isStyleable)
    (hs : t.isStopStuck block (t.resolve block (Piece.total s.lead + k)) = false) :
    ∃ s' m q, t.Leaves b (t.resolve block (Piece.total s.lead + k)) q s' m ∧
      Piece.total s'.lead + q.offset ≤ Piece.total s.lead + k ∧
      ∀ o, Piece.total s'.lead + q.offset ≤ o → o < Piece.total s.lead + k →
        (itemAt? Piece.width (b.children.flatMap Node.pieces) o).any Piece.isStyleable = false := by
  have hi := Tree.id_of_node? h.node
  have hn : n.Solid := Node.solid_iff.mpr (.inl ht)
  cases Nat.eq_zero_or_pos k
  case inr hpos =>
    rw [h.resolve_text hc ht (by omega) (by omega), Nat.add_sub_cancel_left]
    exact ⟨s, n, _, Tree.leaves_here h.node h.wf hc ht hk, Nat.le_refl _,
      fun o hle hlt => absurd hlt (Nat.not_lt.mpr hle)⟩
  case inl e =>
    subst e
    rw [Nat.add_zero] at hs ho ⊢
    obtain hb | ⟨ls, l, hb⟩ := (s.marksBefore b.id).eq_nil_or_concat'
    case inl => simp [h.lead_eq_nil hc hb] at ho
    case inr =>
      have ⟨s', hc', ha, hl, hpos, hp'⟩ := h.exists_seat_before hc hn hb
      obtain ht' | hbr | he := hp'.cases
      case inl =>
        rw [hl, h.resolve_text hc' ht' (by omega) (by omega), Nat.add_sub_cancel_left]
        exact ⟨s', l.node, _, Tree.leaves_here h.node h.wf hc' ht' (Nat.le_refl _), Nat.le_refl _,
          fun o hle hlt => absurd hlt (Nat.not_lt.mpr hle)⟩
      case inr.inl =>
        have hw : l.node.charCount = 1 := Node.charCount_of_break hbr
        rw [hl, hw, h.resolve_break hc' hbr ht ha]
        rw [← hw, ← hl]
        exact ⟨s, n, _, Tree.leaves_here h.node h.wf hc ht (Nat.zero_le _), Nat.le_refl _,
          fun o hle hlt => absurd hlt (Nat.not_lt.mpr hle)⟩
      case inr.inr =>
        rw [hl, h.resolve_embed hc' he (by omega) (by omega)] at hs ⊢
        cases s' with
        | bare before after =>
          have hc' : b.children = before ++ l.node :: after := by simpa using hc'
          simp only [Seat.site, Site.after, hi] at hs ⊢
          exact h.leaves_after_embed he hc' hs (hl ▸ ho) hp
        | held before i styles left right after =>
          have hw := h.wrapper hc'
          simp [Tree.isStopStuck, Seat.site, Site.after, h.id_ne_of_held hc', Tree.kind?, hw,
            Kind.isWrapper] at hs

end FlatBlock

end RichText
