import RichText.Arena.Restyle
import RichText.Proofs.Arena.Climb
import RichText.Proofs.Endpoints

namespace RichText

namespace Spot

variable {s s' : Spot}

theorem isBlock_startInBlock (h : s.startInBlock = .ok s') : s'.isBlock = false := by
  unfold startInBlock at h
  split at h
  case isFalse hb => cases h; simpa using hb
  case isTrue =>
    split at h <;> cases h
    case h_1 hc =>
      obtain ⟨n, -, rfl⟩ := Option.map_eq_some_iff.mp hc
      rfl

theorem isBlock_stopInBlock (h : s.stopInBlock = .ok s') : s'.isBlock = false := by
  unfold stopInBlock at h
  split at h
  case isFalse hb => cases h; simpa using hb
  case isTrue =>
    split at h
    case h_1 => contradiction
    case h_2 =>
      split at h <;> cases h
      case h_1 hc =>
        obtain ⟨n, -, rfl⟩ := Option.map_eq_some_iff.mp hc
        rfl

end Spot

namespace Arena

variable {a : Arena} {t : Tree} {i block : NodeId} {b n : Node}

section Node

variable (h : a.Holds t) (hn : t.node? i = some n)

include h hn

theorem Holds.kind?_of_node? : a.kind? i = some n.kind := by
  rw [h.kind?_eq, Tree.kind?, hn, Option.map_some]

theorem Holds.children_of_node? : a.children i = n.children.map Node.id := by
  rw [h.children_eq, Tree.childIds_of_node? hn]

theorem Holds.child?_of_node? (index : Nat) : a.child? i index = n.children[index]?.map Node.id := by
  rw [child?, h.children_of_node? hn, List.getElem?_map]

theorem Holds.extent_eq : a.extent i = n.extent := by
  have hk := h.kind?_of_node? hn
  rw [extent, isText_eq hk, textLength_eq hk, h.children_of_node? hn, List.length_map]
  rfl

theorem Holds.isAtomic_eq : a.isAtomic i = n.kind.isAtomic := by
  have hk := h.kind?_of_node? hn
  rw [isAtomic, isBreak_eq hk, isEmbed_eq hk, Kind.isAtomic]

theorem Holds.charCount_eq : a.charCount i = some (t.charCount i) := by
  rw [charCount, h.lines_eq hn, Option.map_some, Tree.charCount]

theorem Holds.countBefore_eq (stop : NodeId) : a.countBefore i stop = some (t.countBefore i stop) := by
  rw [countBefore, h.linesBefore_eq hn, Option.map_some, Tree.countBefore]

end Node

theorem Holds.offsetOf_eq {p : Position} (h : a.Holds t) (hb : t.node? block = some b)
    (hn : t.node? p.node = some n) : a.offsetOf block p = some (t.offsetOf block p) := by
  have hk := h.kind?_of_node? hn
  have hc (i : NodeId) : a.countBefore block i = some (b.countBefore i) := by
    rw [h.countBefore_eq hb, Tree.countBefore_of_node? hb]
  have hs : a.charCount block = some b.charCount := by rw [h.charCount_eq hb, Tree.charCount_of_node? hb]
  have hs' : a.charCount p.node = some n.charCount := by rw [h.charCount_eq hn, Tree.charCount_of_node? hn]
  simp only [offsetOf, Tree.offsetOf, hb, hn, Node.offsetOf, isText_eq hk, textLength_eq hk, hc, hs,
    hs', h.child?_of_node? hn, Tree.id_of_node? hn, Tree.id_of_node? hb, Node.isText]
  split
  case isTrue => rfl
  case isFalse =>
    cases n.children[p.offset]? with
    | some c => rfl
    | none =>
      simp only [Option.map_none]
      split
      case isTrue => rfl
      case isFalse => split <;> rfl

section Inside

variable (h : a.Holds t) (hb : t.node? block = some b)

include h hb

section

variable {l l' : Location} (hl : l.top = b)

include hl

theorem Holds.node?_inside : t.node? l.node.id = some l.node :=
  h.wf.node?_of_mem_preorder hb (hl ▸ l.node_mem_top)

theorem Holds.child?_inside (index : Nat) :
    a.child? l.node.id index = (l.child? index).map (·.node.id) := by
  rw [h.child?_of_node? (h.node?_inside hb hl), Location.child?, Option.map_map]
  rfl

theorem Holds.lastChild?_inside : a.lastChild? l.node.id =
    (l.child? (l.node.children.length - 1)).map (·.node.id) := by
  rw [lastChild?, h.children_of_node? (h.node?_inside hb hl), List.getLast?_map,
    List.getLast?_eq_getElem?, Location.child?, Option.map_map]
  rfl

theorem Holds.firstChild?_inside : a.firstChild? l.node.id = (l.child? 0).map (·.node.id) := by
  rw [← h.child?_inside hb hl, firstChild?, child?, List.head?_eq_getElem?]

theorem Holds.extent_inside (hc : l.child? index = some l') :
    a.extent l'.node.id = l'.node.extent :=
  h.extent_eq (h.node?_inside hb ((Location.top_child? hc).trans hl))

end

section

variable {f : Frame} {path : List Frame} (hl : (Location.mk n (f :: path)).top = b)

include hl

theorem Holds.exists_above : ∃ above, (Location.mk n (f :: (path ++ above))).top ∈ t.roots := by
  obtain ⟨lb, hlb, e⟩ := Tree.exists_locate? hb
  exact ⟨lb.path, Tree.top_of_locate? (h.wf.locate?_beneath hlb (hl.trans e.symm))⟩

theorem Holds.id_ne_block : n.id ≠ block :=
  Tree.id_of_node? hb ▸ hl ▸ Location.id_ne_top (hl ▸ h.wf.nodup_ids hb)

theorem Holds.next?_inside : a.next? n.id = f.after.head?.map Node.id := by
  obtain ⟨above, ht⟩ := h.exists_above hb hl
  exact h.next?_at ht

theorem Holds.prev?_inside : a.prev? n.id = f.before.head?.map Node.id := by
  obtain ⟨above, ht⟩ := h.exists_above hb hl
  exact h.prev?_at ht

theorem Holds.parent?_inside : a.parent? n.id = some f.id := by
  obtain ⟨above, ht⟩ := h.exists_above hb hl
  exact h.parent?_at ht

end

variable {s : Spot}

theorem Holds.isBlock_iff (hs : s.Lies b) : s.isBlock ↔ s.position.node = block := by
  obtain ⟨⟨n, path⟩, k⟩ := s
  have ht := hs.top
  cases path with
  | nil =>
    obtain rfl : n = b := ht
    simp [Spot.isBlock, Spot.position, Spot.node, Tree.id_of_node? hb]
  | cons f path =>
    have hne : n.id ≠ block := h.id_ne_block hb ht
    simp [Spot.isBlock, Spot.position, Spot.node, hne]

theorem Holds.startInBlock_eq (hs : s.Lies b) :
    a.startInBlock block s.position = s.startInBlock.map Spot.position := by
  have hi := h.isBlock_iff hb hs
  rw [startInBlock, Spot.startInBlock]
  split
  case isFalse hne => rw [if_neg (mt hi.mp hne)]; rfl
  case isTrue e =>
    have hc := h.child?_inside hb hs.top s.offset
    rw [show s.location.node.id = block from e] at hc
    rw [if_pos (hi.mpr e), show s.position.offset = s.offset from rfl, hc]
    cases s.location.child? s.offset <;> rfl

theorem Holds.stopInBlock_eq (hs : s.Lies b) :
    a.stopInBlock block s.position = s.stopInBlock.map Spot.position := by
  have hi := h.isBlock_iff hb hs
  rw [stopInBlock, Spot.stopInBlock]
  split
  case isFalse hne => rw [if_neg (mt hi.mp hne)]; rfl
  case isTrue e =>
    rw [if_pos (hi.mpr e), show s.position.offset = s.offset from rfl]
    cases s.offset with
    | zero => rfl
    | succ index =>
      have hc := h.child?_inside hb hs.top index
      rw [show s.location.node.id = block from e] at hc
      simp only [hc]
      cases hl : s.location.child? index with
      | none => rfl
      | some l =>
        simp only [Option.map_some, h.extent_inside hb hs.top hl]
        rfl

theorem Holds.startPastAtoms_go {f : Frame} {path : List Frame} {before after : List Node}
    (hl : (Location.mk n ({ f with before, after } :: path)).top = b) (k : Nat) :
    a.startPastAtoms ⟨n.id, k⟩ = some (if n.kind.isAtomic then
      match Location.seekRight.go (!·.kind.isAtomic) f path before n after with
      | some l => .ok ⟨l.node.id, 0⟩
      | none => .error .nothingAfterStart
    else .ok ⟨n.id, k⟩) := by
  induction after generalizing before n k with
  | nil =>
    have hn := h.node?_inside hb hl
    rw [startPastAtoms, h.isAtomic_eq hn, h.next?_inside hb hl, Location.seekRight.go]
    cases n.kind.isAtomic <;> rfl
  | cons m ms ih =>
    have hn := h.node?_inside hb hl
    rw [startPastAtoms, h.isAtomic_eq hn, h.next?_inside hb hl, Location.seekRight.go]
    have ih := @ih m (n :: before) (by simpa [Location.top, Frame.plug] using hl) 0
    simp only [List.head?_cons, Option.map_some, ih]
    cases n.kind.isAtomic
    case false => rfl
    case true =>
      cases hk : m.kind.isAtomic
      case true => rfl
      case false => cases ms <;> simp [Location.seekRight.go, hk]

theorem Holds.stopPastAtoms_go {f : Frame} {path : List Frame} {before after : List Node}
    (hl : (Location.mk n ({ f with before, after } :: path)).top = b) (k : Nat) :
    a.stopPastAtoms ⟨n.id, k⟩ = some (if n.kind.isAtomic then
      match Location.seekLeft.go (!·.kind.isAtomic) f path after n before with
      | some l => .ok ⟨l.node.id, l.node.extent⟩
      | none => .error .nothingBeforeStop
    else .ok ⟨n.id, k⟩) := by
  induction before generalizing after n k with
  | nil =>
    have hn := h.node?_inside hb hl
    rw [stopPastAtoms, h.isAtomic_eq hn, h.prev?_inside hb hl, Location.seekLeft.go]
    cases n.kind.isAtomic <;> rfl
  | cons m ms ih =>
    have hn := h.node?_inside hb hl
    have hl' : (Location.mk m ({ f with before := ms, after := n :: after } :: path)).top = b := by
      simpa [Location.top, Frame.plug] using hl
    have hm := h.extent_eq (h.node?_inside hb hl')
    rw [stopPastAtoms, h.isAtomic_eq hn, h.prev?_inside hb hl, Location.seekLeft.go]
    simp only [List.head?_cons, Option.map_some, hm, ih hl']
    cases n.kind.isAtomic
    case false => rfl
    case true =>
      cases hk : m.kind.isAtomic
      case true => rfl
      case false => cases ms <;> simp [Location.seekLeft.go, hk]

theorem Holds.startPastAtoms_eq (hs : s.Lies b) (hi : s.isBlock = false) :
    a.startPastAtoms s.position = some (s.startPastAtoms.map Spot.position) := by
  obtain ⟨⟨n, path⟩, k⟩ := s
  cases path with
  | nil => simp [Spot.isBlock] at hi
  | cons f path =>
    refine (h.startPastAtoms_go hb (show (Location.mk n ({ f with } :: path)).top = b from hs.top) k).trans ?_
    simp only [Spot.startPastAtoms, Spot.node, Location.seekRight]
    by_cases hk : n.kind.isAtomic
    case pos =>
      simp only [hk, ↓reduceIte]
      cases Location.seekRight.go _ f path f.before n f.after <;> rfl
    case neg =>
      simp only [hk]
      rfl

theorem Holds.stopPastAtoms_eq (hs : s.Lies b) (hi : s.isBlock = false) :
    a.stopPastAtoms s.position = some (s.stopPastAtoms.map Spot.position) := by
  obtain ⟨⟨n, path⟩, k⟩ := s
  cases path with
  | nil => simp [Spot.isBlock] at hi
  | cons f path =>
    refine (h.stopPastAtoms_go hb (show (Location.mk n ({ f with } :: path)).top = b from hs.top) k).trans ?_
    simp only [Spot.stopPastAtoms, Spot.node, Location.seekLeft]
    by_cases hk : n.kind.isAtomic
    case pos =>
      simp only [hk, ↓reduceIte]
      cases Location.seekLeft.go _ f path f.after n f.before <;> rfl
    case neg =>
      simp only [hk]
      rfl

theorem Holds.startInWrapper_eq (hs : s.Lies b) :
    a.startInWrapper s.position = s.startInWrapper.position := by
  have hn := h.node?_inside hb hs.top
  have hk := isWrapper_eq (h.kind?_of_node? hn)
  have hc := h.child?_inside hb hs.top s.offset
  have hc' := h.lastChild?_inside hb hs.top
  obtain ⟨l, k⟩ := s
  simp only [startInWrapper, Spot.startInWrapper, Spot.position, Spot.node, hk, hc, hc', Node.isWrapper]
  by_cases hw : l.node.kind.isWrapper
  case neg => simp [hw]
  case pos =>
    simp only [hw, ↓reduceIte]
    cases l.child? k with
    | some l' => rfl
    | none =>
      cases hl : l.child? (l.node.children.length - 1) with
      | some l' => simp [h.extent_inside hb hs.top hl, Spot.atEnd]
      | none => rfl

theorem Holds.stopInWrapper_eq (hs : s.Lies b) :
    a.stopInWrapper s.position = s.stopInWrapper.position := by
  have hn := h.node?_inside hb hs.top
  have hk := isWrapper_eq (h.kind?_of_node? hn)
  have hc := h.child?_inside hb hs.top (s.offset - 1)
  have hc' := h.firstChild?_inside hb hs.top
  obtain ⟨l, k⟩ := s
  simp only [stopInWrapper, Spot.stopInWrapper, Spot.position, Spot.node, hk, hc, hc', Node.isWrapper]
  by_cases hw : l.node.kind.isWrapper
  case neg => simp [hw]
  case pos =>
    simp only [hw, ↓reduceIte]
    by_cases hz : k = 0
    case pos =>
      simp only [hz, ↓reduceIte]
      cases l.child? 0 <;> rfl
    case neg =>
      simp only [hz, ↓reduceIte]
      cases hl : l.child? (k - 1) with
      | some l' => simp [h.extent_inside hb hs.top hl, Spot.atEnd]
      | none => cases l.child? 0 <;> rfl

theorem Holds.isStyleable_eq (hs : s.Lies b) :
    a.isStyleable block s.position.node = s.isStyleable := by
  have hn := h.node?_inside hb hs.top
  obtain ⟨⟨n, path⟩, k⟩ := s
  simp only [isStyleable, Spot.isStyleable, Spot.position, Spot.node,
    isText_eq (h.kind?_of_node? hn), Node.isText]
  congr 1
  have hl : (Location.mk n path).top = b := hs.top
  rcases path with _ | ⟨f, _ | ⟨g, path⟩⟩
  case nil =>
    have hi : n.id = block := (congrArg Node.id hl).trans (Tree.id_of_node? hb)
    have hup (p : NodeId) (hp : t.parent? block = some p) : p ≠ block ∧ t.parent? p ≠ some block :=
      ⟨fun e => h.wf.linked.acyclic block (.single (by rwa [e] at hp)),
        fun hp' => h.wf.linked.acyclic block (.tail (.single hp') hp)⟩
    rw [hi, h.parent?_eq, Bool.eq_false_iff, ne_eq, Option.any_eq_true]
    rintro ⟨p, hp, hany⟩
    simp [h.parent?_eq, hup p hp] at hany
  case cons.nil =>
    have hi : f.id = block := (congrArg Node.id hl).trans (Tree.id_of_node? hb)
    simp [h.parent?_inside hb hl, hi]
  case cons.cons =>
    have hl' : (Location.mk (f.plug n) (g :: path)).top = b := hl
    have hk : a.kind? f.id = some f.kind := h.kind?_of_node? (h.node?_inside hb hl')
    have hp : a.parent? f.id = some g.id := h.parent?_inside hb hl'
    have hne : f.id ≠ block := h.id_ne_block hb hl'
    simp only [h.parent?_inside hb hl, Option.any_some, hne, isWrapper_eq hk, hp, decide_false,
      Bool.false_or, Option.some.injEq]
    cases path with
    | nil =>
      have hi : g.id = block := (congrArg Node.id hl).trans (Tree.id_of_node? hb)
      simp [hi]
    | cons e path =>
      have hne : g.id ≠ block := h.id_ne_block (n := g.plug (f.plug n)) hb hl
      simp [hne]

end Inside

section Inwards

variable (h : a.Holds t) (hb : t.node? block = some b)

include h hb

theorem Holds.inwards_eq {s s' : Spot} (hs : s.Lies b) (hs' : s'.Lies b) :
    a.inwards block s.position s'.position = some (Endpoints.ofSpots s s') := by
  rw [inwards, h.startInBlock_eq hb hs, h.stopInBlock_eq hb hs', Endpoints.ofSpots]
  cases h₁ : s.startInBlock with
  | error => rfl
  | ok s₁ =>
    cases h₂ : s'.stopInBlock with
    | error => rfl
    | ok s₂ =>
      have hs := hs.startInBlock h₁
      have hs' := hs'.stopInBlock h₂
      simp only [Except.map, h.startPastAtoms_eq hb hs (Spot.isBlock_startInBlock h₁),
        h.stopPastAtoms_eq hb hs' (Spot.isBlock_stopInBlock h₂), Option.bind_eq_bind,
        Option.bind_some]
      cases h₃ : s₁.startPastAtoms with
      | error => simp only [bind, Except.bind, h₃]; rfl
      | ok s₃ =>
        cases h₄ : s₂.stopPastAtoms with
        | error => simp only [bind, Except.bind, h₃, h₄]; rfl
        | ok s₄ =>
          have hs := hs.startPastAtoms h₃
          have hs' := hs'.stopPastAtoms h₄
          simp only [bind, Except.bind, h₃, h₄, h.startInWrapper_eq hb hs, h.stopInWrapper_eq hb hs',
            h.isStyleable_eq hb hs.startInWrapper, h.isStyleable_eq hb hs'.stopInWrapper]
          split <;> rfl

theorem Holds.checkEnd_eq (p : Position) :
    a.checkEnd block p.node = some ((t.spot b p).map fun _ => ()) := by
  rw [checkEnd, h.depthFrom?_eq hb, Tree.spot]
  cases hl : b.locate? p.node with
  | none => rfl
  | some l =>
    simp only [h.embedAbove?_eq, Tree.id_of_node? hb, Option.map_some, Option.bind_eq_bind,
      Option.bind_some]
    split
    case isTrue => rfl
    case isFalse => split <;> rfl

theorem Holds.clamp_eq {p : Position} {s : Spot} (hs : t.spot b p = .ok s) :
    (⟨p.node, min p.offset (a.extent p.node)⟩ : Position) = s.position := by
  unfold Tree.spot at hs
  split at hs
  case h_1 => contradiction
  case h_2 l hl =>
    obtain rfl : s = ⟨l, min p.offset l.node.extent⟩ := by
      split at hs
      case isTrue => contradiction
      case isFalse => split at hs <;> cases hs; rfl
    rw [← Node.id_of_locate? hl, h.extent_eq (h.node?_inside hb (Node.top_of_locate? hl))]
    rfl

theorem Holds.endpoints_eq (span : Span) : a.endpoints block span = some (t.endpoints block span) := by
  simp only [endpoints, Tree.endpoints, h.checkEnd_eq hb, hb, bind, Except.bind, Option.bind_some]
  cases h₁ : t.spot b span.start with
  | error => rfl
  | ok s =>
    cases h₂ : t.spot b span.stop with
    | error => rfl
    | ok s' =>
      simp only [Except.map, h.clamp_eq hb h₁, h.clamp_eq hb h₂,
        h.inwards_eq hb (Tree.lies_of_spot h₁) (Tree.lies_of_spot h₂), Option.bind_some]
      rfl

end Inwards

theorem Holds.nonemptyEndpoints_eq (h : a.Holds t) (hb : t.node? block = some b) (span : Span) :
    a.nonemptyEndpoints block span = some (t.nonemptyEndpoints block span) := by
  rw [nonemptyEndpoints, h.endpoints_eq hb, Tree.nonemptyEndpoints]
  cases he : t.endpoints block span with
  | error => rfl
  | ok e =>
    obtain ⟨b', s, n, s', m, hb', hp, hq⟩ := Tree.perch_of_endpoints he
    cases hb.symm.trans hb'
    have hn := hp.node ▸ h.wf.node?_of_mem_preorder hb hp.mem_preorder
    have hm := hq.node ▸ h.wf.node?_of_mem_preorder hb hq.mem_preorder
    simp only [bind, Option.bind_some, h.offsetOf_eq hb hn, h.offsetOf_eq hb hm, Except.bind,
      Endpoints.offsets]
    by_cases hlt : t.offsetOf block e.start < t.offsetOf block e.stop
    case pos => simp only [hlt, ↓reduceIte]; rfl
    case neg => simp only [hlt, ↓reduceIte]; rfl

end Arena

end RichText
