import RichText.Proofs.Inward

namespace RichText

namespace Item

def isChar : Item → Bool
  | char _ => true
  | node _ => false

end Item

namespace Node

variable {b n : Node} {k : Nat}

theorem not_isChar_sights {as : List Node} (h : ∀ a ∈ as, a.kind.isAtomic)
    (hi : i ∈ sightsAll as) : i.isChar = false := by
  rw [sightsAll_eq_flatMap] at hi
  obtain ⟨a, ha, hi⟩ := List.mem_flatMap.mp hi
  have hk := h a ha
  have hs : a.Solid := solid_iff.mpr (.inr hk)
  have ht : a.isText = false := by
    cases hx : a.kind <;> simp_all [isText, Kind.isText, Kind.isAtomic, Kind.isBreak, Kind.isEmbed]
  rw [sights_of_solid hs, items_of_not_isText ht, List.mem_singleton] at hi
  rw [hi]
  rfl

theorem offsetOf_min (hk : n.kind.isLeaf = false) (hc : n.children ≠ []) :
    b.offsetOf n (min k n.children.length) = b.offsetOf n k := by
  obtain h | h := Nat.le_total k n.children.length
  case inl => rw [Nat.min_eq_left h]
  case inr =>
    have ht := not_isText_of_not_isLeaf hk
    have hlen : n.children.length ≠ 0 := by simpa using hc
    rw [Nat.min_eq_right h]
    simp only [offsetOf, ht, Bool.false_eq_true, if_false, List.getElem?_eq_none h,
      List.getElem?_eq_none (Nat.le_refl _), hlen, show k ≠ 0 by omega]

section Measure

variable (hd : b.ids.Nodup) (he : b.LeavesEmpty) (hn : n ∈ b.preorder) (hi : n.id ≠ b.id)

include hd he hn in
theorem offsetOf_zero : b.offsetOf n 0 = b.countBefore n.id := by
  cases hk : n.kind.isLeaf
  case true => simp [offsetOf, he n hn hk]
  case false => simpa using offsetOf_of_append hd he hn hk (List.nil_append n.children).symm

include hd he hn in
theorem offsetOf_extent (hk : n.kind.isBreak = false) :
    b.offsetOf n n.extent = b.countBefore n.id + n.charCount := by
  cases ht : n.isText
  case true => simp [offsetOf, ht, extent, charCount_of_isText ht]
  case false =>
    have hk : n.kind.isLeaf = false := by simp_all [Kind.isLeaf, isText]
    have ho := offsetOf_of_append hd he hn hk (List.append_nil n.children).symm
    rw [← charCount_of_not_isLeaf hk] at ho
    simpa [extent, ht] using ho

include hd he hn hi

theorem offsetOf_within : b.countBefore n.id ≤ b.offsetOf n k ∧
    b.offsetOf n k ≤ b.countBefore n.id + n.charCount := by
  cases ht : n.isText
  case true =>
    rw [offsetOf, if_pos ht, charCount_of_isText ht]
    omega
  case false =>
    cases hc : n.children[k]? with
    | none =>
      simp only [offsetOf, ht, hc, Bool.false_eq_true, if_false, hi]
      split <;> omega
    | some c =>
      obtain ⟨hlt, hg⟩ := List.getElem?_eq_some_iff.mp hc
      have hk : n.kind.isLeaf = false := by
        rw [Bool.eq_false_iff]
        intro hk
        simp [he n hn hk] at hlt
      have e := (List.take_append_drop k n.children).symm
      have ho := offsetOf_of_append hd he hn hk e
      rw [List.length_take, Nat.min_eq_left (Nat.le_of_lt hlt)] at ho
      have hw := charCount_of_not_isLeaf hk
      rw [e, List.map_append, List.sum_append] at hw
      omega

end Measure

end Node

namespace Seat

variable {s : Seat}

def following : Seat → List Node
  | bare _ after => after
  | held _ _ _ _ right _ => right

def preceding : Seat → List Node
  | bare before _ => before
  | held _ _ _ left _ _ => left

theorem ahead_pushLeft (ns : List Node) : (s.pushLeft ns).ahead = s.ahead ++ ns := by
  cases s <;> simp [pushLeft, ahead]

theorem mem_preorder {b n : Node} (hc : b.children = s.plug [n]) : n ∈ b.preorder := by
  rw [Node.preorder_eq, hc]
  exact .tail _ (mem_preorderAll_plug (.head _))

theorem id_ne {b n : Node} (hd : b.ids.Nodup) (hc : b.children = s.plug [n]) : n.id ≠ b.id := by
  rw [Node.ids_eq, hc, List.nodup_cons] at hd
  exact fun e => hd.left (e ▸ Node.mem_idsAll_iff.mpr ⟨n, mem_preorderAll_plug (.head _), rfl⟩)

theorem exists_pushRight (h : s.following = ms ++ ns) :
    ∃ s' : Seat, s = s'.pushRight ms := by
  cases s with
  | bare before after => exact ⟨bare before ns, congrArg _ h⟩
  | held before i styles left right after =>
    exact ⟨held before i styles left ns after, by rw [pushRight, ← h]; rfl⟩

theorem exists_pushLeft (h : s.preceding = ms ++ ns) : ∃ s' : Seat, s = s'.pushLeft ns := by
  cases s with
  | bare before after => exact ⟨bare ms after, by rw [pushLeft, ← h]; rfl⟩
  | held before i styles left right after =>
    exact ⟨held before i styles ms right after, by rw [pushLeft, ← h]; rfl⟩

section Atoms

variable {b n m : Node} {as : List Node} {k : Nat} {v : Spot} (hn : n.kind.isAtomic)

include hn

section Found

variable (ha : ∀ a ∈ as, a.kind.isAtomic) (hm : m.kind.isAtomic = false)

include ha hm

theorem startPastAtoms_spot : ((s.pushRight (as ++ [m])).spot b n k).startPastAtoms =
    .ok ((s.pushLeft (n :: as)).spot b m 0) := by
  have hl : ((s.pushRight (as ++ [m])).location b n).seekRight (!·.kind.isAtomic) =
      some ((s.pushLeft (n :: as)).location b m) := by
    have hs (f : Frame) (path : List Frame) (before after : List Node) :
        Location.seekRight.go (!·.kind.isAtomic) f path before n (as ++ m :: after) = _ :=
      Location.seekRight_go_of_not (by simp [hn]) (fun a h => by simp [ha a h]) (by simp [hm]) ..
    cases s <;> simp [location, frames, pushRight, pushLeft, Location.seekRight, hs]
  rw [Spot.startPastAtoms, if_pos (show (spot b n k _).node.kind.isAtomic from hn)]
  simp only [spot, hl]
  rfl

theorem stopPastAtoms_spot : ((s.pushLeft (m :: as)).spot b n k).stopPastAtoms =
    .ok ((s.pushRight (as ++ [n])).spot b m m.extent) := by
  have hl : ((s.pushLeft (m :: as)).location b n).seekLeft (!·.kind.isAtomic) =
      some ((s.pushRight (as ++ [n])).location b m) := by
    have hs (f : Frame) (path : List Frame) (after before : List Node) :
        Location.seekLeft.go (!·.kind.isAtomic) f path after n (as.reverse ++ m :: before) = _ :=
      Location.seekLeft_go_of_not (by simp [hn]) (fun a h => by simp [ha a (by simpa using h)])
        (by simp [hm]) ..
    cases s <;> simp [location, frames, pushRight, pushLeft, Location.seekLeft, hs]
  rw [Spot.stopPastAtoms, if_pos (show (spot b n k _).node.kind.isAtomic from hn)]
  simp only [spot, hl]
  rfl

end Found

theorem startPastAtoms_error (h : ∀ a ∈ s.following, a.kind.isAtomic) :
    (s.spot b n k).startPastAtoms = .error .nothingAfterStart := by
  have hl : (s.location b n).seekRight (!·.kind.isAtomic) = none := by
    have hs (f : Frame) (path : List Frame) (before : List Node) :
        Location.seekRight.go (!·.kind.isAtomic) f path before n s.following = none :=
      Location.seekRight_go_eq_none (by simp [hn]) (fun a ha => by simp [h a ha]) _
    cases s <;> exact hs ..
  rw [Spot.startPastAtoms, if_pos (show (spot b n k _).node.kind.isAtomic from hn)]
  simp only [spot, hl]

theorem stopPastAtoms_error (h : ∀ a ∈ s.preceding, a.kind.isAtomic) :
    (s.spot b n k).stopPastAtoms = .error .nothingBeforeStop := by
  have hl : (s.location b n).seekLeft (!·.kind.isAtomic) = none := by
    have hs (f : Frame) (path : List Frame) (after : List Node) :
        Location.seekLeft.go (!·.kind.isAtomic) f path after n s.preceding.reverse = none :=
      Location.seekLeft_go_eq_none (by simp [hn]) (fun a ha => by simp [h a (by simpa using ha)]) _
    cases s <;> exact hs ..
  rw [Spot.stopPastAtoms, if_pos (show (spot b n k _).node.kind.isAtomic from hn)]
  simp only [spot, hl]

theorem exists_of_startPastAtoms (h : (s.spot b n k).startPastAtoms = .ok v) :
    ∃ s' as m, s = pushRight (as ++ [m]) s' ∧ (∀ a ∈ n :: as, a.kind.isAtomic) ∧
      m.kind.isAtomic = false ∧ v = (s'.pushLeft (n :: as)).spot b m 0 := by
  cases hf : s.following.find? (!·.kind.isAtomic) with
  | none => cases (startPastAtoms_error hn (by simpa using hf)).symm.trans h
  | some m =>
    have ⟨hm, as, bs, e, ha⟩ := List.find?_eq_some_iff_append.mp hf
    have ha : ∀ a ∈ as, a.kind.isAtomic := by simpa using ha
    have hm : m.kind.isAtomic = false := by simpa using hm
    have e : s.following = as ++ [m] ++ bs := by simpa using e
    obtain ⟨s', rfl⟩ := exists_pushRight e
    cases (startPastAtoms_spot hn ha hm).symm.trans h
    exact ⟨s', as, m, rfl, List.forall_mem_cons.mpr ⟨hn, ha⟩, hm, rfl⟩

theorem exists_of_stopPastAtoms (h : (s.spot b n k).stopPastAtoms = .ok v) :
    ∃ s' as m, s = pushLeft (m :: as) s' ∧ (∀ a ∈ as ++ [n], a.kind.isAtomic) ∧
      m.kind.isAtomic = false ∧ v = (s'.pushRight (as ++ [n])).spot b m m.extent := by
  cases hf : s.preceding.reverse.find? (!·.kind.isAtomic) with
  | none => cases (stopPastAtoms_error hn (by simpa using hf)).symm.trans h
  | some m =>
    have ⟨hm, as, bs, e, ha⟩ := List.find?_eq_some_iff_append.mp hf
    have ha : ∀ a ∈ as.reverse, a.kind.isAtomic := by simpa using ha
    have hm : m.kind.isAtomic = false := by simpa using hm
    have e : s.preceding = bs.reverse ++ m :: as.reverse := by simpa using congrArg List.reverse e
    obtain ⟨s', rfl⟩ := exists_pushLeft e
    cases (stopPastAtoms_spot hn ha hm).symm.trans h
    exact ⟨s', as.reverse, m, rfl, List.forall_mem_append.mpr ⟨ha, by simpa using hn⟩, hm, rfl⟩

end Atoms

end Seat

namespace Location

variable {l l' : Location} {p : Node → Bool}

theorem ancestors_child? (h : l.child? i = some l') :
    l'.ancestors = (l.node.id, l.node.kind) :: l.ancestors := by
  obtain ⟨n, -, rfl⟩ := Option.map_eq_some_iff.mp h
  rfl

theorem ancestors_seekRight (h : l.seekRight p = some l') : l'.ancestors = l.ancestors := by
  obtain ⟨n, _ | ⟨f, path⟩⟩ := l
  case nil =>
    rw [seekRight] at h
    split at h <;> cases h
    rfl
  case cons =>
    rw [seekRight] at h
    have go (before : List Node) (n : Node) (ns : List Node)
        (h : seekRight.go p f path before n ns = some l') :
        l'.ancestors = ((f.id, f.kind) :: path.map fun f => (f.id, f.kind)) := by
      induction ns generalizing before n with
      | nil =>
        rw [seekRight.go] at h
        split at h <;> cases h
        rfl
      | cons m ns ih =>
        rw [seekRight.go] at h
        split at h
        case isTrue => cases h; rfl
        case isFalse => exact ih _ _ h
    exact go _ _ _ h

theorem ancestors_seekLeft (h : l.seekLeft p = some l') : l'.ancestors = l.ancestors := by
  obtain ⟨n, _ | ⟨f, path⟩⟩ := l
  case nil =>
    rw [seekLeft] at h
    split at h <;> cases h
    rfl
  case cons =>
    rw [seekLeft] at h
    have go (after : List Node) (n : Node) (ns : List Node)
        (h : seekLeft.go p f path after n ns = some l') :
        l'.ancestors = ((f.id, f.kind) :: path.map fun f => (f.id, f.kind)) := by
      induction ns generalizing after n with
      | nil =>
        rw [seekLeft.go] at h
        split at h <;> cases h
        rfl
      | cons m ns ih =>
        rw [seekLeft.go] at h
        split at h
        case isTrue => cases h; rfl
        case isFalse => exact ih _ _ h
    exact go _ _ _ h

end Location

namespace Spot

variable {s u v : Spot} {f g : NodeId × Kind}

theorem ancestors_startPastAtoms (h : s.startPastAtoms = .ok v) :
    v.location.ancestors = s.location.ancestors := by
  unfold startPastAtoms at h
  split at h
  case isTrue =>
    split at h <;> cases h
    case h_1 hl => exact Location.ancestors_seekRight hl
  case isFalse => cases h; rfl

theorem ancestors_stopPastAtoms (h : s.stopPastAtoms = .ok v) :
    v.location.ancestors = s.location.ancestors := by
  unfold stopPastAtoms at h
  split at h
  case isTrue =>
    split at h <;> cases h
    case h_1 hl => exact Location.ancestors_seekLeft hl
  case isFalse => cases h; rfl

theorem not_isStyleable (h : (∃ a, s.location.ancestors = [a, f, g]) ∨
    s.location.ancestors = [f, g] ∧ (f.2.isWrapper = false ∨ s.node.isText = false)) :
    s.isStyleable = false := by
  obtain ⟨⟨n, path⟩, k⟩ := s
  simp only [Location.ancestors, List.map_eq_cons_iff, List.map_eq_nil_iff] at h
  obtain ⟨a, h⟩ | ⟨h, hf⟩ := h
  case inl =>
    obtain ⟨f₁, _, rfl, -, f₂, _, rfl, -, f₃, _, rfl, -, -⟩ := h
    simp [isStyleable]
  case inr =>
    obtain ⟨f₁, _, rfl, rfl, f₂, _, rfl, -, rfl⟩ := h
    obtain hf | hf := hf <;> simp [isStyleable, hf]

theorem isBlock_of_ancestors (h : s.location.ancestors = [f, g]) : s.isBlock = false := by
  obtain ⟨⟨n, _ | _⟩, k⟩ := s
  case nil => simp [Location.ancestors] at h
  case cons => rfl

-- The last move of an end of a span: from a wrapper to a text in it, at the same offset.
structure Descent (d : Spot → Spot) : Prop where
  stays : ∀ s, s.node.isWrapper = false → d s = s
  child : ∀ s, d s = s ∨ ∃ i, s.location.child? i = some (d s).location
  lands : ∀ {b before left right after i styles},
    b.children = before ++ .mk i (.wrapper styles) (left ++ right) :: after → left ++ right ≠ [] →
    let u := d ((Seat.bare before after).spot b (.mk i (.wrapper styles) (left ++ right)) left.length)
    u.isStyleable → ∃ s n, Tree.Perch b u.position s n ∧ Piece.total s.lead + u.position.offset =
      Piece.total (Seat.held before i styles left right after).lead

theorem descent_startInWrapper : Descent startInWrapper where
  stays _ := startInWrapper_of_not_isWrapper
  lands hc hne hs := Tree.perch_toStart_wrapper hs hc hne (toStart_of rfl rfl)
  child s := by
    unfold startInWrapper
    split
    case isFalse => exact .inl rfl
    case isTrue =>
      split
      case h_1 hl => exact .inr ⟨_, hl⟩
      case h_2 =>
        split
        case h_1 hl => exact .inr ⟨_, hl⟩
        case h_2 => exact .inl rfl

theorem descent_stopInWrapper : Descent stopInWrapper where
  stays _ := stopInWrapper_of_not_isWrapper
  lands hc hne hs := Tree.perch_toStop_wrapper hs hc hne (toStop_of rfl rfl)
  child s := by
    unfold stopInWrapper
    split
    case isFalse => exact .inl rfl
    case isTrue =>
      simp only
      split
      case h_1 l _ hl =>
        split at hl
        case isTrue => contradiction
        case isFalse => exact .inr ⟨_, hl⟩
      case h_2 hl => exact .inr ⟨_, hl⟩
      case h_3 => exact .inl rfl

theorem Descent.not_isStyleable {d : Spot → Spot} (hd : Descent d) (h : s.location.ancestors = [f, g])
    (hf : f.2.isWrapper = false ∨ s.node.isText = false) : (d s).isStyleable = false := by
  obtain e | ⟨i, hc⟩ := hd.child s
  case inl => rw [e]; exact Spot.not_isStyleable (.inr ⟨h, hf⟩)
  case inr => exact Spot.not_isStyleable (.inl ⟨_, h ▸ Location.ancestors_child? hc⟩)

section Aside

variable (hf : f.2.isWrapper = false) (h : s.location.ancestors = [f, g])

include hf h

theorem not_isStyleable_toStart (hu : s.toStart = .ok u) : u.isStyleable = false := by
  have ⟨s₁, h₁, hu⟩ := bind_eq_ok.mp hu
  have ⟨s₂, h₂, hu⟩ := bind_eq_ok.mp hu
  cases hu
  cases (startInBlock_of_not_isBlock (isBlock_of_ancestors h)).symm.trans h₁
  exact descent_startInWrapper.not_isStyleable ((ancestors_startPastAtoms h₂).trans h) (.inl hf)

theorem not_isStyleable_toStop (hu : s.toStop = .ok u) : u.isStyleable = false := by
  have ⟨s₁, h₁, hu⟩ := bind_eq_ok.mp hu
  have ⟨s₂, h₂, hu⟩ := bind_eq_ok.mp hu
  cases hu
  cases (stopInBlock_of_not_isBlock (isBlock_of_ancestors h)).symm.trans h₁
  exact descent_stopInWrapper.not_isStyleable ((ancestors_stopPastAtoms h₂).trans h) (.inl hf)

end Aside

end Spot

namespace Tree

variable {t : Tree} {block : NodeId} {b n : Node} {p : Position} {u : Spot}

-- A position is on the block, at a seat, or in a node where nothing can be styled.
inductive Placed (b : Node) (p : Position) : Spot → Prop
  | block (node : p.node = b.id) : Placed b p ⟨⟨b, []⟩, min p.offset b.extent⟩
  | seat {s : Seat} {n : Node} (children : b.children = s.plug [n]) (node : p.node = n.id) :
    Placed b p (s.spot b n (min p.offset n.extent))
  | aside {u : Spot} {f g : NodeId × Kind} (kind : f.2.isWrapper = false)
    (ancestors : u.location.ancestors = [f, g]) : Placed b p u

theorem placed_of_spot (h : t.spot b p = .ok u) : Placed b p u := by
  unfold spot at h
  split at h
  case h_1 => contradiction
  case h_2 l hl =>
    split at h
    case isTrue => contradiction
    case isFalse =>
      split at h
      case isTrue => contradiction
      case isFalse hlen =>
        cases h
        have hi := Node.id_of_locate? hl
        have ht := Node.top_of_locate? hl
        obtain ⟨n, path⟩ := l
        match path with
        | [] => cases ht; exact .block hi.symm
        | [⟨i, k, before, after⟩] =>
          obtain ⟨before, rfl⟩ := List.reverse_surjective before
          subst ht
          exact .seat (s := .bare before after) (by simp [Location.top, Frame.plug]) hi.symm
        | [⟨i, k, left, right⟩, ⟨i', k', before, after⟩] =>
          obtain ⟨before, rfl⟩ := List.reverse_surjective before
          obtain ⟨left, rfl⟩ := List.reverse_surjective left
          subst ht
          cases k with
          | wrapper styles =>
            exact .seat (s := .held before i styles left right after)
              (by simp [Location.top, Frame.plug]) hi.symm
          | _ => exact .aside (f := (i, _)) (g := (i', k')) rfl rfl
        | _ :: _ :: _ :: _ => simp at hlen

-- A text outside the embeds of a block, however deep in it, has a char at the offset.
def showsCharAt (t : Tree) (block : NodeId) (o : Nat) : Bool :=
  (itemAt? Item.width (Node.sightsAll (t.children block)) o).any Item.isChar

-- No such char lies between two offsets.
def Charless (t : Tree) (block : NodeId) (left right : Nat) : Prop :=
  ∀ o, left ≤ o → o < right → t.showsCharAt block o = false

structure Forth (t : Tree) (block : NodeId) (b : Node) (o : Nat) (p : Position) : Prop where
  perch : ∃ s n, Perch b p s n
  le : o ≤ t.offsetOf block p
  charless : t.Charless block o (t.offsetOf block p)

structure Back (t : Tree) (block : NodeId) (b : Node) (o : Nat) (p : Position) : Prop where
  perch : ∃ s n, Perch b p s n
  le : t.offsetOf block p ≤ o
  charless : t.Charless block (t.offsetOf block p) o

theorem Charless.mono (h : t.Charless block left right) (hl : left ≤ o) (hr : o' ≤ right) :
    t.Charless block o o' :=
  fun i hle hlt => h i (by omega) (by omega)

theorem charless_of_le (h : right ≤ left) : t.Charless block left right :=
  fun o hle hlt => by omega

section Block

variable (wf : t.WellFormed) (hb : t.node? block = some b) (he : b.LeavesEmpty)
  (hk : b.kind.isLeaf = false) {s : Seat}

include hb in
theorem charless_of_isAtomic {as : List Node} (hc : b.children = s.plug as)
    (ha : ∀ a ∈ as, a.kind.isAtomic) : t.Charless block (Piece.total s.lead)
      (Piece.total s.lead + (as.map Node.charCount).sum) := by
  intro o hle hlt
  rw [s.total_lead] at hle hlt
  rw [showsCharAt, children_of_node? hb, hc, s.sightsAll_plug, List.append_assoc, itemAt?_append,
    Node.sum_width_sightsAll, if_neg (by omega), itemAt?_append, Node.sum_width_sightsAll,
    if_pos (by omega)]
  cases hi : itemAt? Item.width (Node.sightsAll as) (o - (s.ahead.map Node.charCount).sum) with
  | none => rfl
  | some i => exact Node.not_isChar_sights ha (mem_of_itemAt? hi)

include wf hb he hk

theorem offsetOf_wrapper {before left right after : List Node} {i : NodeId} {styles : StyleSet}
    (hc : b.children = before ++ .mk i (.wrapper styles) (left ++ right) :: after)
    (hne : left ++ right ≠ []) (hl : left.length = min k (left ++ right).length) :
    b.offsetOf (.mk i (.wrapper styles) (left ++ right)) k =
      Piece.total (Seat.held before i styles left right after).lead := by
  have hd := wf.nodup_ids hb
  have hw : Node.mk i (.wrapper styles) (left ++ right) ∈ b.preorder :=
    Node.mem_preorder_of_child (by simp [hc]) (Node.mem_preorder_self _)
  have hs := Node.countBefore_child hd he b.mem_preorder_self hk hc
  have ho := Node.offsetOf_of_append hd he hw rfl rfl
  rw [Node.countBefore_self, Nat.zero_add] at hs
  rw [Seat.total_lead, Seat.ahead, List.map_append, List.sum_append, ← hs, ← ho, hl]
  exact (Node.offsetOf_min (n := .mk i (.wrapper styles) (left ++ right)) rfl hne).symm

theorem perch_descend {d : Spot → Spot} (hd : Spot.Descent d) (hc : b.children = s.plug [n])
    (hs : (d (s.spot b n (min k n.extent))).isStyleable) :
    ∃ s' m, Perch b (d (s.spot b n (min k n.extent))).position s' m ∧
      Piece.total s'.lead + (d (s.spot b n (min k n.extent))).offset = b.offsetOf n k := by
  cases hw : n.isWrapper
  case false =>
    rw [hd.stays (s.spot b n _) hw] at hs ⊢
    have ht := Seat.isText_of_isStyleable hs
    have he : n.extent = n.kind.textLength := by rw [Node.extent, if_pos ht]
    refine ⟨s, n, ⟨hc, ht, rfl, ?_⟩, ?_⟩
    · exact Node.extent_of_isText ht ▸ Nat.min_le_right ..
    · rw [Node.offsetOf, if_pos ht, Node.countBefore_of_plug (wf.nodup_ids hb) hk hc, he]
      rfl
  case true =>
    obtain ⟨i, kind, cs⟩ := n
    cases kind <;> try contradiction
    case wrapper styles =>
      cases s with
      | held => exact absurd hs (by rw [hd.not_isStyleable rfl (.inr rfl)]; simp)
      | bare before after =>
        obtain ⟨left, right, e, hl⟩ : ∃ left right, cs = left ++ right ∧
            left.length = min k cs.length :=
          ⟨cs.take k, cs.drop k, (List.take_append_drop k cs).symm, List.length_take⟩
        subst e
        rw [show min k (Node.mk i (.wrapper styles) (left ++ right)).extent = left.length from
          hl.symm] at hs ⊢
        have hne : left ++ right ≠ [] := by
          intro e
          obtain h | ⟨j, h⟩ := hd.child ((Seat.bare before after).spot b
            (.mk i (.wrapper styles) (left ++ right)) left.length)
          case inl =>
            rw [h] at hs
            exact Bool.false_ne_true (Seat.isText_of_isStyleable hs)
          case inr => simp [Seat.spot, Seat.location, Location.child?, e] at h
        have hc : b.children = before ++ .mk i (.wrapper styles) (left ++ right) :: after := by
          simpa using hc
        obtain ⟨s, m, hp, e⟩ := hd.lands hc hne hs
        exact ⟨s, m, hp, e.trans (offsetOf_wrapper wf hb he hk hc hne hl).symm⟩

section Seat

variable (hc : b.children = s.plug [n])
  (ha : n.kind.isAtomic → b.countBefore n.id ≤ o ∧ o ≤ b.countBefore n.id + n.charCount)
  (ho : n.kind.isAtomic = false → o = b.offsetOf n k)

include hc ha ho

theorem forth_seat (hu : (s.spot b n (min k n.extent)).toStart = .ok u) (hs : u.isStyleable) :
    Forth t block b o u.position := by
  have hd := wf.nodup_ids hb
  have ⟨v, hv, hu⟩ := bind_eq_ok.mp hu
  cases (Spot.startInBlock_of_not_isBlock Seat.isBlock_spot).symm.trans hv
  have ⟨v, hv, hu⟩ := bind_eq_ok.mp hu
  cases hu
  cases hn : n.kind.isAtomic
  case false =>
    cases (Spot.startPastAtoms_of_not_isAtomic (s := s.spot b n _) hn).symm.trans hv
    have ⟨s', m, hp, e⟩ := perch_descend wf hb he hk Spot.descent_startInWrapper hc hs
    have e : t.offsetOf block _ = o := (hp.offsetOf wf hb hk).trans (e.trans (ho hn).symm)
    exact ⟨⟨s', m, hp⟩, Nat.le_of_eq e.symm, charless_of_le (Nat.le_of_eq e)⟩
  case true =>
    obtain ⟨s, as, m, rfl, has, -, rfl⟩ := Seat.exists_of_startPastAtoms hn hv
    have ⟨hl, hr⟩ := ha hn
    rw [Node.countBefore_of_plug hd hk hc, Seat.lead_pushRight] at hl hr
    rw [Seat.plug_pushRight] at hc
    have hm : b.children = (s.pushLeft (n :: as)).plug [m] := by simpa [Seat.plug_pushLeft] using hc
    have has' : b.children = (s.pushRight [m]).plug (n :: as) := by
      simpa [Seat.plug_pushRight] using hc
    rw [← Nat.zero_min m.extent] at hs ⊢
    have ⟨s', m', hp, e⟩ := perch_descend wf hb he hk Spot.descent_startInWrapper hm hs
    have e := (hp.offsetOf wf hb hk).trans e
    rw [Node.offsetOf_zero hd he (Seat.mem_preorder hm), Node.countBefore_of_plug hd hk hm,
      Seat.total_lead, Seat.ahead_pushLeft, List.map_append, List.sum_append, ← Seat.total_lead] at e
    have hcl := charless_of_isAtomic hb has' has
    rw [Seat.lead_pushRight] at hcl
    rw [List.map_cons, List.sum_cons] at e
    refine ⟨⟨s', m', hp⟩, ?_, ?_⟩
    · rw [e]; omega
    · rw [e]; exact hcl.mono hl (by simp)

theorem back_seat (hu : (s.spot b n (min k n.extent)).toStop = .ok u) (hs : u.isStyleable) :
    Back t block b o u.position := by
  have hd := wf.nodup_ids hb
  have ⟨v, hv, hu⟩ := bind_eq_ok.mp hu
  cases (Spot.stopInBlock_of_not_isBlock Seat.isBlock_spot).symm.trans hv
  have ⟨v, hv, hu⟩ := bind_eq_ok.mp hu
  cases hu
  cases hn : n.kind.isAtomic
  case false =>
    cases (Spot.stopPastAtoms_of_not_isAtomic (s := s.spot b n _) hn).symm.trans hv
    have ⟨s', m, hp, e⟩ := perch_descend wf hb he hk Spot.descent_stopInWrapper hc hs
    have e : t.offsetOf block _ = o := (hp.offsetOf wf hb hk).trans (e.trans (ho hn).symm)
    exact ⟨⟨s', m, hp⟩, Nat.le_of_eq e, charless_of_le (Nat.le_of_eq e.symm)⟩
  case true =>
    obtain ⟨s, as, m, rfl, has, hm, rfl⟩ := Seat.exists_of_stopPastAtoms hn hv
    have ⟨hl, hr⟩ := ha hn
    rw [Node.countBefore_of_plug hd hk hc, Seat.total_lead, Seat.ahead_pushLeft, List.map_append,
      List.sum_append, ← Seat.total_lead] at hl hr
    rw [Seat.plug_pushLeft] at hc
    have hm' : b.children = (s.pushRight (as ++ [n])).plug [m] := by
      simpa [Seat.plug_pushRight] using hc
    have has' : b.children = (s.pushLeft [m]).plug (as ++ [n]) := by
      simpa [Seat.plug_pushLeft] using hc
    rw [← Nat.min_self m.extent] at hs ⊢
    have ⟨s', m', hp, e⟩ := perch_descend wf hb he hk Spot.descent_stopInWrapper hm' hs
    have e := (hp.offsetOf wf hb hk).trans e
    have hmb : m.kind.isBreak = false := (Bool.or_eq_false_iff.mp hm).left
    rw [Node.offsetOf_extent hd he (Seat.mem_preorder hm') hmb, Node.countBefore_of_plug hd hk hm',
      Seat.lead_pushRight] at e
    have hcl := charless_of_isAtomic hb has' has
    rw [Seat.total_lead, Seat.ahead_pushLeft, List.map_append, List.sum_append, ← Seat.total_lead]
      at hcl
    simp only [List.map_cons, List.sum_cons, List.map_nil, List.sum_nil, Nat.add_zero,
      List.map_append, List.sum_append] at hl hr hcl
    refine ⟨⟨s', m', hp⟩, ?_, ?_⟩
    · rw [e]; omega
    · rw [e]; exact hcl.mono (by omega) (by omega)

end Seat

theorem forth_of_placed {v : Spot} (h : Placed b p v) (hu : v.toStart = .ok u) (hs : u.isStyleable) :
    Forth t block b (t.offsetOf block p) u.position := by
  have hd := wf.nodup_ids hb
  obtain ⟨i, k⟩ := p
  cases h with
  | aside hf ha => exact absurd hs (by simp [Spot.not_isStyleable_toStart hf ha hu])
  | @seat s n hc hi =>
    obtain rfl : i = n.id := hi
    have hn := Seat.mem_preorder hc
    rw [wf.offsetOf_of_mem hb hn]
    exact forth_seat wf hb he hk hc (fun _ => Node.offsetOf_within hd he hn (Seat.id_ne hd hc))
      (fun _ => rfl) hu hs
  | block hi =>
    obtain rfl : i = b.id := hi
    have hx : b.extent = b.children.length := if_neg (by simp [Node.not_isText_of_not_isLeaf hk])
    rw [wf.offsetOf_of_mem hb b.mem_preorder_self]
    simp only [hx] at hu
    obtain hlt | hle := Nat.lt_or_ge k b.children.length
    case inr =>
      have hc : b.children = b.children ++ [] := (List.append_nil _).symm
      have ⟨_, herr⟩ := Seat.toStart_block_error (List.forall_mem_nil _) hc
      rw [Nat.min_eq_right hle] at hu
      cases herr.symm.trans hu
    case inl =>
      rw [Nat.min_eq_left (Nat.le_of_lt hlt)] at hu
      obtain ⟨before, n, after, hc, hlen⟩ : ∃ before n after, b.children = before ++ n :: after ∧
          before.length = k :=
        ⟨_, _, _, by rw [← List.drop_eq_getElem_cons hlt, List.take_append_drop],
          by simp [Nat.le_of_lt hlt]⟩
      subst hlen
      have hc' : b.children = (Seat.bare before after).plug [n] := by simpa using hc
      have hn := Seat.mem_preorder hc'
      have hu : ((Seat.bare before after).spot b n (min 0 n.extent)).toStart = .ok u := by
        rw [Nat.zero_min, ← hu, Spot.toStart, Spot.toStart, Seat.startInBlock_of_children hc]
        rfl
      rw [Node.offsetOf_before hk hc]
      exact forth_seat wf hb he hk hc' (fun _ => ⟨Nat.le_refl _, Nat.le_add_right ..⟩)
        (fun _ => (Node.offsetOf_zero hd he hn).symm) hu hs

theorem back_of_placed {v : Spot} (h : Placed b p v) (hu : v.toStop = .ok u) (hs : u.isStyleable) :
    Back t block b (t.offsetOf block p) u.position := by
  have hd := wf.nodup_ids hb
  obtain ⟨i, k⟩ := p
  cases h with
  | aside hf ha => exact absurd hs (by simp [Spot.not_isStyleable_toStop hf ha hu])
  | @seat s n hc hi =>
    obtain rfl : i = n.id := hi
    have hn := Seat.mem_preorder hc
    rw [wf.offsetOf_of_mem hb hn]
    exact back_seat wf hb he hk hc (fun _ => Node.offsetOf_within hd he hn (Seat.id_ne hd hc))
      (fun _ => rfl) hu hs
  | block hi =>
    obtain rfl : i = b.id := hi
    have hx : b.extent = b.children.length := if_neg (by simp [Node.not_isText_of_not_isLeaf hk])
    rw [wf.offsetOf_of_mem hb b.mem_preorder_self]
    simp only [hx] at hu
    obtain hz | hpos := Nat.eq_zero_or_pos (min k b.children.length)
    case inl => cases hz ▸ hu
    case inr =>
      obtain ⟨before, n, after, hc, hlen⟩ : ∃ before n after, b.children = before ++ n :: after ∧
          before.length + 1 = min k b.children.length :=
        have hlt : min k b.children.length - 1 < b.children.length := by omega
        ⟨_, _, _, by rw [← List.drop_eq_getElem_cons hlt, List.take_append_drop],
          by rw [List.length_take]; omega⟩
      have hc' : b.children = (Seat.bare before after).plug [n] := by simpa using hc
      have hn := Seat.mem_preorder hc'
      have hu : ((Seat.bare before after).spot b n (min n.extent n.extent)).toStop = .ok u := by
        rw [Nat.min_self, ← hu, ← hlen, Spot.toStop, Spot.toStop, Seat.stopInBlock_of_children hc]
        rfl
      rw [← Node.offsetOf_min hk (by simp [hc]), ← hlen,
        Node.offsetOf_after hd he b.mem_preorder_self hk hc]
      exact back_seat wf hb he hk hc' (fun _ => ⟨Nat.le_add_right .., Nat.le_refl _⟩)
        (fun ha => (Node.offsetOf_extent hd he hn (Bool.or_eq_false_iff.mp ha).left).symm) hu hs

theorem forth_back_of_endpoints {span : Span} {e : Endpoints} (h : t.endpoints block span = .ok e) :
    Forth t block b (t.offsetOf block span.start) e.start ∧
      Back t block b (t.offsetOf block span.stop) e.stop := by
  rw [endpoints, hb] at h
  obtain ⟨start, hstart, h⟩ := bind_eq_ok.mp h
  obtain ⟨stop, hstop, h⟩ := bind_eq_ok.mp h
  obtain ⟨u, v, hu, hv, hus, hvs, rfl⟩ := Endpoints.moves_of_ofSpots (mapError_eq_ok.mp h)
  exact ⟨forth_of_placed wf hb he hk (placed_of_spot hstart) hu hus,
    back_of_placed wf hb he hk (placed_of_spot hstop) hv hvs⟩

end Block

section Span

variable {span : Span} {e : Endpoints} (wf : t.WellFormed) (he : t.LeavesEmpty)

include wf he

theorem exists_forth_back (h : t.endpoints block span = .ok e) :
    ∃ b, t.node? block = some b ∧ Forth t block b (t.offsetOf block span.start) e.start ∧
      Back t block b (t.offsetOf block span.stop) e.stop := by
  have ⟨b, s, n, _, _, hb, hp, _⟩ := perch_of_endpoints h
  exact ⟨b, hb, forth_back_of_endpoints wf hb (he.node hb) (hp.not_isLeaf he hb) h⟩

theorem offsets_le_of_reversed (h : t.endpoints block span = .ok e)
    (hr : t.offsetOf block span.stop ≤ t.offsetOf block span.start) :
    (e.offsets t block).2 ≤ (e.offsets t block).1 := by
  have ⟨b, _, hf, hb⟩ := exists_forth_back wf he h
  exact Nat.le_trans hb.le (Nat.le_trans hr hf.le)

theorem nonemptyEndpoints_error_of_reversed
    (hr : t.offsetOf block span.stop ≤ t.offsetOf block span.start) :
    ∃ error, t.nonemptyEndpoints block span = .error error := by
  cases h : t.nonemptyEndpoints block span with
  | error error => exact ⟨error, rfl⟩
  | ok r =>
    have ⟨e, h', hlt⟩ := bind_eq_ok.mp h
    have hle := offsets_le_of_reversed wf he h' hr
    simp only at hlt
    split at hlt
    case isTrue h => omega
    case isFalse => contradiction

-- The ends of a span move inward only, over breaks and embeds, to texts that no embed of the block
-- holds, and so a span that is collapsed or reversed is never styled.
theorem narrow_endpoints (block : NodeId) (span : Span) (tag : String) :
    let l := t.offsetOf block span.start
    let r := t.offsetOf block span.stop
    (∀ e, t.endpoints block span = .ok e →
      let (left, right) := e.offsets t block
      (∃ b, t.node? block = some b ∧ (∃ s n, Perch b e.start s n) ∧ ∃ s n, Perch b e.stop s n) ∧
        t.embedBelow? block e.start.node = none ∧ t.embedBelow? block e.stop.node = none ∧
        (l ≤ left ∧ right ≤ r) ∧ t.Charless block l left ∧ t.Charless block right r ∧
        (r ≤ l → right ≤ left)) ∧
      (r ≤ l → (∃ error, t.applyStyle block span tag = .error error) ∧
        ∃ error, t.clearStyle block span tag = .error error) := by
  refine ⟨fun e h => ?_, fun hr => ?_⟩
  case refine_1 =>
    have ⟨b, hb, hf, hk⟩ := exists_forth_back wf he h
    have below {p : Position} (hp : ∃ s n, Perch b p s n) : t.embedBelow? block p.node = none := by
      have ⟨s, n, hp⟩ := hp
      rw [hp.node, ← id_of_node? hb, wf.embedBelow?_seat hb hp.children]
    exact ⟨⟨b, hb, hf.perch, hk.perch⟩, below hf.perch, below hk.perch, ⟨hf.le, hk.le⟩, hf.charless,
      hk.charless, offsets_le_of_reversed wf he h⟩
  case refine_2 =>
    have ⟨error, h⟩ := nonemptyEndpoints_error_of_reversed wf he hr
    exact ⟨⟨error, by simp [applyStyle_eq, h, bind, Except.bind]⟩, error,
      by simp [clearStyle_eq, h, bind, Except.bind]⟩

end Span

-- Breaks and embeds at both ends, and in between a wrapper with a break and content that is deeper.
def scattered : Tree where
  roots := [.mk ⟨0⟩ (.element "p") [
    .mk ⟨1⟩ (.lineBreak false) [],
    .mk ⟨2⟩ (.embed "math") [.mk ⟨3⟩ (.text "x") []],
    .mk ⟨4⟩ (.wrapper (.single "b")) [
      .mk ⟨5⟩ (.text "ab") [],
      .mk ⟨6⟩ (.lineBreak false) [],
      .mk ⟨7⟩ (.text "c") []],
    .mk ⟨8⟩ (.element "u") [.mk ⟨9⟩ (.wrapper (.single "i")) [.mk ⟨10⟩ (.text "d") []]],
    .mk ⟨11⟩ (.text "e") [],
    .mk ⟨12⟩ (.embed "math") [.mk ⟨13⟩ (.text "y") []],
    .mk ⟨14⟩ (.lineBreak false) []]]
  made := 15

-- From a break, at an offset that it does not have, to behind the end of the block, and back.
theorem narrow_endpoints_scattered :
    let start : Position := ⟨⟨1⟩, 5⟩
    let stop : Position := ⟨⟨0⟩, 9⟩
    scattered.WellFormed ∧ scattered.LeavesEmpty ∧
      scattered.offsetOf ⟨0⟩ start = 1 ∧ scattered.offsetOf ⟨0⟩ stop = 10 ∧
      (∃ e, scattered.endpoints ⟨0⟩ ⟨start, stop⟩ = .ok e ∧ e.offsets scattered ⟨0⟩ = (2, 8) ∧
        (∃ b, scattered.node? ⟨0⟩ = some b ∧ (∃ s n, Perch b e.start s n) ∧ ∃ s n, Perch b e.stop s n) ∧
        scattered.Charless ⟨0⟩ 1 2 ∧ scattered.Charless ⟨0⟩ 8 10) ∧
      ∃ error, scattered.applyStyle ⟨0⟩ ⟨stop, start⟩ "i" = .error error := by
  have wf : scattered.WellFormed := by decide
  have he : scattered.LeavesEmpty := by decide
  have ⟨h, _⟩ := narrow_endpoints wf he ⟨0⟩ ⟨⟨⟨1⟩, 5⟩, ⟨⟨0⟩, 9⟩⟩ "i"
  have ⟨_, h'⟩ := narrow_endpoints wf he ⟨0⟩ ⟨⟨⟨0⟩, 9⟩, ⟨⟨1⟩, 5⟩⟩ "i"
  have ⟨hp, _, _, _, hl, hr, _⟩ := h _ rfl
  exact ⟨wf, he, rfl, rfl, ⟨_, rfl, rfl, hp, hl, hr⟩, (h' (by decide)).left⟩

end Tree

end RichText
