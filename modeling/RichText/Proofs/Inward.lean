import RichText.Proofs.Footing
import RichText.Proofs.Resolve

namespace RichText

namespace Piece

-- Nothing between two offsets can be styled.
def Inert (ps : List Piece) (left right : Nat) : Prop :=
  ∀ o, left ≤ o → o < right → (itemAt? width ps o).any isStyleable = false

namespace Inert

variable {ps qs rs : List Piece} {left right : Nat}

theorem empty (h : right ≤ left) : Inert ps left right :=
  fun _ hle hlt => by omega

theorem mid (h : ∀ q ∈ qs, q.isStyleable = false) :
    Inert (ps ++ qs ++ rs) (total ps) (total (ps ++ qs)) := by
  intro o hle hlt
  cases hp : itemAt? width (ps ++ qs ++ rs) o with
  | none => rfl
  | some p => exact h p (mem_of_itemAt?_mid hp hle hlt)

-- What can be styled between two offsets is between any two that they are moved inward to.
theorem between_iff {left' right' o : Nat} (hle : left ≤ left' ∧ right' ≤ right)
    (hl : Inert ps left left') (hr : Inert ps right' right)
    (hs : (itemAt? width ps o).any isStyleable) : left' ≤ o ∧ o < right' ↔ left ≤ o ∧ o < right := by
  constructor
  case mp => exact fun h => ⟨by omega, by omega⟩
  case mpr =>
    refine fun h => ⟨?_, ?_⟩
    · by_contra hlt
      rw [hl o h.left (by omega)] at hs
      contradiction
    · by_contra hge
      rw [hr o (by omega) h.right] at hs
      contradiction

end Inert

end Piece

namespace Node

theorem inert_of_isAtomic {as : List Node} (h : ∀ a ∈ as, a.kind.isAtomic)
    (before after : List Node) :
    Piece.Inert ((before ++ as ++ after).flatMap pieces) (Piece.total (before.flatMap pieces))
      (Piece.total ((before ++ as).flatMap pieces)) := by
  rw [List.flatMap_append, List.flatMap_append]
  exact .mid fun _ => not_isStyleable_of_mem_pieces h

end Node

theorem Endpoints.moves_of_ofSpots {start stop : Spot} (h : ofSpots start stop = .ok e) :
    ∃ s u : Spot, start.toStart = .ok s ∧ stop.toStop = .ok u ∧ s.isStyleable ∧ u.isStyleable ∧
      e = ⟨s.position, u.position⟩ := by
  have ⟨_, hs₁, h⟩ := bind_eq_ok.mp h
  have ⟨_, hu₁, h⟩ := bind_eq_ok.mp h
  have ⟨_, hs₂, h⟩ := bind_eq_ok.mp h
  have ⟨_, hu₂, h⟩ := bind_eq_ok.mp h
  simp only at h
  split at h
  case isFalse => contradiction
  case isTrue hst =>
    cases h
    rw [Bool.and_eq_true] at hst
    exact ⟨_, _, Spot.toStart_of hs₁ hs₂, Spot.toStop_of hu₁ hu₂, hst.left, hst.right, rfl⟩

namespace Seat

variable {s : Seat} {b n : Node} {before after left right : List Node} {i : NodeId} {styles : StyleSet}

theorem isText_of_isStyleable (h : (s.spot b n k).isStyleable) : n.isText :=
  (Bool.and_eq_true_iff.mp h).left

theorem total_lead_concat (h : n.isText) :
    Piece.total (held before i styles (left ++ [n]) right after).lead =
      Piece.total (held before i styles left right' after').lead + n.extent := by
  simp [Node.extent_of_isText h, Node.total_items, Nat.add_assoc]

theorem toStart_end : ((bare before after).spot b (.mk i (.wrapper styles) (left ++ [n]))
    (left ++ [n]).length).toStart = .ok ((held before i styles left [] after).spot b n n.extent) := by
  have hn : ((bare before after).location b (.mk i (.wrapper styles) (left ++ [n]))).child?
      (left ++ [n]).length = none := by
    simp [Location.child?, location]
  have hc : ((bare before after).location b (.mk i (.wrapper styles) (left ++ [n]))).child?
      left.length = some ((held before i styles left [] after).location b n) :=
    Location.child?_of_children rfl
  have hlen :
      ((bare before after).location b (.mk i (.wrapper styles) (left ++ [n]))).node.children.length =
        left.length + 1 := List.length_append
  rw [Spot.toStart_of rfl rfl, Spot.startInWrapper, if_pos (by rfl)]
  simp only [spot, Spot.node, hn, hlen, Nat.add_sub_cancel, hc]
  rfl

theorem toStop_held : ((bare before after).spot b (.mk i (.wrapper styles) (left ++ n :: right))
    (left.length + 1)).toStop = .ok ((held before i styles left right after).spot b n n.extent) := by
  have hc := Location.child?_of_children
    (l := (bare before after).location b (.mk i (.wrapper styles) (left ++ n :: right))) rfl
  rw [Spot.toStop_of rfl rfl, Spot.stopInWrapper, if_pos (by rfl)]
  simp only [spot, Nat.add_one_ne_zero, if_false, Nat.add_sub_cancel, hc]
  rfl

theorem toStop_front : ((bare before after).spot b (.mk i (.wrapper styles) (n :: right)) 0).toStop =
    .ok ((held before i styles [] right after).spot b n 0) :=
  rfl

end Seat

namespace Tree

variable {t : Tree} {block : NodeId} {b n : Node} {s : Seat} {p : Position} {o : Nat}

theorem spot_eq_of_block (h : t.spot b ⟨b.id, k⟩ = .ok u) (ht : b.isText = false)
    (hk : k ≤ b.children.length) : u = ⟨⟨b, []⟩, k⟩ := by
  cases he : t.embedBelow? b.id b.id with
  | none => exact Except.ok.inj (h.symm.trans (spot_block he ht hk))
  | some e =>
    rw [spot] at h
    split at h
    case h_1 => contradiction
    case h_2 => simp [he] at h

-- A position in a text that a start at an offset leads on to, past nothing that can be styled.
structure Onward (b : Node) (o : Nat) (p : Position) (s : Seat) (n : Node) : Prop where
  perch : Perch b p s n
  le : o ≤ Piece.total s.lead + p.offset
  inert : Piece.Inert (b.children.flatMap Node.pieces) o (Piece.total s.lead + p.offset)

structure Backward (b : Node) (o : Nat) (p : Position) (s : Seat) (n : Node) : Prop where
  perch : Perch b p s n
  le : Piece.total s.lead + p.offset ≤ o
  inert : Piece.Inert (b.children.flatMap Node.pieces) (Piece.total s.lead + p.offset) o

theorem Perch.onward (h : Perch b p s n) : Onward b (Piece.total s.lead + p.offset) p s n :=
  ⟨h, Nat.le_refl _, .empty (Nat.le_refl _)⟩

theorem Perch.backward (h : Perch b p s n) : Backward b (Piece.total s.lead + p.offset) p s n :=
  ⟨h, Nat.le_refl _, .empty (Nat.le_refl _)⟩

section Moves

variable {before after left right : List Node} {i : NodeId} {styles : StyleSet} {u : Spot}
  (hs : u.isStyleable)

include hs

section Block

variable (hc : b.children = before ++ after)

include hc

section Flat

variable (hf : Node.Flat b.children)

include hf

theorem perch_toStart_block (hu : Spot.toStart ⟨⟨b, []⟩, before.length⟩ = .ok u) :
    ∃ as bs s n, after = as ++ bs ∧ (∀ a ∈ as, a.kind.isAtomic) ∧ Perch b u.position s n ∧
      u.position.offset = 0 ∧ s.lead = (before ++ as).flatMap Node.pieces := by
  cases hfind : after.find? (!·.kind.isAtomic) with
  | none =>
    have ⟨_, he⟩ := Seat.toStart_block_error (by simpa using hfind) hc
    cases he.symm.trans hu
  | some n =>
    have ⟨hn, as, bs, e, ha⟩ := List.find?_eq_some_iff_append.mp hfind
    have ha : ∀ a ∈ as, a.kind.isAtomic := by simpa using ha
    have hn : n.kind.isAtomic = false := by simpa using hn
    have hc : b.children = before ++ as ++ n :: bs := by simp [hc, e]
    refine ⟨as, n :: bs, ?_⟩
    cases hw : n.isWrapper
    case false =>
      have ht : n.isText := by
        have hs := (hf.child n (by simp [hc])).resolve_right (by simp [hw])
        exact (Node.solid_iff.mp hs).resolve_right (by simp [hn])
      cases (Seat.toStart_block_bare ha ht hc).symm.trans hu
      exact ⟨.bare (before ++ as) bs, n, e, ha, ⟨by simpa using hc, ht, rfl, Nat.zero_le _⟩, rfl, rfl⟩
    case true =>
      obtain ⟨i, kind, cs⟩ := n
      cases kind with
      | wrapper styles =>
        cases cs with
        | nil =>
          cases (Seat.toStart_block ha rfl hc).symm.trans hu
          exact absurd (Seat.isText_of_isStyleable (s := .bare (before ++ as) bs) hs)
            Bool.false_ne_true
        | cons m right =>
          cases (Seat.toStart_block_held ha hc).symm.trans hu
          exact ⟨.held (before ++ as) i styles [] right bs, m, e, ha,
            ⟨by simpa using hc, Seat.isText_of_isStyleable hs, rfl, Nat.zero_le _⟩, rfl, by simp⟩
      | _ => contradiction

theorem perch_toStop_block (hu : Spot.toStop ⟨⟨b, []⟩, before.length⟩ = .ok u) :
    ∃ bs as s n, before = bs ++ as ∧ (∀ a ∈ as, a.kind.isAtomic) ∧ Perch b u.position s n ∧
      u.position.offset = n.charCount ∧ s.lead ++ s.seated [n] = bs.flatMap Node.pieces := by
  cases hfind : before.reverse.find? (!·.kind.isAtomic) with
  | none =>
    have ⟨_, he⟩ := Seat.toStop_block_error (by simpa using hfind) hc
    cases he.symm.trans hu
  | some n =>
    have ⟨hn, as, bs, e, ha⟩ := List.find?_eq_some_iff_append.mp hfind
    have hn : n.kind.isAtomic = false := by simpa using hn
    have ha : ∀ a ∈ as.reverse, a.kind.isAtomic := by simpa using ha
    have e : before = bs.reverse ++ n :: as.reverse := by simpa using congrArg List.reverse e
    generalize as.reverse = as at ha e
    generalize bs.reverse = bs at e
    subst e
    refine ⟨bs ++ [n], as, ?_⟩
    cases hw : n.isWrapper
    case false =>
      have ht : n.isText := by
        have hs := (hf.child n (by simp [hc])).resolve_right (by simp [hw])
        exact (Node.solid_iff.mp hs).resolve_right (by simp [hn])
      have he := Node.extent_of_isText ht
      cases (Seat.toStop_block_bare ha ht hc).symm.trans hu
      exact ⟨.bare bs (as ++ after), n, by simp, ha, ⟨by simp [hc], ht, rfl, Nat.le_of_eq he⟩, he,
        by simp [Seat.seated, Seat.pieces_of_isText ht]⟩
    case true =>
      obtain ⟨i, kind, cs⟩ := n
      cases kind with
      | wrapper styles =>
        obtain rfl | ⟨left, m, rfl⟩ := cs.eq_nil_or_concat
        case inl =>
          cases (Seat.toStop_block ha rfl hc).symm.trans hu
          exact absurd (Seat.isText_of_isStyleable (s := .bare bs (as ++ after)) hs)
            Bool.false_ne_true
        case inr =>
          rw [List.concat_eq_append] at hc hu ⊢
          cases (Seat.toStop_block_held ha hc).symm.trans hu
          have ht := Seat.isText_of_isStyleable hs
          have he := Node.extent_of_isText ht
          exact ⟨.held bs i styles left [] (as ++ after), m, by simp, ha,
            ⟨by simp [hc], ht, rfl, Nat.le_of_eq he⟩, he, by simp [Seat.seated, Node.pieces]⟩
      | _ => contradiction

end Flat

variable (hf : Canonical.IsFlat b.children)

include hf

theorem onward_block (hu : Spot.toStart ⟨⟨b, []⟩, before.length⟩ = .ok u) :
    ∃ s n, Onward b (Piece.total (before.flatMap Node.pieces)) u.position s n := by
  obtain ⟨as, bs, s, n, rfl, ha, hp, hz, hlead⟩ := perch_toStart_block hs hc (.of_isFlat hf) hu
  have hi := Node.inert_of_isAtomic ha before bs
  rw [List.append_assoc, ← hc, ← hlead] at hi
  refine ⟨s, n, hp, ?_, by rwa [hz]⟩
  rw [hlead, List.flatMap_append, Piece.total_append]
  omega

theorem backward_block (hu : Spot.toStop ⟨⟨b, []⟩, before.length⟩ = .ok u) :
    ∃ s n, Backward b (Piece.total (before.flatMap Node.pieces)) u.position s n := by
  obtain ⟨bs, as, s, n, rfl, ha, hp, hz, hlead⟩ := perch_toStop_block hs hc (.of_isFlat hf) hu
  have e : Piece.total s.lead + u.position.offset = Piece.total (bs.flatMap Node.pieces) := by
    rw [hz, ← hlead, Piece.total_append, Seat.seated, List.flatMap_singleton, Node.total_items]
  have hi := Node.inert_of_isAtomic ha bs after
  rw [← hc, ← e] at hi
  refine ⟨s, n, hp, ?_, hi⟩
  rw [e, List.flatMap_append, Piece.total_append]
  omega

end Block

section Wrapper

variable (hc : b.children = before ++ .mk i (.wrapper styles) (left ++ right) :: after)
  (hne : left ++ right ≠ [])

include hc hne

theorem perch_toStart_wrapper (hu : ((Seat.bare before after).spot b
    (.mk i (.wrapper styles) (left ++ right)) left.length).toStart = .ok u) :
    ∃ s n, Perch b u.position s n ∧ Piece.total s.lead + u.position.offset =
      Piece.total (Seat.held before i styles left right after).lead := by
  cases right with
  | cons n right =>
    cases Seat.toStart_held.symm.trans hu
    have hp : Perch b ⟨n.id, 0⟩ (.held before i styles left right after) n :=
      ⟨by simpa using hc, Seat.isText_of_isStyleable hs, rfl, Nat.zero_le _⟩
    exact ⟨_, n, hp, rfl⟩
  | nil =>
    obtain rfl | ⟨left, n, rfl⟩ := left.eq_nil_or_concat
    case inl => contradiction
    case inr =>
      rw [List.concat_eq_append] at hc hu ⊢
      rw [List.append_nil] at hc hu
      cases Seat.toStart_end.symm.trans hu
      have ht := Seat.isText_of_isStyleable hs
      have hp : Perch b ⟨n.id, n.extent⟩ (.held before i styles left [] after) n :=
        ⟨by simpa using hc, ht, rfl, Nat.le_of_eq (Node.extent_of_isText ht)⟩
      exact ⟨_, n, hp, (Seat.total_lead_concat ht).symm⟩

theorem perch_toStop_wrapper (hu : ((Seat.bare before after).spot b
    (.mk i (.wrapper styles) (left ++ right)) left.length).toStop = .ok u) :
    ∃ s n, Perch b u.position s n ∧ Piece.total s.lead + u.position.offset =
      Piece.total (Seat.held before i styles left right after).lead := by
  obtain rfl | ⟨left, n, rfl⟩ := left.eq_nil_or_concat
  case inl =>
    have ⟨n, right, e⟩ := List.exists_cons_of_ne_nil hne
    rw [List.nil_append] at e
    subst e
    cases Seat.toStop_front.symm.trans hu
    have hp : Perch b ⟨n.id, 0⟩ (.held before i styles [] right after) n :=
      ⟨by simpa using hc, Seat.isText_of_isStyleable hs, rfl, Nat.zero_le _⟩
    exact ⟨_, n, hp, rfl⟩
  case inr =>
    rw [List.concat_eq_append] at hc hu ⊢
    rw [List.append_assoc, List.singleton_append] at hc hu
    rw [List.length_append, List.length_singleton] at hu
    cases Seat.toStop_held.symm.trans hu
    have ht := Seat.isText_of_isStyleable hs
    have hp : Perch b ⟨n.id, n.extent⟩ (.held before i styles left right after) n :=
      ⟨by simpa using hc, ht, rfl, Nat.le_of_eq (Node.extent_of_isText ht)⟩
    exact ⟨_, n, hp, (Seat.total_lead_concat ht).symm⟩

theorem onward_wrapper (hu : ((Seat.bare before after).spot b
    (.mk i (.wrapper styles) (left ++ right)) left.length).toStart = .ok u) :
    ∃ s n, Onward b (Piece.total (Seat.held before i styles left right after).lead) u.position s
      n :=
  have ⟨s, n, hp, e⟩ := perch_toStart_wrapper hs hc hne hu
  ⟨s, n, e ▸ hp.onward⟩

theorem backward_wrapper (hu : ((Seat.bare before after).spot b
    (.mk i (.wrapper styles) (left ++ right)) left.length).toStop = .ok u) :
    ∃ s n, Backward b (Piece.total (Seat.held before i styles left right after).lead) u.position s
      n :=
  have ⟨s, n, hp, e⟩ := perch_toStop_wrapper hs hc hne hu
  ⟨s, n, e ▸ hp.backward⟩

end Wrapper

end Moves

inductive Stands (b : Node) : Spot → Nat → Prop
  | block {before after : List Node} (children : b.children = before ++ after) :
    Stands b ⟨⟨b, []⟩, before.length⟩ (Piece.total (before.flatMap Node.pieces))
  | wrapper {before left right after : List Node} {i : NodeId} {styles : StyleSet}
    (children : b.children = before ++ .mk i (.wrapper styles) (left ++ right) :: after) :
    Stands b ((Seat.bare before after).spot b (.mk i (.wrapper styles) (left ++ right)) left.length)
      (Piece.total (Seat.held before i styles left right after).lead)
  | text {p : Position} {s : Seat} {n : Node} (perch : Perch b p s n) :
    Stands b (s.spot b n p.offset) (Piece.total s.lead + p.offset)

theorem Footing.stands {u : Spot} (wf : t.WellFormed) (hb : t.node? block = some b)
    (hk : b.kind.isLeaf = false) (h : Footing b p o) (hu : t.spot b p = .ok u) : Stands b u o := by
  cases h with
  | @text p s n perch =>
    have hp := wf.spot_seat hb perch.children (Node.extent_of_isText perch.isText ▸ perch.le)
    rw [← perch.node, hu] at hp
    cases hp
    exact .text perch
  | block hc =>
    cases spot_eq_of_block hu (Node.not_isText_of_not_isLeaf hk) (by simp [hc])
    exact .block hc
  | @wrapper before left right after i styles hc =>
    have hp := wf.spot_seat (s := .bare before after) (k := left.length) hb (by simpa using hc)
      (by simp [Node.extent, Node.isText, Kind.isText])
    cases hu.symm.trans hp
    exact .wrapper hc

namespace Stands

variable {u u' : Spot} (h : Stands b u o) (hf : Canonical.IsFlat b.children) (hs : u'.isStyleable)

include h hf hs

theorem onward (hu : u.toStart = .ok u') : ∃ s n, Onward b o u'.position s n := by
  cases h with
  | @text p s n perch =>
    cases (Seat.toStart_spot perch.isText).symm.trans hu
    exact ⟨s, n, perch.position_spot.symm ▸ perch.onward⟩
  | block hc => exact onward_block hs hc hf hu
  | @wrapper before left right after i styles hc =>
    have hw : Node.mk i (.wrapper styles) (left ++ right) ∈ b.children := by simp [hc]
    exact onward_wrapper hs hc (hf.canonical.nonempty _ hw rfl) hu

theorem backward (hu : u.toStop = .ok u') : ∃ s n, Backward b o u'.position s n := by
  cases h with
  | @text p s n perch =>
    cases (Seat.toStop_spot perch.isText).symm.trans hu
    exact ⟨s, n, perch.position_spot.symm ▸ perch.backward⟩
  | block hc => exact backward_block hs hc hf hu
  | @wrapper before left right after i styles hc =>
    have hw : Node.mk i (.wrapper styles) (left ++ right) ∈ b.children := by simp [hc]
    exact backward_wrapper hs hc (hf.canonical.nonempty _ hw rfl) hu

end Stands

theorem inward_of_endpoints {span : Span} {e : Endpoints} {left right : Nat} (wf : t.WellFormed)
    (hb : t.node? block = some b) (hk : b.kind.isLeaf = false) (hf : Canonical.IsFlat b.children)
    (hl : Footing b span.start left) (hr : Footing b span.stop right)
    (h : t.endpoints block span = .ok e) :
    ∃ l r, e.offsets t block = (l, r) ∧ (left ≤ l ∧ r ≤ right) ∧
      Piece.Inert (b.children.flatMap Node.pieces) left l ∧
      Piece.Inert (b.children.flatMap Node.pieces) r right := by
  rw [endpoints, hb] at h
  obtain ⟨start, hstart, h⟩ := bind_eq_ok.mp h
  obtain ⟨stop, hstop, h⟩ := bind_eq_ok.mp h
  obtain ⟨u, v, hu, hv, hus, hvs, rfl⟩ := Endpoints.moves_of_ofSpots (mapError_eq_ok.mp h)
  obtain ⟨_, _, ho⟩ := (hl.stands wf hb hk hstart).onward hf hus hu
  obtain ⟨_, _, ho'⟩ := (hr.stands wf hb hk hstop).backward hf hvs hv
  refine ⟨_, _, ?_, ⟨ho.le, ho'.le⟩, ho.inert, ho'.inert⟩
  rw [Endpoints.offsets, ho.perch.offsetOf wf hb hk, ho'.perch.offsetOf wf hb hk]

end Tree

end RichText
