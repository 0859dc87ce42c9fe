import RichText.Restyle.Shared
import RichText.Proofs.Apply
import RichText.Proofs.FlatBlock

namespace RichText

namespace StyleSet

theorem mem_foldl_inter {s : StyleSet} {ss : List StyleSet} :
    tag ∈ ss.foldl (· ∩ ·) s ↔ tag ∈ s ∧ ∀ s' ∈ ss, tag ∈ s' := by
  induction ss generalizing s with
  | nil => simp
  | cons s' ss ih => simp [ih, and_assoc]

end StyleSet

namespace Piece

-- Between two offsets, all that can be styled has the style.
def Covered (tag : String) (ps : List Piece) (left right : Nat) : Prop :=
  ∀ o, left ≤ o → o < right → ∀ p, itemAt? width ps o = some p → p.isStyleable →
    ∃ s, p.host = some s ∧ tag ∈ s

end Piece

namespace Seat

def left : Seat → List Node
  | bare .. => []
  | held _ _ _ left .. => left

def right : Seat → List Node
  | bare .. => []
  | held _ _ _ _ right _ => right

variable {s : Seat} {n : Node}

theorem lead_eq (s : Seat) :
    s.lead = s.before.flatMap Node.pieces ++ (s.left.flatMap Node.items).map (⟨·, s.host⟩) := by
  cases s <;> simp [before, left]

theorem pieces_child (h : n.isText) : (s.child n).pieces =
    (s.left.flatMap Node.items).map (⟨·, s.host⟩) ++ s.seated [n] ++
      (s.right.flatMap Node.items).map (⟨·, s.host⟩) := by
  cases s with
  | bare => simp [child, left, right, seated, pieces_of_isText h]
  | held => simp [child, left, right, seated, Node.pieces]

theorem total_child (h : n.isText) : Piece.total ((s.before ++ [s.child n]).flatMap Node.pieces) =
    Piece.total s.lead + n.charCount +
      Piece.total ((s.right.flatMap Node.items).map (⟨·, s.host⟩)) := by
  rw [List.flatMap_append, List.flatMap_singleton, pieces_child h, s.lead_eq]
  simp [seated, Node.total_items, Nat.add_assoc]

end Seat

namespace Draft

theorem mem_sharedStyles_iff {ns : List Node} : tag ∈ sharedStyles ns ↔
    (∀ n ∈ ns, n.isText = false) ∧ (∀ n ∈ ns, ∀ s, n.kind = .wrapper s → tag ∈ s) ∧
      ∃ n ∈ ns, n.isWrapper := by
  have hstyles (s : StyleSet) :
      s ∈ ns.filterMap (·.kind.styles?) ↔ ∃ n ∈ ns, n.kind = .wrapper s := by
    rw [List.mem_filterMap]
    refine exists_congr fun n => and_congr_right fun _ => ?_
    cases n.kind <;> simp [Kind.styles?]
  have hwrapper : (∃ n ∈ ns, n.isWrapper) ↔ ∃ s, s ∈ ns.filterMap (·.kind.styles?) := by
    simp only [hstyles, Node.isWrapper]
    constructor
    case mp =>
      rintro ⟨n, hn, hw⟩
      cases hk : n.kind <;> simp_all [Kind.isWrapper]
      exact ⟨_, n, hn, hk⟩
    case mpr =>
      rintro ⟨s, n, hn, hk⟩
      exact ⟨n, hn, by simp [hk, Kind.isWrapper]⟩
  have hall : (∀ n ∈ ns, ∀ s, n.kind = .wrapper s → tag ∈ s) ↔
      ∀ s ∈ ns.filterMap (·.kind.styles?), tag ∈ s := by
    simp only [hstyles]
    refine ⟨fun h s hs => ?_, fun h n hn s hk => h s ⟨n, hn, hk⟩⟩
    obtain ⟨n, hn, hk⟩ := hs
    exact h n hn s hk
  rw [hwrapper, hall, sharedStyles]
  cases ht : ns.any Node.isText
  case true =>
    obtain ⟨n, hn, ht⟩ := List.any_eq_true.mp ht
    refine iff_of_false (by simp) fun h => ?_
    simp [h.left n hn] at ht
  case false =>
    rw [and_iff_right (by simpa using ht)]
    cases ns.filterMap (·.kind.styles?) with
    | nil => simp
    | cons s ss =>
      simp only [StyleSet.mem_foldl_inter, List.forall_mem_cons, Bool.false_eq_true, if_false]
      exact (and_iff_left ⟨s, .head _⟩).symm

variable {d : Draft} {xs xs' ys ys' : List Node} {x x' : Node} {left right : Nat}

section Ends

variable {s : Seat} {n : Node} {p : Position} (h : d.At s n) (hp : p.node = n.id)

include h hp

theorem sharedFrom_eq : d.sharedFrom p =
    if s.right = [] ∧ n.charCount ≤ p.offset then d.next? (s.child n).id
    else some (s.child n).id := by
  cases s with
  | bare =>
    simp [sharedFrom, hp, h.holder?_bare, h.textLength, Node.length_items h.isText, Seat.right,
      Seat.child]
  | held =>
    simp [sharedFrom, hp, h.holder?_held, h.childrenAround_held, h.textLength,
      Node.length_items h.isText, Seat.right, Seat.child]
    exact if_congr .rfl rfl rfl

theorem sharedTo_eq : d.sharedTo p =
    if s.left = [] ∧ p.offset = 0 then d.prev? (s.child n).id else some (s.child n).id := by
  cases s with
  | bare => simp [sharedTo, hp, h.holder?_bare, Seat.left, Seat.child]
  | held =>
    simp [sharedTo, hp, h.holder?_held, h.childrenAround_held, Seat.left, Seat.child]
    exact if_congr .rfl rfl rfl

end Ends

structure Opens (d : Draft) (left : Nat) (xs : List Node) (x : Node) (ys : List Node) : Prop where
  content : d.content = xs ++ x :: ys
  le : Piece.total (xs.flatMap Node.pieces) ≤ left
  lt : left < Piece.total ((xs ++ [x]).flatMap Node.pieces)

structure Closes (d : Draft) (right : Nat) (xs : List Node) (x : Node) (ys : List Node) : Prop where
  content : d.content = xs ++ x :: ys
  lt : Piece.total (xs.flatMap Node.pieces) < right
  le : right ≤ Piece.total ((xs ++ [x]).flatMap Node.pieces)

structure Overlaps (d : Draft) (left right : Nat) (n : Node) : Prop where
  exists_offset : ∃ as bs o, d.content = as ++ n :: bs ∧ left ≤ o ∧ o < right ∧
    Piece.total (as.flatMap Node.pieces) ≤ o ∧ o < Piece.total ((as ++ [n]).flatMap Node.pieces)

end Draft

namespace FlatBlock

variable {t : Tree} {block : NodeId} {b n : Node} {s : Seat} {d : Draft} {p : Position}

theorem total_pos_of_lt (h : FlatBlock t block b)
    (hc : b.children.flatMap Node.pieces = ps ++ qs ++ rs) (hq : qs ≠ [])
    (hlt : Piece.total ps < Piece.total (b.children.flatMap Node.pieces)) :
    0 < Piece.total qs := by
  cases rs with
  | nil =>
    rw [hc, List.append_nil, Piece.total_append] at hlt
    omega
  | cons r rs => exact h.total_pos hc hq nofun

theorem right_ne_nil (h : FlatBlock t block b) (hc : b.children = s.plug [n]) (hr : s.right ≠ []) :
    (s.right.flatMap Node.items).map (Piece.mk · s.host) ≠ [] := by
  cases s with
  | bare => contradiction
  | held before i styles left right after =>
    cases right with
    | nil => contradiction
    | cons x xs =>
      have hx : b.children = (Seat.held before i styles (left ++ [n]) xs after).plug [x] := by
        simp [hc]
      simp [Seat.right, h.items_ne_nil hx]

theorem left_ne_nil (h : FlatBlock t block b) (hc : b.children = s.plug [n]) (hl : s.left ≠ []) :
    (s.left.flatMap Node.items).map (Piece.mk · s.host) ≠ [] := by
  cases s with
  | bare => contradiction
  | held before i styles left right after =>
    cases left with
    | nil => contradiction
    | cons x xs =>
      have hx : b.children = (Seat.held before i styles [] (xs ++ n :: right) after).plug [x] := by
        simp [hc]
      simp [Seat.left, h.items_ne_nil hx]

theorem pieces_eq (hc : b.children = s.plug [n]) (ht : n.isText) : b.children.flatMap Node.pieces =
    s.before.flatMap Node.pieces ++ (s.left.flatMap Node.items).map (⟨·, s.host⟩) ++
      s.seated [n] ++ (s.right.flatMap Node.items).map (⟨·, s.host⟩) ++
        s.after.flatMap Node.pieces := by
  simp [hc, s.plug_eq, Seat.pieces_child ht]

theorem opens_of_le (h : FlatBlock t block b) (hd : d.content = b.children)
    (hc : b.children = xs ++ x :: ys) (hl : Piece.total (xs.flatMap Node.pieces) = left)
    (hlt : left < Piece.total (b.children.flatMap Node.pieces)) : d.Opens left xs x ys where
  content := hd.trans hc
  le := Nat.le_of_eq hl
  lt := by
    have hp : b.children.flatMap Node.pieces =
        xs.flatMap Node.pieces ++ x.pieces ++ ys.flatMap Node.pieces := by simp [hc]
    have := h.total_pos_of_lt hp (h.canonical.canonical.pieces_ne_nil (by simp [hc])) (hl ▸ hlt)
    rw [List.flatMap_append, Piece.total_append, List.flatMap_singleton]
    omega

theorem closes_of_le (h : FlatBlock t block b) (hd : d.content = b.children)
    (hc : b.children = xs ++ x :: ys) (hy : ys ≠ [])
    (hl : Piece.total ((xs ++ [x]).flatMap Node.pieces) = right) : d.Closes right xs x ys where
  content := hd.trans hc
  le := Nat.le_of_eq hl.symm
  lt := by
    have hp : b.children.flatMap Node.pieces =
        xs.flatMap Node.pieces ++ x.pieces ++ ys.flatMap Node.pieces := by simp [hc]
    have hys : ys.flatMap Node.pieces ≠ [] := fun hr => hy (h.after_eq_nil hc hr)
    have := h.total_pos hp (h.canonical.canonical.pieces_ne_nil (by simp [hc])) hys
    rw [List.flatMap_append, Piece.total_append, List.flatMap_singleton] at hl
    omega

section Ends

variable (h : FlatBlock t block b) (hd : d.content = b.children) (ha : d.At s n)
  (hp : p.node = n.id) (hk : p.offset ≤ n.charCount)

include h hd ha hp hk

theorem opens (hlt : Piece.total s.lead + p.offset < Piece.total (b.children.flatMap Node.pieces)) :
    ∃ xs x ys, d.sharedFrom p = some x.id ∧ d.Opens (Piece.total s.lead + p.offset) xs x ys := by
  have hc : d.content = s.before ++ s.child n :: s.after := ha.content.trans (s.plug_eq n)
  have hl := s.total_child ha.isText
  rw [Draft.sharedFrom_eq ha hp]
  split
  case isTrue hr =>
    simp only [hr.left, List.flatMap_nil, List.map_nil, Piece.total_nil, Nat.add_zero] at hl
    have hn := d.next?_of_content ha.sound.nodup_content hc
    cases ha' : s.after with
    | nil =>
      rw [← hd, hc, ha', hl] at hlt
      omega
    | cons y ys =>
      rw [ha'] at hn hc
      have hc : b.children = s.before ++ [s.child n] ++ y :: ys := by simp [← hd, hc]
      exact ⟨_, y, ys, hn, h.opens_of_le hd hc (by omega) hlt⟩
  case isFalse hr =>
    refine ⟨s.before, s.child n, s.after, rfl, hc, ?_, ?_⟩
    case refine_1 =>
      rw [s.lead_eq, Piece.total_append]
      omega
    case refine_2 =>
      rw [hl]
      by_cases hlt' : p.offset < n.charCount
      case pos => omega
      case neg =>
        have hr : s.right ≠ [] := fun e => hr ⟨e, by omega⟩
        have hcb : b.children = s.plug [n] := hd.symm.trans ha.content
        have hlead : Piece.total (s.before.flatMap Node.pieces ++
            (s.left.flatMap Node.items).map (⟨·, s.host⟩) ++ s.seated [n]) =
              Piece.total s.lead + p.offset := by
          rw [← s.lead_eq, Piece.total_append, Seat.seated, List.flatMap_singleton,
            Node.total_items]
          omega
        have := h.total_pos_of_lt (pieces_eq hcb ha.isText) (h.right_ne_nil hcb hr)
          (hlead.symm ▸ hlt)
        omega

theorem closes (hpos : 0 < Piece.total s.lead + p.offset) :
    ∃ xs x ys, d.sharedTo p = some x.id ∧ d.Closes (Piece.total s.lead + p.offset) xs x ys := by
  have hc : d.content = s.before ++ s.child n :: s.after := ha.content.trans (s.plug_eq n)
  rw [Draft.sharedTo_eq ha hp]
  split
  case isTrue hl =>
    have hlead := s.lead_eq
    simp only [hl.left, List.flatMap_nil, List.map_nil, List.append_nil] at hlead
    have hn := d.prev?_of_content ha.sound.nodup_content hc
    obtain hb | ⟨xs, x, hb⟩ := s.before.eq_nil_or_concat'
    case inl => simp [hlead, hb, hl.right] at hpos
    case inr =>
      have hcb : b.children = xs ++ x :: s.child n :: s.after := by simp [← hd, hc, hb]
      refine ⟨xs, x, _, by simpa [hb] using hn, h.closes_of_le hd hcb nofun ?_⟩
      rw [hlead, hb, hl.right, Nat.add_zero]
  case isFalse hl =>
    refine ⟨s.before, s.child n, s.after, rfl, hc, ?_, ?_⟩
    case refine_1 =>
      have hlead := congrArg Piece.total s.lead_eq
      rw [Piece.total_append] at hlead
      cases Nat.eq_zero_or_pos p.offset
      case inr => omega
      case inl e =>
        have hcb : b.children = s.plug [n] := hd.symm.trans ha.content
        have hps := pieces_eq hcb ha.isText
        rw [List.append_assoc, List.append_assoc] at hps
        have hs : s.seated [n] ≠ [] := by simpa [Seat.seated] using h.items_ne_nil hcb
        have := h.total_pos hps (h.left_ne_nil hcb fun e' => hl ⟨e', e⟩) (by simp [hs])
        omega
    case refine_2 =>
      rw [s.total_child ha.isText]
      omega

end Ends

theorem overlaps (h : FlatBlock t block b) (hd : d.content = b.children)
    (ho : d.Opens left xs x ys) (hc : d.Closes right xs' x' ys') (hlt : left < right) :
    ∃ zs, d.content = xs ++ zs ++ ys' ∧ zs.head?.map Node.id = some x.id ∧
      zs.getLast?.map Node.id = some x'.id ∧
      right ≤ Piece.total ((xs ++ zs).flatMap Node.pieces) ∧
      ∀ z ∈ zs, d.Overlaps left right z := by
  have hle := ho.le
  have hlt' := ho.lt
  have hle' := hc.le
  have first : d.Overlaps left right x := ⟨xs, ys, left, ho.content, Nat.le_refl _, hlt, hle, hlt'⟩
  obtain ⟨rfl, rfl, rfl⟩ | ⟨cs, rfl, rfl⟩ | ⟨cs, rfl, rfl⟩ :=
    append_cons_cases (ho.content.symm.trans hc.content)
  case inl => exact ⟨[x], by simp [ho.content], rfl, rfl, hle', by simpa using first⟩
  case inr.inl =>
    have hlt'' := hc.lt
    simp only [List.flatMap_append, List.flatMap_cons, List.flatMap_nil, List.append_nil,
      Piece.total_append] at hlt' hle' hlt''
    have last : d.Overlaps left right x' := by
      refine ⟨xs ++ x :: cs, ys', Piece.total ((xs ++ x :: cs).flatMap Node.pieces), ?_⟩
      simp [hc.content]
      omega
    have hlast : (x :: cs ++ [x']).getLast?.map Node.id = some x'.id := by
      rw [List.getLast?_concat]
      rfl
    refine ⟨x :: cs ++ [x'], by simp [hc.content], rfl, hlast, by simp; omega, ?_⟩
    intro z hz
    rw [List.mem_append, List.mem_cons, List.mem_singleton] at hz
    obtain (e | hz) | e := hz
    case inl.inl => exact e ▸ first
    case inr => exact e ▸ last
    case inl.inr =>
      obtain ⟨as, bs, rfl⟩ := List.append_of_mem hz
      have hcb : b.children = xs ++ x :: as ++ z :: (bs ++ x' :: ys') := by simp [← hd, hc.content]
      have hz := (h.closes_of_le hd hcb (by simp) rfl).lt
      refine ⟨xs ++ x :: as, bs ++ x' :: ys', Piece.total ((xs ++ x :: as).flatMap Node.pieces), ?_⟩
      simp at hz hlt''
      simp [hc.content]
      omega
  case inr.inr =>
    -- The last child comes before the first one, so there is nothing between.
    simp only [List.flatMap_append, List.flatMap_cons, List.flatMap_nil, List.append_nil,
      Piece.total_append] at hle hle'
    omega

theorem exists_piece_of_overlaps (hd : d.content = b.children) (ho : d.Overlaps left right n) :
    ∃ o p, left ≤ o ∧ o < right ∧ itemAt? Piece.width (b.children.flatMap Node.pieces) o = some p ∧
      p ∈ n.pieces := by
  have ⟨as, bs, o, hn, hle, hlt, has, hlt'⟩ := ho.exists_offset
  have hps : b.children.flatMap Node.pieces =
      as.flatMap Node.pieces ++ n.pieces ++ bs.flatMap Node.pieces := by simp [← hd, hn]
  rw [List.flatMap_append, List.flatMap_singleton] at hlt'
  have hlt'' : o < Piece.total (b.children.flatMap Node.pieces) := by
    rw [hps, Piece.total_append]
    omega
  have ⟨p, hp⟩ := Option.isSome_iff_exists.mp (Piece.itemAt?_isSome_of_lt_total hlt'')
  exact ⟨o, p, hle, hlt, hp, Piece.mem_of_itemAt?_mid (hps ▸ hp) has hlt'⟩

theorem style_of_overlaps (hd : d.content = b.children) (ho : d.Overlaps left right n)
    (hc : Piece.Covered tag (b.children.flatMap Node.pieces) left right) :
    n.isText = false ∧ ∀ s, n.kind = .wrapper s → tag ∈ s := by
  have ⟨o, p, hle, hlt, hp, hm⟩ := exists_piece_of_overlaps hd ho
  have hc := hc o hle hlt p hp
  rw [Node.isStyleable_of_mem_pieces hm, Node.host_of_mem_pieces hm] at hc
  constructor
  case left =>
    rw [Bool.eq_false_iff]
    intro ht
    have ⟨s, hk⟩ := Node.isText_iff.mp ht
    simp [Node.isStyleable, ht, hk, Kind.styles?] at hc
  case right =>
    intro s hk
    simpa [Node.isStyleable, Node.isWrapper, hk, Kind.isWrapper, Kind.styles?] using hc

theorem mem_shared (h : FlatBlock t block b) (hd : d.content = b.children) (hs : d.Sound)
    {e : Endpoints} {s s' : Seat} {m : Node} (hp : Tree.Perch b e.start s n)
    (hq : Tree.Perch b e.stop s' m)
    (hc : Piece.Covered tag (b.children.flatMap Node.pieces) (Piece.total s.lead + e.start.offset)
      (Piece.total s'.lead + e.stop.offset))
    (ho : ∃ o, Piece.total s.lead + e.start.offset ≤ o ∧ o < Piece.total s'.lead + e.stop.offset ∧
      (itemAt? Piece.width (b.children.flatMap Node.pieces) o).any Piece.isStyleable) :
    tag ∈ d.shared e := by
  have ⟨o, hle, hlt, ho⟩ := ho
  have ⟨p, hpo, hps⟩ := (Option.any_eq_true ..).mp ho
  have hlt' := Piece.lt_total_of_itemAt? hpo
  have ⟨xs, x, ys, hfrom, hopen⟩ := h.opens hd ⟨hs, hd.trans hp.children, hp.isText⟩ hp.node hp.le
    (by omega)
  have ⟨xs', x', ys', hto, hclose⟩ := h.closes hd ⟨hs, hd.trans hq.children, hq.isText⟩ hq.node hq.le
    (by omega)
  have ⟨zs, hz, hx, hx', hr, hover⟩ := h.overlaps hd hopen hclose (by omega)
  have hseg : Node.segment x.id x'.id d.content = (xs, zs, ys') :=
    hz ▸ Node.segment_of_ends (hz ▸ hs.nodup_content) hx hx'
  have hany : zs.any (·.id = x'.id) := by
    have ⟨y, hy, e⟩ := Option.map_eq_some_iff.mp hx'
    exact List.any_eq_true.mpr ⟨y, List.mem_of_getLast? hy, by simp [e]⟩
  simp only [Draft.shared, hfrom, hto, hseg, hany, if_true]
  refine Draft.mem_sharedStyles_iff.mpr ⟨?noText, ?style, ?wrapper⟩
  case noText => exact fun z hz => (style_of_overlaps hd (hover z hz) hc).left
  case style => exact fun z hz => (style_of_overlaps hd (hover z hz) hc).right
  case wrapper =>
    have hb : b.children.flatMap Node.pieces =
        xs.flatMap Node.pieces ++ zs.flatMap Node.pieces ++ ys'.flatMap Node.pieces := by
      simp [← hd, hz]
    have hxs := hopen.le
    rw [List.flatMap_append] at hr
    rw [hb] at hpo
    have hpz := Piece.mem_of_itemAt?_mid hpo (by omega) (by omega)
    have ⟨z, hz, hpz⟩ := List.mem_flatMap.mp hpz
    rw [Node.isStyleable_of_mem_pieces hpz, Node.isStyleable,
      (style_of_overlaps hd (hover z hz) hc).left, Bool.false_or] at hps
    exact ⟨z, hz, hps⟩

end FlatBlock

end RichText
