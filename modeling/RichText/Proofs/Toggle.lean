import RichText.Restyle
import RichText.Proofs.Outline
import RichText.Proofs.Rebuild
import RichText.Proofs.Resolve
import RichText.Proofs.Shared

namespace RichText

theorem itemAt?_map {width : β → Nat} {f : α → β} (as : List α) (o : Nat) :
    itemAt? width (as.map f) o = (itemAt? (width ∘ f) as o).map f := by
  induction as generalizing o with
  | nil => rfl
  | cons a as ih =>
    simp only [List.map_cons, itemAt?, Function.comp_apply]
    split
    case isTrue => rfl
    case isFalse => exact ih _

namespace Piece

variable {ps qs : List Piece} {tag : String}

@[simp]
theorem item_addStyle (tag : String) (p : Piece) : (p.addStyle tag).item = p.item := by
  rw [addStyle]
  split <;> rfl

@[simp]
theorem isStyleable_addStyle (tag : String) (p : Piece) :
    (p.addStyle tag).isStyleable = p.isStyleable := by
  have ⟨item, host⟩ := p
  cases item with
  | char => rfl
  | node n => cases host <;> rfl

theorem isStyleable_of_isChar {p : Piece} (h : p.isChar) : p.isStyleable := by
  have ⟨item, host⟩ := p
  cases item with
  | char => rfl
  | node => contradiction

theorem map_item_addStyle (ps qs rs : List Piece) (tag : String) :
    (ps ++ qs.map (addStyle tag) ++ rs).map item = (ps ++ qs ++ rs).map item := by
  simp [Function.comp_def]

theorem host_addStyle {p : Piece} (h : p.isStyleable) :
    (p.addStyle tag).host = some ((p.host.getD ∅).insert tag) := by
  rw [addStyle, if_pos h]

theorem width_eq (p : Piece) : p.width = (Piece.mk p.item none).width := by
  rw [← length_bareGlyphs, ← length_bareGlyphs]
  rfl

theorem any_isChar_of_item (h : ps.map item = qs.map item) (o : Nat) :
    (itemAt? width ps o).any isChar = (itemAt? width qs o).any isChar := by
  have hw : width = (fun i => (Piece.mk i none).width) ∘ item := funext width_eq
  have hc (p : Piece) : p.isChar = (Piece.mk p.item none).isChar := rfl
  have e : (itemAt? width ps o).map item = (itemAt? width qs o).map item := by
    rw [hw, ← itemAt?_map, ← itemAt?_map, h]
  have he (rs : List Piece) : (itemAt? width rs o).any isChar =
      ((itemAt? width rs o).map item).any fun i => (Piece.mk i none).isChar := by
    rw [Option.any_map]
    rfl
  rw [he, he, e]

theorem forall_node?_of_item {q : Node → Prop} (e : ps.map item = qs.map item)
    (h : ∀ p ∈ qs, ∀ n ∈ p.node?, q n) : ∀ p ∈ ps, ∀ n ∈ p.node?, q n := by
  intro p hp n hn
  have ⟨p', hp', e⟩ := List.mem_map.mp (e ▸ List.mem_map_of_mem hp)
  exact h p' hp' n (by rwa [node?, e])

theorem Steady.of_item (h : Steady ps) (e : ps.map item = qs.map item) : Steady qs where
  embed := forall_node?_of_item e.symm h.embed
  trailing := by
    have e := congrArg List.dropLast e
    rw [← List.map_dropLast, ← List.map_dropLast] at e
    exact forall_node?_of_item e.symm h.trailing

theorem covered_addStyle (ps qs rs : List Piece) (tag : String) :
    Covered tag (ps ++ qs.map (addStyle tag) ++ rs) (total ps) (total (ps ++ qs)) := by
  intro o hle hlt p hp hs
  have hlt : o < total (ps ++ qs.map (addStyle tag)) := by
    rw [total_append, total_map_addStyle]
    rwa [total_append] at hlt
  have hm := mem_of_itemAt?_mid hp hle hlt
  have ⟨q, _, e⟩ := List.mem_map.mp hm
  subst e
  rw [isStyleable_addStyle] at hs
  exact ⟨_, host_addStyle hs, by simp⟩

theorem Covered.mono (h : Covered tag ps left right) (hr : right' ≤ right) :
    Covered tag ps left right' :=
  fun o hle hlt => h o hle (Nat.lt_of_lt_of_le hlt hr)

end Piece

namespace Canonical

theorem IsFlat.of_isAtomic {ns : List Node} (hc : IsCanonical ns)
    (ha : ∀ p ∈ ns.flatMap Node.pieces, ∀ n ∈ p.node?, n.kind.isAtomic) : IsFlat ns where
  canonical := hc
  child n hn := by
    cases ht : n.isText
    case true => exact .inl rfl
    case false =>
      cases hw : n.isWrapper
      case true => exact .inr (.inr rfl)
      case false =>
        refine .inr (.inl (ha ⟨.node n, none⟩ (List.mem_flatMap.mpr ⟨n, hn, ?_⟩) n rfl))
        simp [Node.pieces_of_not_isWrapper hw, Node.items_of_not_isText ht]
  inside w hw hk n hn := by
    cases ht : n.isText
    case true => exact .inl rfl
    case false =>
      have ⟨i, k, cs⟩ := w
      cases k <;> try contradiction
      case wrapper s =>
        refine .inr (ha ⟨.node n, some s⟩ (List.mem_flatMap.mpr ⟨_, hw, ?_⟩) n rfl)
        rw [Node.pieces_wrapper rfl]
        exact List.mem_map.mpr ⟨.node n, List.mem_flatMap.mpr ⟨n, hn, by
          simp [Node.items_of_not_isText ht]⟩, rfl⟩

theorem IsCanonical.host_ne_empty {ns : List Node} (h : IsCanonical ns)
    (hp : p ∈ ns.flatMap Node.pieces) : p.host ≠ some ∅ := by
  have ⟨n, hn, hp⟩ := List.mem_flatMap.mp hp
  have hs := h.styled n hn
  have ⟨i, k, cs⟩ := n
  rw [Node.host_of_mem_pieces hp]
  cases k <;> simp_all [Kind.styles?]

end Canonical

namespace Piece

theorem host_addStyle_ne_empty (h : p.host ≠ some ∅) (tag : String) :
    (addStyle tag p).host ≠ some ∅ := by
  cases hs : p.isStyleable
  case false => rwa [addStyle, if_neg (by simp [hs])]
  case true =>
    rw [host_addStyle hs]
    intro e
    have e := Option.some.inj e
    have hm : tag ∈ (p.host.getD ∅).insert tag := by simp
    simp [e] at hm

end Piece

namespace Seat

variable {s : Seat} {n : Node}

theorem any_isChar_plug (ht : n.isText) (hk : k < n.charCount) :
    (itemAt? Piece.width ((s.plug [n]).flatMap Node.pieces) (Piece.total s.lead + k)).any
      Piece.isChar := by
  have hl : Piece.total (s.lead ++ s.seated [n]) = Piece.total s.lead + n.charCount := by
    simp [seated, Node.total_items]
  have hlt : Piece.total s.lead + k < Piece.total (s.lead ++ s.seated [n] ++ s.rest) := by
    rw [Piece.total_append _ s.rest]
    omega
  rw [pieces_plug_of_solid (Node.solid_iff.mpr (.inl ht))]
  obtain ⟨p, hp⟩ := Option.isSome_iff_exists.mp (Piece.itemAt?_isSome_of_lt_total hlt)
  have hm := Piece.mem_of_itemAt?_mid hp (by omega) (by omega)
  obtain ⟨text, hk⟩ := Node.isText_iff.mp ht
  rw [seated, List.flatMap_singleton, Node.items_text hk, List.map_map] at hm
  obtain ⟨c, _, e⟩ := List.mem_map.mp hm
  rw [hp, ← e]
  rfl

end Seat

namespace Node

theorem exists_of_itemAt?_flatMap {f : Node → List Piece} {ns : List Node}
    (h : itemAt? Piece.width (ns.flatMap f) o = some p) :
    ∃ as a bs, ns = as ++ a :: bs ∧ Piece.total (as.flatMap f) ≤ o ∧
      itemAt? Piece.width (f a) (o - Piece.total (as.flatMap f)) = some p := by
  induction ns generalizing o with
  | nil => contradiction
  | cons n ns ih =>
    rw [List.flatMap_cons, itemAt?_append, ← Piece.total_eq_sum] at h
    split at h
    case isTrue => exact ⟨[], n, ns, rfl, Nat.zero_le _, h⟩
    case isFalse hlt =>
      have ⟨as, a, bs, e, hle, h⟩ := ih h
      refine ⟨n :: as, a, bs, by rw [e]; rfl, ?_, ?_⟩
      · rw [List.flatMap_cons, Piece.total_append]
        omega
      · rwa [List.flatMap_cons, Piece.total_append, ← Nat.sub_sub]

theorem isText_of_isChar {n : Node} {p : Piece} {host : Option StyleSet} (hp : p ∈ n.items.map (⟨·, host⟩))
    (hc : p.isChar) : n.isText := by
  rw [← Bool.not_eq_false]
  intro ht
  rw [Node.items_of_not_isText ht, List.map_singleton, List.mem_singleton] at hp
  simp [hp, Piece.isChar, Piece.node?] at hc

theorem exists_seat_of_isChar {ns : List Node}
    (h : (itemAt? Piece.width (ns.flatMap Node.pieces) o).any Piece.isChar) :
    ∃ s n, ns = Seat.plug s [n] ∧ n.isText ∧ Piece.total s.lead ≤ o ∧
      o < Piece.total s.lead + n.charCount := by
  have ⟨p, hp, hc⟩ := (Option.any_eq_true ..).mp h
  have ⟨as, a, bs, e, hle, hp⟩ := exists_of_itemAt?_flatMap hp
  cases hw : a.isWrapper
  case false =>
    rw [Node.pieces_of_not_isWrapper hw] at hp
    have hlt := Piece.lt_total_of_itemAt? hp
    rw [Node.total_items] at hlt
    refine ⟨.bare as bs, a, by simpa using e, isText_of_isChar (mem_of_itemAt? hp) hc, hle, ?_⟩
    rw [Seat.lead_bare]
    omega
  case true =>
    have ⟨i, k, cs⟩ := a
    cases k <;> try contradiction
    case wrapper styles =>
      rw [Node.pieces_wrapper rfl, Node.children_mk, List.map_flatMap] at hp
      have ⟨left, m, right, e', hle', hp⟩ := exists_of_itemAt?_flatMap hp
      have hlt := Piece.lt_total_of_itemAt? hp
      rw [Node.total_items] at hlt
      have hl : Piece.total (Seat.held as i styles left right bs).lead =
          Piece.total (as.flatMap Node.pieces) +
            Piece.total (left.flatMap fun m => m.items.map (⟨·, some styles⟩)) := by
        rw [Seat.lead_held, List.map_flatMap, Piece.total_append]
      refine ⟨.held as i styles left right bs, m, by simp [e, e'],
        isText_of_isChar (mem_of_itemAt? hp) hc, by omega, by omega⟩

theorem exists_perch_of_char {b : Node} (ho : o' = o ∨ o' + 1 = o)
    (h : (itemAt? Piece.width (b.children.flatMap Node.pieces) o').any Piece.isChar) :
    ∃ p s n, Tree.Perch b p s n ∧ Piece.total s.lead + p.offset = o := by
  have ⟨s, n, hc, ht, hle, hlt⟩ := exists_seat_of_isChar h
  refine ⟨⟨n.id, o - Piece.total s.lead⟩, s, n, ⟨hc, ht, rfl, ?_⟩, ?_⟩
  · simp only
    omega
  · simp only
    omega

end Node

namespace FlatBlock

theorem exists_char_of_perch {b n : Node} {s : Seat} {p : Position} (h : FlatBlock t block b)
    (hp : Tree.Perch b p s n) :
    ∃ o, (o = Piece.total s.lead + p.offset ∨ o + 1 = Piece.total s.lead + p.offset) ∧
      (itemAt? Piece.width (b.children.flatMap Node.pieces) o).any Piece.isChar := by
  have hpos := Node.charCount_of_isText_pos hp.isText (h.items_ne_nil hp.children)
  have hle := hp.le
  rw [hp.children]
  by_cases hlt : p.offset < n.charCount
  case pos => exact ⟨_, .inl rfl, Seat.any_isChar_plug hp.isText hlt⟩
  case neg =>
    have hk : p.offset - 1 < n.charCount := by omega
    exact ⟨_, .inr (by omega), Seat.any_isChar_plug hp.isText hk⟩

end FlatBlock

namespace Draft

theorem Tagged.canonicalize {d d' : Draft} (h : d.Tagged d' left right tag)
    (hc : Canonical.IsCanonical d.content) :
    ∃ ps qs rs, d.content.flatMap Node.pieces = ps ++ qs ++ rs ∧
      Piece.total ps = left ∧ Piece.total (ps ++ qs) = right ∧
      (Canonical.canonicalize d'.content).kept.flatMap Node.pieces =
        ps ++ qs.map (Piece.addStyle tag) ++ rs := by
  have ⟨ps, qs, rs, hp, hl, hr, hp'⟩ := h.pieces
  have hhost : ∀ p ∈ ps ++ qs ++ rs, p.host ≠ some ∅ := fun p hm => hc.host_ne_empty (hp ▸ hm)
  have hhost' : ∀ p ∈ ps ++ qs.map (Piece.addStyle tag) ++ rs, p.host ≠ some ∅ := by
    simp only [List.mem_append, List.mem_map]
    rintro p ((hm | ⟨q, hm, rfl⟩) | hm)
    case inl.inl => exact hhost p (by simp [hm])
    case inl.inr => exact Piece.host_addStyle_ne_empty (hhost q (by simp [hm])) tag
    case inr => exact hhost p (by simp [hm])
  exact ⟨ps, qs, rs, hp, hl, hr, (Canonical.pieces_canonicalize (hp' ▸ hhost')).trans hp'⟩

end Draft

namespace Tree

variable {t t' : Tree} {block : NodeId} {b b' n m : Node} {s s' : Seat} {span r : Span}
  {left right : Nat}

-- All that lies between two offsets of a block of flat content gets a style.
structure Marked (t t' : Tree) (block : NodeId) (b : Node) (tag : String) (left right : Nat)
    (cs : List Node) : Prop extends t.Rebuilt t' block cs where
  outline : Node.outlineAll cs = Node.outlineAll b.children
  flat : Canonical.IsFlat cs
  leaves : Node.LeavesEmptyAll cs
  pieces : ∃ ps qs rs, b.children.flatMap Node.pieces = ps ++ qs ++ rs ∧
    Piece.total ps = left ∧ Piece.total (ps ++ qs) = right ∧
    cs.flatMap Node.pieces = ps ++ qs.map (Piece.addStyle tag) ++ rs

theorem marked_apply {e : Endpoints} (wf : t.WellFormed) (hb : t.node? block = some b)
    (hf : Canonical.IsFlat b.children) (hl : Node.LeavesEmptyAll b.children)
    (hc : Cover b.children e left right) (tag : String) :
    ∃ cs, t.Marked ((t.redraft block (·.apply e tag)).canonicalize block).2 block b tag left right
      cs := by
  have hch := children_of_node? hb
  have ht := Draft.tagged_apply (wf.sound hb) hch hc tag
  have ⟨ps, qs, rs, hp, hleft, hright, hp'⟩ := ht.canonicalize (hch ▸ hf.canonical)
  have hi := congrArg (List.map Piece.item) hp'
  rw [Piece.map_item_addStyle, ← hp] at hi
  rw [hch] at hp
  refine ⟨_, rebuilt_redraft wf hb ht.grows, ?outline, ?flat, ?leaves, ps, qs, rs, hp, hleft, hright,
    hp'⟩
  case outline => rw [Canonical.outline_canonicalize, ht.outline, hch]
  case leaves => exact Canonical.leavesEmptyAll_canonicalize (ht.grows.leaves (hch ▸ hl))
  case flat =>
    refine .of_isAtomic (Canonical.isCanonical_canonicalize _) (Piece.forall_node?_of_item hi ?_)
    exact fun p hp n hn => (Node.Flat.of_isFlat hf).isAtomic (hch ▸ hp) hn

-- A flat block before and after all that lies between two offsets of it gets a style.
structure Restyled (t t' : Tree) (block : NodeId) (tag : String) (left right : Nat)
    (b b' : Node) : Prop where
  before : FlatBlock t block b
  after : FlatBlock t' block b'
  pieces : ∃ ps qs rs, b.children.flatMap Node.pieces = ps ++ qs ++ rs ∧
    Piece.total ps = left ∧ Piece.total (ps ++ qs) = right ∧
    b'.children.flatMap Node.pieces = ps ++ qs.map (Piece.addStyle tag) ++ rs

namespace Restyled

variable {p : Position}

theorem any_isChar (h : Restyled t t' block tag left right b b') (o : Nat) :
    (itemAt? Piece.width (b'.children.flatMap Node.pieces) o).any Piece.isChar =
      (itemAt? Piece.width (b.children.flatMap Node.pieces) o).any Piece.isChar := by
  have ⟨ps, qs, rs, hp, _, _, hp'⟩ := h.pieces
  apply Piece.any_isChar_of_item
  rw [hp, hp', Piece.map_item_addStyle]

theorem covered (h : Restyled t t' block tag left right b b') :
    Piece.Covered tag (b'.children.flatMap Node.pieces) left right := by
  obtain ⟨ps, qs, rs, -, rfl, rfl, hp'⟩ := h.pieces
  exact hp' ▸ Piece.covered_addStyle ps qs rs tag

theorem exists_perch (h : Restyled t t' block tag left right b b') (hp : Perch b p s n) :
    ∃ p' s' n', Perch b' p' s' n' ∧
      Piece.total s'.lead + p'.offset = Piece.total s.lead + p.offset := by
  have ⟨o, ho, hc⟩ := h.before.exists_char_of_perch hp
  exact Node.exists_perch_of_char ho (h.any_isChar o ▸ hc)

end Restyled

theorem restyled (h : FlatBlock t block b) (hc : Cover b.children e left right) (tag : String) :
    ∃ b', Restyled t ((t.redraft block (·.apply e tag)).canonicalize block).2 block tag left right
      b b' := by
  have ⟨cs, hm⟩ := marked_apply h.wf h.node h.canonical h.leaves hc tag
  obtain ⟨ps, qs, rs, hp, hl, hr, hp'⟩ := hm.pieces
  have hi := Piece.map_item_addStyle ps qs rs tag
  rw [← hp, ← hp'] at hi
  exact ⟨b.withChildren cs, h, ⟨hm.wf, hm.node? h.node, h.not_isLeaf, hm.leaves, hm.flat,
    h.steady.of_item hi.symm⟩, ps, qs, rs, hp, hl, hr, hp'⟩

def isCharAt (t : Tree) (block : NodeId) (o : Nat) : Bool :=
  (itemAt? Piece.width ((t.children block).flatMap Node.pieces) o).any Piece.isChar

theorem mem_stylesIn_of_covered (h : FlatBlock t block b) {p q : Position} (hp : Perch b p s n)
    (hq : Perch b q s' m) (hl : Piece.total s.lead + p.offset = left)
    (hr : Piece.total s'.lead + q.offset = right)
    (hc : Piece.Covered tag (b.children.flatMap Node.pieces) left right) (hle : left ≤ o)
    (hlt : o < right)
    (ho : (itemAt? Piece.width (b.children.flatMap Node.pieces) o).any Piece.isStyleable)
    (hstart : t.isStartStuck block (t.resolve block left) = false)
    (hstop : t.isStopStuck block (t.resolve block right) = false) :
    ∃ styles, t.stylesIn block (t.span block left right) = .ok styles ∧ tag ∈ styles := by
  subst hl hr
  have ⟨s₁, n₁, p₁, he, hl⟩ := h.enters_resolve hp.children hp.isText hp.le hstart
  have ⟨s₂, m₂, q₂, hv, hr, hn⟩ := h.leaves_resolve hq.children hq.isText hq.le hlt ho hstop
  have hep : t.endpoints block (t.span block _ _) = _ := endpoints_of h.node he hv
  have hlt' : o < Piece.total s₂.lead + q₂.offset := by
    apply Nat.lt_of_not_le
    intro hle'
    simp [hn o hle' hlt] at ho
  have hm : tag ∈ (Draft.mk (t.children block) [] t.made).shared ⟨p₁, q₂⟩ := by
    have hch := children_of_node? h.node
    apply h.mem_shared hch (h.wf.sound h.node) he.perch hv.perch
    case hc => exact hl ▸ hc.mono hr
    case ho => exact ⟨o, hl ▸ hle, hlt', ho⟩
  exact ⟨_, by simp only [stylesIn, hep]; rfl, hm⟩

-- After a style is added to a span, a query for the span that comes back finds it there, so the
-- style is taken away when it is toggled again.
theorem mem_stylesIn_applyStyle (hf : FlatBlock t block b)
    (h : t.applyStyle block span tag = .ok (r, t')) :
    ∃ e left right, t.endpoints block span = .ok e ∧ e.offsets t block = (left, right) ∧
      ∀ o, left ≤ o → o < right → t.isCharAt block o →
        t'.isStartStuck block r.start = false → t'.isStopStuck block r.stop = false →
          (∃ styles, t'.stylesIn block r = .ok styles ∧ tag ∈ styles) ∧
            t'.toggle block r tag = t'.clear block r tag := by
  obtain ⟨⟨e, left, right⟩, hn, h⟩ := bind_eq_ok.mp ((applyStyle_eq ..).symm.trans h)
  cases h
  obtain ⟨hep, hoff, _, hc⟩ := cover_of_node hf.wf hf.node hf.not_isLeaf hn
  refine ⟨e, left, right, hep, hoff, fun o hle hlt hchar hstart hstop => ?_⟩
  obtain ⟨_, s, n, s', m, hb', hp, hq⟩ := perch_of_endpoints hep
  cases hf.node.symm.trans hb'
  rw [isCharAt, children_of_node? hf.node] at hchar
  rw [Endpoints.offsets, hp.offsetOf hf.wf hf.node hf.not_isLeaf,
    hq.offsetOf hf.wf hf.node hf.not_isLeaf, Prod.mk.injEq] at hoff
  obtain ⟨b', hr⟩ := restyled hf hc tag
  obtain ⟨p', _, _, hp', hpo⟩ := hr.exists_perch hp
  obtain ⟨q', _, _, hq', hqo⟩ := hr.exists_perch hq
  have hstyleable : (itemAt? Piece.width (b'.children.flatMap Node.pieces) o).any
      Piece.isStyleable := by
    rw [← hr.any_isChar] at hchar
    obtain ⟨p, hpo, hp⟩ := (Option.any_eq_true ..).mp hchar
    exact (Option.any_eq_true ..).mpr ⟨p, hpo, Piece.isStyleable_of_isChar hp⟩
  obtain ⟨styles, hst, hmem⟩ := mem_stylesIn_of_covered hr.after hp' hq' (hpo.trans hoff.left)
    (hqo.trans hoff.right) hr.covered hle hlt hstyleable hstart hstop
  refine ⟨⟨styles, hst, hmem⟩, if_pos ?_⟩
  rw [Tree.styles, hst]
  exact hmem

-- From within the wrapper, past the embed, into the last text.
theorem mem_stylesIn_applyStyle_mixed :
    (∃ b, FlatBlock mixed ⟨0⟩ b) ∧ mixed.isCharAt ⟨0⟩ 8 ∧
      ∃ r t' e, mixed.applyStyle ⟨0⟩ ⟨⟨⟨3⟩, 1⟩, ⟨⟨8⟩, 1⟩⟩ "i" = .ok (r, t') ∧
        mixed.endpoints ⟨0⟩ ⟨⟨⟨3⟩, 1⟩, ⟨⟨8⟩, 1⟩⟩ = .ok e ∧ e.offsets mixed ⟨0⟩ = (3, 9) ∧
        t'.isStartStuck ⟨0⟩ r.start = false ∧ t'.isStopStuck ⟨0⟩ r.stop = false ∧
        (∃ styles, t'.stylesIn ⟨0⟩ r = .ok styles ∧ "i" ∈ styles) ∧
          t'.toggle ⟨0⟩ r "i" = t'.clear ⟨0⟩ r "i" := by
  have hf : FlatBlock mixed ⟨0⟩ (.mk ⟨0⟩ (.cell "p" 0) (mixed.children ⟨0⟩)) :=
    ⟨by decide, rfl, rfl, by decide, by decide, by decide⟩
  have hc : mixed.isCharAt ⟨0⟩ 8 := by decide
  have hst : (mixed.applyStyle ⟨0⟩ ⟨⟨⟨3⟩, 1⟩, ⟨⟨8⟩, 1⟩⟩ "i").toOption.any fun (r, t') =>
      !t'.isStartStuck ⟨0⟩ r.start && !t'.isStopStuck ⟨0⟩ r.stop := by decide +kernel
  have ⟨⟨r, t'⟩, ha⟩ : ∃ p, mixed.applyStyle ⟨0⟩ ⟨⟨⟨3⟩, 1⟩, ⟨⟨8⟩, 1⟩⟩ "i" = .ok p := ⟨_, rfl⟩
  rw [ha] at hst
  have hst := Bool.and_eq_true_iff.mp hst
  simp only [Bool.not_eq_true'] at hst
  have ho : Endpoints.offsets ⟨⟨⟨3⟩, 1⟩, ⟨⟨8⟩, 1⟩⟩ mixed ⟨0⟩ = (3, 9) := by decide
  have ⟨e, left, right, hep, ho', h⟩ := mem_stylesIn_applyStyle hf ha
  cases hep
  cases ho.symm.trans ho'
  exact ⟨⟨_, hf⟩, hc, r, t', _, ha, rfl, ho, hst.left, hst.right,
    h 8 (by decide) (by decide) hc hst.left hst.right⟩

def interrupted : Tree where
  roots := [.mk ⟨0⟩ (.block "p" 0 true) [
    .mk ⟨1⟩ (.text "a") [],
    .mk ⟨2⟩ (.lineBreak true) [],
    .mk ⟨3⟩ (.text "b") []]]
  made := 4

def laden : Tree where
  roots := [.mk ⟨0⟩ (.block "p" 0 true) [
    .mk ⟨1⟩ (.text "abc") [.mk ⟨2⟩ (.text "d") []],
    .mk ⟨3⟩ (.lineBreak false) [],
    .mk ⟨4⟩ (.text "efghi") []]]
  made := 5

-- No offset leads past a trailing break, and none into a text that has children, so the span that
-- comes back does not reach the text with the style, or reaches beyond it.
theorem stylesIn_applyStyle_interrupted :
    (interrupted.WellFormed ∧ interrupted.LeavesEmpty ∧
      Canonical.IsFlat (interrupted.children ⟨0⟩) ∧ interrupted.isCharAt ⟨0⟩ 1 ∧
        ∃ r t' e, interrupted.applyStyle ⟨0⟩ ⟨⟨⟨3⟩, 0⟩, ⟨⟨3⟩, 1⟩⟩ "b" = .ok (r, t') ∧
          interrupted.endpoints ⟨0⟩ ⟨⟨⟨3⟩, 0⟩, ⟨⟨3⟩, 1⟩⟩ = .ok e ∧
          e.offsets interrupted ⟨0⟩ = (1, 2) ∧ ∃ styles, t'.stylesIn ⟨0⟩ r = .ok styles ∧
            "b" ∉ styles) ∧
    laden.WellFormed ∧ Canonical.IsFlat (laden.children ⟨0⟩) ∧
      Piece.Steady ((laden.children ⟨0⟩).flatMap Node.pieces) ∧ laden.isCharAt ⟨0⟩ 4 ∧
        ∃ r t' e, laden.applyStyle ⟨0⟩ ⟨⟨⟨4⟩, 0⟩, ⟨⟨4⟩, 2⟩⟩ "b" = .ok (r, t') ∧
          laden.endpoints ⟨0⟩ ⟨⟨⟨4⟩, 0⟩, ⟨⟨4⟩, 2⟩⟩ = .ok e ∧
          e.offsets laden ⟨0⟩ = (4, 6) ∧ ∃ styles, t'.stylesIn ⟨0⟩ r = .ok styles ∧
            "b" ∉ styles :=
  ⟨⟨by decide, by decide, by decide, by decide, _, _, _, rfl, rfl, by decide, _, rfl, by decide⟩,
    by decide, by decide, by decide, by decide, _, _, _, rfl, rfl, by decide, _, rfl, by decide⟩

end Tree

end RichText
