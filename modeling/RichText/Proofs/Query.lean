import RichText.Proofs.Exact

namespace RichText

namespace Draft

variable {d : Draft} {e : Endpoints} {xs ys zs fs ls : List Node}

theorem shared_eq_empty (hd : (Node.idsAll d.content).Nodup) (hc : d.content = xs ++ ys)
    (hf : d.sharedFrom e.start = fs.head?.map Node.id) (hfs : fs ⊆ ys)
    (hl : d.sharedTo e.stop = ls.getLast?.map Node.id) (hls : ls ⊆ xs) : d.shared e = ∅ := by
  rw [shared]
  cases hfrom : d.sharedFrom e.start with
  | none => rfl
  | some first =>
    cases hto : d.sharedTo e.stop with
    | none => rfl
    | some last =>
      obtain ⟨n, hn, hf⟩ := Option.map_eq_some_iff.mp (hf.symm.trans hfrom)
      obtain ⟨m, hm, hl⟩ := Option.map_eq_some_iff.mp (hl.symm.trans hto)
      have hm := hls (List.mem_of_getLast? hm)
      obtain ⟨as, bs, e⟩ := List.append_of_mem (hfs (List.mem_of_head? hn))
      have hc' : d.content = xs ++ as ++ n :: bs := by simp [hc, e]
      have hseg : Node.segment first last d.content = (xs ++ as, Node.through last (n :: bs)) := by
        have hn := Node.not_mem_of_nodup (hc' ▸ hd)
        rw [Node.segment, hc', ← hf, Node.takeWhile_id hn, Node.dropWhile_id hn]
      simp only [hseg]
      refine if_neg fun hany => ?_
      -- The last sibling is in front, and no other one has its id.
      obtain ⟨m', hm', hm''⟩ := List.any_eq_true.mp hany
      have hm' : m' ∈ n :: bs :=
        Node.through_append_eq last (n :: bs) ▸ List.mem_append_left _ hm'
      rw [hc, Node.idsAll_append] at hd
      refine (List.nodup_append.mp hd).right.right m.id (Node.id_mem_idsAll hm) m'.id ?_ ?_
      case refine_1 => exact Node.id_mem_idsAll (e ▸ List.mem_append_right _ hm')
      case refine_2 => exact hl.trans (of_decide_eq_true hm'').symm

theorem shared_eq (hd : (Node.idsAll d.content).Nodup) (hc : d.content = xs ++ zs ++ ys)
    (hf : d.sharedFrom e.start = (zs ++ ys).head?.map Node.id)
    (hl : d.sharedTo e.stop = (xs ++ zs).getLast?.map Node.id) : d.shared e = sharedStyles zs := by
  cases zs with
  | nil =>
    rw [List.append_nil] at hc hl
    exact shared_eq_empty hd hc hf (List.Subset.refl _) hl (List.Subset.refl _)
  | cons z zs =>
    have ⟨l, hlast⟩ := Option.ne_none_iff_exists'.mp
      (List.getLast?_eq_none_iff.not.mpr (List.cons_ne_nil z zs))
    rw [List.getLast?_append, hlast, Option.some_or, Option.map_some] at hl
    have hseg : Node.segment z.id l.id (xs ++ z :: zs ++ ys) = (xs, z :: zs, ys) :=
      Node.segment_of_ends (hc ▸ hd) rfl (by simp [hlast])
    have hany : (z :: zs).any (·.id = l.id) :=
      List.any_eq_true.mpr ⟨l, List.mem_of_getLast? hlast, by simp⟩
    simp only [shared, hf, hl, List.cons_append, List.head?_cons, Option.map_some, hc, hseg, hany,
      if_true]

-- A query reads some siblings that cover its offsets, and no text or wrapper beside them.
structure Reads (d : Draft) (e : Endpoints) (left right : Nat) (xs zs ys : List Node) : Prop where
  content : d.content = xs ++ zs ++ ys
  shared : d.shared e = sharedStyles zs
  le : Piece.total (xs.flatMap Node.pieces) ≤ left
  le' : right ≤ Piece.total ((xs ++ zs).flatMap Node.pieces)
  overlaps : ∀ z ∈ zs, z.isStyleable → d.Overlaps left right z

theorem Reads.exists_mem {left right o : Nat} {p : Piece} (h : d.Reads e left right xs zs ys)
    (hl : left ≤ o) (hr : o < right)
    (hp : itemAt? Piece.width (d.content.flatMap Node.pieces) o = some p) : ∃ z ∈ zs, p ∈ z.pieces := by
  have hle := h.le
  have hle' := h.le'
  rw [List.flatMap_append] at hle'
  rw [h.content, List.flatMap_append, List.flatMap_append] at hp
  exact List.mem_flatMap.mp (Piece.mem_of_itemAt?_mid hp (by omega) (by omega))

theorem Overlaps.of_charCount {z : Node} {left right o : Nat} (hc : d.content = xs ++ z :: ys)
    (hleft : left ≤ o) (hright : o < right) (hle : Piece.total (xs.flatMap Node.pieces) ≤ o)
    (hlt : o < Piece.total (xs.flatMap Node.pieces) + z.charCount) : d.Overlaps left right z := by
  refine ⟨xs, ys, o, hc, hleft, hright, hle, ?_⟩
  simpa [Node.total_pieces_self] using hlt

section Reads

variable {x y : Node} {xs' ys' : List Node} {k l start stop left right : Nat}
  (hd : (Node.idsAll d.content).Nodup) (hx : d.content = xs ++ x :: ys)
  (hy : d.content = xs' ++ y :: ys')
  (hfrom : d.sharedFrom e.start =
    (if x.charCount ≤ k then ys else x :: ys).head?.map Node.id)
  (hto : d.sharedTo e.stop = (if l = 0 then xs' else xs' ++ [y]).getLast?.map Node.id)
  (hk : k ≤ x.charCount) (hl : l ≤ y.charCount)
  (hleft : Piece.total (xs.flatMap Node.pieces) + k = left)
  (hright : Piece.total (xs'.flatMap Node.pieces) + l = right)

include hd hx hfrom hto hleft hright

include hy hk hl in
theorem reads_apart (hpos : ∀ z ∈ d.content, z.isStyleable → 0 < z.charCount)
    (hys : ys = cs ++ y :: ys') (hxs : xs' = xs ++ x :: cs) :
    ∃ xs zs ys, d.Reads e left right xs zs ys := by
  subst hys hxs
  simp only [List.flatMap_append, List.flatMap_cons, Piece.total_append, Node.total_pieces_self] at hright
  have hc : d.content = (xs ++ if x.charCount ≤ k then [x] else []) ++
      ((if x.charCount ≤ k then [] else [x]) ++ cs ++ if l = 0 then [] else [y]) ++
      ((if l = 0 then [y] else []) ++ ys') := by
    rw [hx]
    split <;> split <;> simp
  refine ⟨_, _, _, hc, shared_eq hd hc ?first ?last, ?le, ?le', fun z hz hst => ?overlaps⟩
  case first => rw [hfrom]; split <;> split <;> simp
  case last => rw [hto]; split <;> split <;> simp
  case le =>
    split <;> simp [Node.total_pieces_self] <;> omega
  case le' =>
    split <;> split <;> simp [Node.total_pieces_self] <;> omega
  case overlaps =>
    rw [List.mem_append, List.mem_append] at hz
    obtain (hz | hz) | hz := hz
    case inl.inl =>
      have ⟨hlt, e⟩ : k < x.charCount ∧ z = x := by
        split at hz <;> simp_all
      exact .of_charCount (o := left) (e ▸ hx) (by omega) (by omega) (by omega) (by rw [e]; omega)
    case inl.inr =>
      have ⟨as, bs, e⟩ := List.append_of_mem hz
      have hz := hpos z (by simp [hx, e]) hst
      have hc : d.content = (xs ++ x :: as) ++ z :: (bs ++ y :: ys') := by simp [hx, e]
      refine .of_charCount (o := Piece.total ((xs ++ x :: as).flatMap Node.pieces)) hc ?_ ?_ ?_ ?_
      all_goals
        simp only [e, List.flatMap_append, List.flatMap_cons, Piece.total_append,
          Node.total_pieces_self] at hright ⊢
        omega
    case inr =>
      have ⟨hlt, e⟩ : 0 < l ∧ z = y := by
        split at hz <;> simp_all [Nat.pos_iff_ne_zero]
      refine .of_charCount (o := right - 1) (e ▸ hy) (by omega) (by omega) ?_ ?_
      all_goals simp [Node.total_pieces_self, e]; omega

include hy hk hl in
theorem reads_or_empty (hpos : ∀ z ∈ d.content, z.isStyleable → 0 < z.charCount)
    (hlt : start < stop) (hs : k = 0 ∨ left = start) (hu : l = y.charCount ∨ right = stop) :
    (∃ xs zs ys, d.Reads e left right xs zs ys) ∨ d.shared e = ∅ ∧ right ≤ left := by
  obtain ⟨rfl, rfl, rfl⟩ | ⟨cs, hys, hxs⟩ | ⟨cs, hys, hxs⟩ := append_cons_cases (hx.symm.trans hy)
  case inl =>
    by_cases hkl : k < x.charCount ∧ 0 < l
    case pos =>
      have hc : d.content = xs ++ [x] ++ ys := by simp [hx]
      refine .inl ⟨xs, [x], ys, hc, ?_, by omega, ?_, fun z hz _ => ?_⟩
      case refine_1 =>
        refine shared_eq hd hc ?_ ?_
        · rw [hfrom, if_neg (by omega)]
          rfl
        · rw [hto, if_neg (by omega)]
      case refine_2 =>
        simp [Node.total_pieces_self]
        omega
      case refine_3 =>
        rw [List.mem_singleton.mp hz]
        exact .of_charCount (o := left) hx (by omega) (by omega) (by omega) (by omega)
    case neg =>
      refine .inr ⟨?_, by omega⟩
      by_cases hk : x.charCount ≤ k
      case pos =>
        rw [if_pos hk] at hfrom
        have hc : d.content = xs ++ [x] ++ ys := by simp [hx]
        refine shared_eq_empty hd hc hfrom (List.Subset.refl _) hto ?_
        split <;> simp
      case neg =>
        rw [if_pos (show l = 0 by omega)] at hto
        refine shared_eq_empty hd hx hfrom ?_ hto (List.Subset.refl _)
        simp [hk]
  case inr.inl =>
    exact .inl (reads_apart hd hx hy hfrom hto hk hl hleft hright hpos hys hxs)
  case inr.inr =>
    subst hys hxs
    have hc : d.content = xs' ++ [y] ++ (cs ++ x :: ys) := by simp [hx]
    refine .inr ⟨shared_eq_empty hd hc hfrom ?_ hto ?_, ?_⟩
    case refine_1 => split <;> intro <;> simp_all
    case refine_2 => split <;> simp
    case refine_3 =>
      simp only [List.flatMap_append, List.flatMap_cons, Piece.total_append,
        Node.total_pieces_self] at hleft
      omega

end Reads

end Draft

namespace SimpleBlock

variable {t : Tree} {block : NodeId} {b n m : Node} {d : Draft} {p : Position} {s s' : Seat}
  {e : Endpoints} {start stop left right : Nat}

section Query

variable (h : SimpleBlock t block b) (hd : d.content = b.children) (hs : d.Sound)

include h hd hs

section Ends

variable (hp : Tree.Perch b p s n)

include hp

theorem sharedFrom_eq : d.sharedFrom p =
    (if n.charCount ≤ p.offset then s.after else s.child n :: s.after).head?.map Node.id := by
  have ha : d.At s n := ⟨hs, hd.trans hp.children, hp.isText⟩
  rw [Draft.sharedFrom_eq ha hp.node, Draft.next?_of_content hs.nodup_content
    (ha.content.trans (s.plug_eq n))]
  simp only [(h.left_right_eq_nil hp.children).right, true_and]
  split <;> rfl

theorem sharedTo_eq : d.sharedTo p =
    (if p.offset = 0 then s.before else s.before ++ [s.child n]).getLast?.map Node.id := by
  have ha : d.At s n := ⟨hs, hd.trans hp.children, hp.isText⟩
  rw [Draft.sharedTo_eq ha hp.node, Draft.prev?_of_content hs.nodup_content
    (ha.content.trans (s.plug_eq n))]
  simp only [(h.left_right_eq_nil hp.children).left, true_and]
  split <;> simp

end Ends

theorem reads_or_empty (hn : Narrows b e start stop left right) (hlt : start < stop) :
    (∃ xs zs ys, d.Reads e left right xs zs ys) ∨ d.shared e = ∅ ∧ right ≤ left := by
  have ⟨s, n, hp, hl, hf⟩ := hn.atStart
  have ⟨s', m, hq, hr, hb⟩ := hn.atStop
  have ⟨htp, hcp⟩ := h.total_lead hp.children hp.isText
  have ⟨htq, hcq⟩ := h.total_lead hq.children hq.isText
  refine Draft.reads_or_empty hs.nodup_content (hd.trans (hp.children.trans (s.plug_eq n)))
    (hd.trans (hq.children.trans (s'.plug_eq m))) (hcp ▸ h.sharedFrom_eq hd hs hp)
    (h.sharedTo_eq hd hs hq) (hcp ▸ hp.le) (hcq ▸ hq.le) (htp ▸ hl) (htq ▸ hr)
    (fun z hz => h.simple.charCount_pos (hd ▸ hz)) hlt hf (hcq ▸ hb)

-- A query finds the styles that all chars between its offsets have, if there are chars at all.
theorem mem_shared_iff (hn : Narrows b e start stop left right) (hlt : start < stop) :
    tag ∈ d.shared e ↔
      (∃ o, left ≤ o ∧ o < right ∧
        (itemAt? Piece.width (b.children.flatMap Node.pieces) o).any Piece.isChar) ∧
      Piece.Covered tag (b.children.flatMap Node.pieces) left right := by
  obtain ⟨xs, zs, ys, hr⟩ | ⟨he, hle⟩ := h.reads_or_empty hd hs hn hlt
  case inr =>
    rw [he]
    refine iff_of_false (by simp) fun ⟨⟨o, hl, hr, _⟩, _⟩ => ?_
    omega
  case inl =>
    have isChar {o p} {z : Node} (hp : itemAt? Piece.width (b.children.flatMap Node.pieces) o = some p)
        (hm : p ∈ z.pieces) : p.isChar = z.isStyleable := by
      rw [← h.simple.simple_pieces.isStyleable (mem_of_itemAt? hp), Node.isStyleable_of_mem_pieces hm]
    rw [hr.shared, Draft.mem_sharedStyles_iff]
    constructor
    case mp =>
      intro ⟨ht, hstyle, w, hw, hk⟩
      have hst : w.isStyleable := by simp [Node.isStyleable, hk]
      obtain ⟨o, p, hl, hlt, hp, hm⟩ := FlatBlock.exists_piece_of_overlaps hd (hr.overlaps w hw hst)
      have hc : p.isChar := (isChar hp hm).trans hst
      refine ⟨⟨o, hl, hlt, by simp [hp, hc]⟩, fun o hl hlt p hp hst => ?_⟩
      obtain ⟨z, hz, hpz⟩ := hr.exists_mem hl hlt (hd ▸ hp)
      rw [Node.isStyleable_of_mem_pieces hpz, Node.isStyleable, ht z hz, Bool.false_or] at hst
      obtain ⟨s, hk⟩ : ∃ s, z.kind = .wrapper s := by
        rw [Node.isWrapper] at hst
        cases hk : z.kind <;> simp_all [Kind.isWrapper]
      exact ⟨s, by simp [Node.host_of_mem_pieces hpz, hk, Kind.styles?], hstyle z hz s hk⟩
    case mpr =>
      intro ⟨⟨o, hl, hlt, ho⟩, hc⟩
      have style (z) (hz : z ∈ zs) (hst : z.isStyleable) :=
        FlatBlock.style_of_overlaps hd (hr.overlaps z hz hst) hc
      have ht : ∀ z ∈ zs, z.isText = false := by
        intro z hz
        cases hst : z.isStyleable
        case true => exact (style z hz hst).left
        case false => exact (Bool.or_eq_false_iff.mp hst).left
      refine ⟨ht, fun z hz s hk => ?_, ?_⟩
      case refine_1 =>
        refine (style z hz ?_).right s hk
        simp [Node.isStyleable, Node.isWrapper, hk, Kind.isWrapper]
      case refine_2 =>
        obtain ⟨p, hp, hpc⟩ := (Option.any_eq_true ..).mp ho
        obtain ⟨z, hz, hpz⟩ := hr.exists_mem hl hlt (hd ▸ hp)
        rw [isChar hp hpz, Node.isStyleable, ht z hz, Bool.false_or] at hpc
        exact ⟨z, hz, hpc⟩

end Query

end SimpleBlock

namespace Piece

theorem hasStyle_getElem? {ps : List Piece} (h : itemAt? width ps o = some p) (hc : p.isChar) :
    (ps.flatMap glyphs)[o]?.any (Glyph.hasStyle tag) = p.host.any (tag ∈ ·) := by
  induction ps generalizing o with
  | nil => contradiction
  | cons q ps ih =>
    have hl : q.glyphs.length = q.width := rfl
    rw [itemAt?] at h
    rw [List.flatMap_cons, List.getElem?_append, hl]
    split at h
    case isFalse hlt => rw [if_neg hlt, ih h]
    case isTrue hlt =>
      cases h
      obtain ⟨item, host⟩ := p
      cases item with
      | node n => simp [isChar, node?] at hc
      | char c =>
        have ho : o = 0 := by simpa [width, glyphs] using hlt
        cases host <;> simp [ho, width, glyphs, Glyph.hasStyle]

end Piece

namespace Tree

variable {t : Tree} {block : NodeId} {b : Node} {start stop : Nat} {tag : String}

-- There is a char between two offsets that no embed holds, and all such chars have the style.
structure Shares (t : Tree) (block : NodeId) (start stop : Nat) (tag : String) : Prop where
  exists_char : ∃ o, start ≤ o ∧ o < stop ∧ t.isCharAt block o
  hasStyle : ∀ o, start ≤ o → o < stop → t.isCharAt block o →
    (t.glyphs block)[o]?.any (Glyph.hasStyle tag)

instance : Decidable (t.Shares block start stop tag) :=
  decidable_of_iff ((∃ o < stop, start ≤ o ∧ t.isCharAt block o) ∧
      ∀ o < stop, start ≤ o → t.isCharAt block o → (t.glyphs block)[o]?.any (Glyph.hasStyle tag))
    ⟨fun ⟨⟨o, hu, hs, ho⟩, h⟩ => ⟨⟨o, hs, hu, ho⟩, fun o hs hu => h o hu hs⟩,
      fun ⟨⟨o, hs, hu, ho⟩, h⟩ => ⟨⟨o, hu, hs, ho⟩, fun o hu hs => h o hs hu⟩⟩

end Tree

namespace SimpleBlock

variable {t : Tree} {block : NodeId} {b : Node} {start stop left right : Nat} {tag : String}

theorem covered_iff (h : SimpleBlock t block b) :
    Piece.Covered tag (b.children.flatMap Node.pieces) left right ↔
      ∀ o, left ≤ o → o < right → t.isCharAt block o →
        (t.glyphs block)[o]?.any (Glyph.hasStyle tag) := by
  have hsp := h.simple.simple_pieces
  simp only [Tree.isCharAt, Tree.children_of_node? h.node, Tree.glyphs_of_node? h.node,
    ← Node.flatMap_pieces_glyphs]
  constructor
  case mp =>
    intro hc o hl hr ho
    obtain ⟨p, hp, hpc⟩ := (Option.any_eq_true ..).mp ho
    obtain ⟨s, hs, hm⟩ := hc o hl hr p hp (hsp.isStyleable (mem_of_itemAt? hp) ▸ hpc)
    simp [Piece.hasStyle_getElem? hp hpc, hs, hm]
  case mpr =>
    intro hc o hl hr p hp hst
    rw [hsp.isStyleable (mem_of_itemAt? hp)] at hst
    have ho := hc o hl hr (by simp [hp, hst])
    rw [Piece.hasStyle_getElem? hp hst] at ho
    obtain ⟨s, hs, hm⟩ := (Option.any_eq_true ..).mp ho
    exact ⟨s, hs, by simpa using hm⟩

section Styles

variable (h : SimpleBlock t block b) (he : t.embedBelow? block block = none)
  (hs : t.Free block start) (hu : t.Free block stop) (hlt : start < stop)

include h he hs hu hlt

theorem mem_styles_iff :
    tag ∈ t.styles block (t.span block start stop) ↔ t.Shares block start stop tag := by
  have hch := Tree.children_of_node? h.node
  have hchar (o) : t.isCharAt block o =
      (itemAt? Piece.width (b.children.flatMap Node.pieces) o).any Piece.isChar := by
    rw [Tree.isCharAt, hch]
  rw [Tree.styles, Tree.stylesIn]
  obtain ⟨e, left, right, hep, hn⟩ | ⟨⟨error, hep⟩, hc⟩ := h.endpoints_cases he hs hu
  case inr =>
    simp only [hep, bind, Except.bind, Except.toOption, Option.getD_none, StyleSet.not_mem_empty,
      false_iff]
    rintro ⟨⟨o, hs, hu, ho⟩, _⟩
    rw [hchar, hc o hs hu] at ho
    contradiction
  case inl =>
    simp only [hep, bind, Except.bind, pure, Except.pure, Except.toOption, Option.getD_some]
    rw [h.mem_shared_iff hch (h.wf.sound h.node) hn hlt, h.covered_iff]
    -- The same chars lie between the offsets and between the endpoints.
    have hiff (o) (ho : t.isCharAt block o) := hn.iff_of_isChar o (hchar o ▸ ho)
    simp only [← hchar]
    constructor
    case mp =>
      rintro ⟨⟨o, hl, hr, ho⟩, hc⟩
      obtain ⟨hs, hu⟩ := (hiff o ho).mpr ⟨hl, hr⟩
      refine ⟨⟨o, hs, hu, ho⟩, fun o hs hu ho => ?_⟩
      obtain ⟨hl, hr⟩ := (hiff o ho).mp ⟨hs, hu⟩
      exact hc o hl hr ho
    case mpr =>
      rintro ⟨⟨o, hs, hu, ho⟩, hc⟩
      obtain ⟨hl, hr⟩ := (hiff o ho).mp ⟨hs, hu⟩
      refine ⟨⟨o, hl, hr, ho⟩, fun o hl hr ho => ?_⟩
      obtain ⟨hs, hu⟩ := (hiff o ho).mpr ⟨hl, hr⟩
      exact hc o hs hu ho

-- A query for two offsets finds just the styles that all chars between them have. So a toggle takes a
-- style from those chars if they all have it, and adds it to them otherwise.
theorem styles_toggle_exact :
    (∀ tag, tag ∈ t.styles block (t.span block start stop) ↔ t.Shares block start stop tag) ∧
      ∀ tag, (t.toggle block (t.span block start stop) tag).2.glyphs block =
        t.glyphsWith block start stop
          (if t.Shares block start stop tag then Glyph.removeStyle tag else Glyph.addStyle tag) := by
  refine ⟨fun tag => h.mem_styles_iff he hs hu hlt, fun tag => ?_⟩
  rw [Tree.toggle]
  by_cases hm : t.Shares block start stop tag
  case pos =>
    have ⟨_, hc⟩ := h.recast_clear he hs hu tag
    rw [if_pos ((h.mem_styles_iff he hs hu hlt).mpr hm), if_pos hm, hc.glyphs]
  case neg =>
    have ⟨_, ha⟩ := h.recast_apply he hs hu tag
    rw [if_neg fun h' => hm ((h.mem_styles_iff he hs hu hlt).mp h'), if_neg hm, ha.glyphs]

end Styles

end SimpleBlock

-- All chars in the wrapper and past it, up to the end.
theorem SimpleBlock.styles_toggle_exact_marked :
    let span := Tree.marked.span ⟨0⟩ 5 7
    SimpleBlock .marked ⟨0⟩ .marked ∧ Tree.marked.embedBelow? ⟨0⟩ ⟨0⟩ = none ∧
      Tree.marked.Free ⟨0⟩ 5 ∧ Tree.marked.Free ⟨0⟩ 7 ∧ 5 < 7 ∧
      Tree.marked.Shares ⟨0⟩ 5 7 "b" ∧ "b" ∈ Tree.marked.styles ⟨0⟩ span ∧
      (Tree.marked.toggle ⟨0⟩ span "b").2.glyphs ⟨0⟩ =
        Tree.marked.glyphsWith ⟨0⟩ 5 7 (Glyph.removeStyle "b") := by
  have he : Tree.marked.embedBelow? ⟨0⟩ ⟨0⟩ = none := by decide
  have hs : Tree.marked.Free ⟨0⟩ 5 := by decide
  have hu : Tree.marked.Free ⟨0⟩ 7 := by decide
  have hm : Tree.marked.Shares ⟨0⟩ 5 7 "b" := by decide
  have ⟨h, h'⟩ := SimpleBlock.styles_toggle_exact .marked he hs hu (by decide)
  exact ⟨.marked, he, hs, hu, by decide, hm, (h "b").mpr hm, by simpa [hm] using h' "b"⟩

end RichText
