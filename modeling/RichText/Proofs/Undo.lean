import RichText.Proofs.Inward
import RichText.Proofs.Joined
import RichText.Proofs.RestoreSelection

namespace RichText

namespace Glyph

variable {g : Glyph}

theorem removeStyle_removeStyle (tag : String) (g : Glyph) :
    (g.removeStyle tag).removeStyle tag = g.removeStyle tag := by
  refine removeStyle_of_not_hasStyle ?_
  cases g <;> simp [removeStyle, mapStyles, hasStyle]

theorem removeStyle_addStyle_self (tag : String) (g : Glyph) :
    (g.addStyle tag).removeStyle tag = g.removeStyle tag := by
  cases g with
  | lineBreak => rfl
  | char c s =>
    have e : (s.insert tag).erase tag = s.erase tag := StyleSet.ext fun t => by
      simp only [StyleSet.mem_erase, StyleSet.mem_insert]
      grind
    simp [removeStyle, addStyle, mapStyles, e]

theorem removeStyle_addStyle (h : g.hasStyle tag = false) :
    (g.addStyle tag).removeStyle tag = g := by
  rw [removeStyle_addStyle_self, removeStyle_of_not_hasStyle h]

theorem not_hasStyle_of_within (h : (within s g).hasStyle tag = false) : g.hasStyle tag = false := by
  cases g with
  | lineBreak => rfl
  | char c own =>
    simp only [within, mapStyles, hasStyle, StyleSet.mem_union, decide_eq_false_iff_not, not_or] at h ⊢
    exact h.right

end Glyph

namespace Piece

variable {ps qs rs : List Piece} {tag : String}

@[simp]
theorem bareGlyphs_addStyle (tag : String) (p : Piece) :
    (p.addStyle tag).bareGlyphs = p.bareGlyphs := by
  simp [bareGlyphs, glyphs]

@[simp]
theorem width_addStyle (tag : String) (p : Piece) : (p.addStyle tag).width = p.width := by
  rw [width_eq, width_eq p, item_addStyle]

theorem any_isStyleable_addStyle (ps qs rs : List Piece) (tag : String) (o : Nat) :
    (itemAt? width (ps ++ qs.map (addStyle tag) ++ rs) o).any isStyleable =
      (itemAt? width (ps ++ qs ++ rs) o).any isStyleable := by
  have hw : width ∘ addStyle tag = width := funext (width_addStyle tag)
  simp only [itemAt?_append, itemAt?_map, List.map_append, List.map_map, hw]
  split <;> (try split) <;> simp [Option.any_map]

theorem not_hasStyle_bareGlyphs {o : Nat} {g : Glyph} (h : (ps.flatMap glyphs)[o]? = some g)
    (hg : g.hasStyle tag = false) :
    (ps.flatMap bareGlyphs)[o]?.any (Glyph.hasStyle tag) = false := by
  rw [getElem?_glyphs] at h
  have ⟨g', hb, h⟩ := Option.map_eq_some_iff.mp h
  subst h
  rw [hb]
  cases hi : itemAt? width ps o with
  | none => simpa [hi] using hg
  | some p =>
    simp only [hi, Option.elim_some] at hg
    exact Glyph.not_hasStyle_of_within hg

theorem bareGlyphs_map_addStyle (ps qs rs : List Piece) (tag : String) :
    (ps ++ qs.map (addStyle tag) ++ rs).flatMap bareGlyphs = (ps ++ qs ++ rs).flatMap bareGlyphs := by
  simp [List.flatMap_map]

-- A style that is new to all that is between two offsets goes again when all that can be styled there
-- is cleared.
theorem glyphs_undo {left right o : Nat} {as bs cs : List Piece}
    (e : ps ++ qs.map (addStyle tag) ++ rs = as ++ bs ++ cs)
    (ho : total as ≤ o ∧ o < total (as ++ bs) ↔ left ≤ o ∧ o < right)
    (hle : total ps ≤ left ∧ right ≤ total (ps ++ qs))
    (hl : Inert (ps ++ qs.map (addStyle tag) ++ rs) (total ps) left)
    (hr : Inert (ps ++ qs.map (addStyle tag) ++ rs) right (total (ps ++ qs)))
    (hn : ∀ g, total ps ≤ o → o < total (ps ++ qs) → ((ps ++ qs ++ rs).flatMap glyphs)[o]? = some g →
      g.hasStyle tag = false) :
    ((as ++ bs.flatMap (clearStyle tag) ++ cs).flatMap glyphs)[o]? =
      ((ps ++ qs ++ rs).flatMap glyphs)[o]? := by
  rw [glyphs_clearBetween, ← e,
    glyphs_between (total_map_addStyle tag) (glyphs_map_addStyle tag _), Option.map_map,
    any_isStyleable_addStyle, bareGlyphs_map_addStyle]
  cases hg : ((ps ++ qs ++ rs).flatMap glyphs)[o]? with
  | none => rfl
  | some g =>
    rw [Option.map_some, Function.comp_apply]
    congr 1
    cases hs : (itemAt? width (ps ++ qs ++ rs) o).any isStyleable with
    | false => simp
    | true =>
      have hs' : (itemAt? width (ps ++ qs.map (addStyle tag) ++ rs) o).any isStyleable :=
        any_isStyleable_addStyle ps qs rs tag o ▸ hs
      have hiff := ho.trans (Inert.between_iff hle hl hr hs')
      by_cases hin : total ps ≤ o ∧ o < total (ps ++ qs)
      case neg =>
        have hin' := mt hiff.mp hin
        rw [if_neg fun h => hin' ⟨h.left, h.right.left⟩, if_neg fun h => hin ⟨h.left, h.right.left⟩]
      case pos =>
        have hg' := hn g hin.left hin.right hg
        have hb := not_hasStyle_bareGlyphs hg hg'
        have hin' := hiff.mpr hin
        rw [if_pos ⟨hin'.left, hin'.right, rfl, Bool.eq_false_iff.mp hb⟩,
          if_pos ⟨hin.left, hin.right, rfl⟩, Glyph.removeStyle_addStyle hg']

end Piece

namespace Tree

variable {t t' t'' : Tree} {block : NodeId} {b n : Node} {s : Seat} {p : Position} {span r : Span}
  {left right : Nat}

section Block

variable (wf : t.WellFormed) (hb : t.node? block = some b) (hk : b.kind.isLeaf = false)
  (hn : b.Navigable)

include wf hb hk hn

theorem Perch.hasOffset (h : Perch b p s n) : t.HasOffset b (Piece.total s.lead + p.offset) where
  le := by
    have hle := h.le
    have hw : Piece.total (s.seated [n]) = n.charCount := by simp [Seat.seated, Node.total_items]
    rw [Node.charCount_of_not_isLeaf hk, ← Node.total_pieces, h.children,
      Seat.pieces_plug (by simpa using h.isText), Piece.total_append, Piece.total_append, hw]
    omega
  unenclosed := (id_of_node? hb).symm ▸ h.unenclosed wf hb hk hn

theorem Marked.footing {cs : List Node} (hm : t.Marked t' block b tag left right cs)
    (h : Perch b p s n) (ho : Piece.total s.lead + p.offset = o) :
    Footing (b.withChildren cs) (t'.resolve block o) o := by
  have hi := id_of_node? hb
  have hb' := hm.node? hb
  have hn' : (b.withChildren cs).Navigable := hn.of_outline hm.outline hm.leaves
  have ho' :=
    (h.hasOffset wf hb hk hn).of_outline wf hm.wf (hi ▸ hb) (hi ▸ hb') hk hn hn' hm.outline
  have hu := ho'.unenclosed
  rw [show (b.withChildren cs).id = block from hi, ho] at hu
  exact footing_resolve hm.wf hb' hk (.of_isFlat hm.flat) hn' hu (ho ▸ ho'.le)

end Block

theorem removeStyle_glyphs_clearStyle (wf : t.WellFormed) (hb : t.node? block = some b)
    (hl : b.kind.isLeaf = false) (hk : b.isWrapper = false)
    (h : t.clearStyle block span tag = .ok (r, t')) :
    (t'.glyphs block).map (Glyph.removeStyle tag) = (t.glyphs block).map (Glyph.removeStyle tag) := by
  refine List.ext_getElem? fun o => ?_
  rw [List.getElem?_map, List.getElem?_map]
  cases glyph_clearStyle wf hb hl hk h o with
  | inl e => rw [e]
  | inr e =>
    rw [e, Option.map_map]
    congr 1
    funext g
    exact Glyph.removeStyle_removeStyle tag g

theorem Marked.removeStyle_glyphs {cs : List Node} (hm : t.Marked t' block b tag left right cs)
    (hb : t.node? block = some b) :
    (t'.glyphs block).map (Glyph.removeStyle tag) = (t.glyphs block).map (Glyph.removeStyle tag) := by
  obtain ⟨ps, qs, rs, hp, _, _, hp'⟩ := hm.pieces
  have hq (p : Piece) :
      (p.addStyle tag).glyphs.map (Glyph.removeStyle tag) = p.glyphs.map (Glyph.removeStyle tag) := by
    rw [Piece.glyphs_addStyle, List.map_map]
    refine List.map_congr_left fun g _ => ?_
    rw [Function.comp_apply]
    split
    case isTrue => exact Glyph.removeStyle_addStyle_self tag g
    case isFalse => rfl
  rw [glyphs_of_node? hb, glyphs_of_node? (hm.node? hb), Node.children_withChildren,
    ← Node.flatMap_pieces_glyphs, ← Node.flatMap_pieces_glyphs, hp, hp']
  simp only [List.flatMap_append, List.map_append, List.flatMap_map, List.map_flatMap, hq]

theorem Marked.glyphs_clear {e : Endpoints} {cs : List Node}
    (hm : t.Marked t' block b tag left right cs) (hb : t.node? block = some b) (hs : b.kind.isSolid)
    (hl : Footing (b.withChildren cs) r.start left) (hr : Footing (b.withChildren cs) r.stop right)
    (h : t'.clearStyle block r tag = .ok (r', t'')) (he : t'.endpoints block r = .ok e)
    (hg : ∀ o g, left ≤ o → o < right → (t.glyphs block)[o]? = some g → g.hasStyle tag = false)
    (o : Nat) (hns : ¬e.Spills t' block tag o) :
    (t''.glyphs block)[o]? = (t.glyphs block)[o]? := by
  have hk := Kind.isLeaf_of_isSolid hs
  have hb' := hm.node? hb
  have ⟨⟨e', l, r⟩, hne, _⟩ := bind_eq_ok.mp ((clearStyle_eq ..).symm.trans h)
  have ⟨hep, ho, hlt, hc⟩ := cover_of_node hm.wf hb' hk hne
  cases he.symm.trans hep
  obtain ⟨_, _, ho', hle, hil, hir⟩ := inward_of_endpoints hm.wf hb' hk hm.flat hl hr hep
  cases ho.symm.trans ho'
  obtain ⟨_, _, content, l', r', h', hre, hreach, hcl⟩ :=
    cleared_clearStyle hm.wf hb' (Kind.isWrapper_of_isSolid hs) hne hc hlt tag
  cases h.symm.trans h'
  have hiff := iff_of_not_spills hm.wf hb' hreach ho hlt hns
  obtain ⟨ps, qs, rs, hp, rfl, rfl, hp'⟩ := hm.pieces
  obtain ⟨as, bs, cs', hq, rfl, rfl, hq'⟩ := hcl
  have hgl : t.glyphs block = (ps ++ qs ++ rs).flatMap Piece.glyphs := by
    rw [glyphs_of_node? hb, ← Node.flatMap_pieces_glyphs, hp]
  rw [Node.children_withChildren] at hq hil hir
  rw [hre.glyphs hb', hq', hgl]
  exact Piece.glyphs_undo (hp'.symm.trans hq) hiff hle (hp' ▸ hil) (hp' ▸ hir) (hgl ▸ hg o)

-- Clearing takes back what applying did, if nothing between the ends had the style before. What spills
-- from the single text that is cleared is all that may be different, and only by the style.
theorem runs_clearStyle_applyStyle (wf : t.WellFormed) (hb : t.node? block = some b)
    (hs : b.kind.isSolid) (hf : Canonical.IsFlat b.children) (hn : b.Navigable)
    (h : t.applyStyle block span tag = .ok (r, t')) (h' : t'.clearStyle block r tag = .ok (r', t'')) :
    ∃ e left right e', t.endpoints block span = .ok e ∧ e.offsets t block = (left, right) ∧
      t'.endpoints block r = .ok e' ∧
        (t''.glyphs block).map (Glyph.removeStyle tag) = (t.glyphs block).map (Glyph.removeStyle tag) ∧
        ((∀ o g, left ≤ o → o < right → (t.glyphs block)[o]? = some g → g.hasStyle tag = false) →
          (∀ o : Nat, ¬e'.Spills t' block tag o → (t''.glyphs block)[o]? = (t.glyphs block)[o]?) ∧
            ((∀ o, ¬e'.Spills t' block tag o) → t''.runs block = t.runs block)) := by
  have hk := Kind.isLeaf_of_isSolid hs
  have ⟨⟨e, left, right⟩, hne, h⟩ := bind_eq_ok.mp ((applyStyle_eq ..).symm.trans h)
  cases h
  have ⟨hep, ho, _, hc⟩ := cover_of_node wf hb hk hne
  have ⟨cs, hm⟩ := marked_apply wf hb hf hn.leaf hc tag
  obtain ⟨_, _, _, _, _, hb', hp, hq⟩ := perch_of_endpoints hep
  cases hb.symm.trans hb'
  have ho' := ho
  rw [Endpoints.offsets, hp.offsetOf wf hb hk, hq.offsetOf wf hb hk, Prod.mk.injEq] at ho'
  have hl := hm.footing wf hb hk hn hp ho'.left
  have hr := hm.footing wf hb hk hn hq ho'.right
  obtain ⟨_, hne', _⟩ := bind_eq_ok.mp ((clearStyle_eq ..).symm.trans h')
  obtain ⟨e', hep', _⟩ := bind_eq_ok.mp hne'
  have hrm := removeStyle_glyphs_clearStyle hm.wf (hm.node? hb) hk (Kind.isWrapper_of_isSolid hs) h'
  refine ⟨e, left, right, e', hep, ho, hep', hrm.trans (hm.removeStyle_glyphs hb), fun hg => ?_⟩
  have hgl := hm.glyphs_clear hb hs hl hr h' hep' hg
  exact ⟨hgl, fun hns => runs_eq_iff.mpr (List.ext_getElem? fun o => hgl o (hns o))⟩

def flanked : Tree where
  roots := [.mk ⟨0⟩ (.block "p" 0 true) [
    .mk ⟨1⟩ (.wrapper (.single "b")) [.mk ⟨2⟩ (.text "x") []],
    .mk ⟨3⟩ (.text "ac") [],
    .mk ⟨4⟩ (.embed "math") [.mk ⟨5⟩ (.text "m") []],
    .mk ⟨6⟩ (.text "d") [],
    .mk ⟨7⟩ (.wrapper (.single "b")) [.mk ⟨8⟩ (.text "y") []]]]
  made := 9

-- In between, the texts have run together with those of the wrappers.
theorem runs_clearStyle_applyStyle_flanked :
    flanked.WellFormed ∧ Canonical.IsFlat (flanked.children ⟨0⟩) ∧
      ∃ b r t' r' t'', flanked.node? ⟨0⟩ = some b ∧ b.kind.isSolid ∧ b.Navigable ∧
        flanked.applyStyle ⟨0⟩ ⟨⟨⟨3⟩, 0⟩, ⟨⟨6⟩, 1⟩⟩ "b" = .ok (r, t') ∧
        t'.clearStyle ⟨0⟩ r "b" = .ok (r', t'') ∧ t''.runs ⟨0⟩ = flanked.runs ⟨0⟩ := by
  have wf : flanked.WellFormed := by decide
  have hf : Canonical.IsFlat (flanked.children ⟨0⟩) := by decide
  have ⟨b, hb⟩ : ∃ b, flanked.node? ⟨0⟩ = some b := ⟨_, rfl⟩
  have hs : b.kind.isSolid := by cases hb; rfl
  have hn : b.Navigable :=
    navigable_of_readable wf hb (Kind.isLeaf_of_isSolid hs) (by cases hb; decide)
  have hst : (flanked.applyStyle ⟨0⟩ ⟨⟨⟨3⟩, 0⟩, ⟨⟨6⟩, 1⟩⟩ "b").toOption.any fun (r, t') =>
      (t'.endpoints ⟨0⟩ r).toOption.all fun e => e.start.node ≠ e.stop.node := by decide +kernel
  have ⟨r, t', h, r', t'', h'⟩ : ∃ r t',
      flanked.applyStyle ⟨0⟩ ⟨⟨⟨3⟩, 0⟩, ⟨⟨6⟩, 1⟩⟩ "b" = .ok (r, t') ∧
        ∃ r' t'', t'.clearStyle ⟨0⟩ r "b" = .ok (r', t'') := ⟨_, _, rfl, _, _, rfl⟩
  have ⟨e, left, right, e', hep, ho, hep', _, hr⟩ :=
    runs_clearStyle_applyStyle wf hb hs (children_of_node? hb ▸ hf) hn h h'
  have ho' : Endpoints.offsets ⟨⟨⟨3⟩, 0⟩, ⟨⟨6⟩, 1⟩⟩ flanked ⟨0⟩ = (1, 5) := by decide
  cases hep
  cases ho'.symm.trans ho
  have hg : ∀ o : Fin 5, 1 ≤ o.val → ∀ g ∈ (flanked.glyphs ⟨0⟩)[o.val]?, g.hasStyle "b" = false := by
    decide
  have hns : e'.start.node ≠ e'.stop.node := by
    rw [h] at hst
    simpa [hep', Except.toOption] using hst
  refine ⟨wf, hf, b, r, t', r', t'', hb, hs, hn, h, h', ?_⟩
  exact (hr fun o g hle hlt hgo => hg ⟨o, hlt⟩ hle g hgo).right fun _ hs => hns hs.single

-- No offset leads past a trailing break, and none into a text that has children, so the span that
-- comes back is not the one that got the style.
theorem runs_clearStyle_applyStyle_interrupted :
    (interrupted.WellFormed ∧ Canonical.IsFlat (interrupted.children ⟨0⟩) ∧
      (∀ g ∈ interrupted.glyphs ⟨0⟩, g.hasStyle "b" = false) ∧
        ∃ r t' r' t'', interrupted.applyStyle ⟨0⟩ ⟨⟨⟨1⟩, 0⟩, ⟨⟨3⟩, 1⟩⟩ "b" = .ok (r, t') ∧
          t'.clearStyle ⟨0⟩ r "b" = .ok (r', t'') ∧ t''.runs ⟨0⟩ ≠ interrupted.runs ⟨0⟩) ∧
    laden.WellFormed ∧ Canonical.IsFlat (laden.children ⟨0⟩) ∧
      (∀ g ∈ laden.glyphs ⟨0⟩, g.hasStyle "b" = false) ∧
        ∃ r t' r' t'', laden.applyStyle ⟨0⟩ ⟨⟨⟨4⟩, 0⟩, ⟨⟨4⟩, 2⟩⟩ "b" = .ok (r, t') ∧
          t'.clearStyle ⟨0⟩ r "b" = .ok (r', t'') ∧ t''.runs ⟨0⟩ ≠ laden.runs ⟨0⟩ :=
  ⟨⟨by decide, by decide, by decide, _, _, _, _, rfl, rfl, by decide⟩,
    by decide, by decide, by decide, _, _, _, _, rfl, rfl, by decide⟩

end Tree

end RichText
