import RichText.Proofs.Undo

namespace RichText

namespace Tree

variable {t t' : Tree} {block i : NodeId} {b n : Node} {s : Seat} {p : Position} {span r : Span}
  {e : Endpoints} {cs : List Node} {o left right : Nat} {tag : String}

def Holds (t : Tree) (block : NodeId) (span : Span) : Prop :=
  t.contains block span.start.node ∧ t.contains block span.stop.node

instance : Decidable (t.Holds block span) :=
  inferInstanceAs (Decidable (_ ∧ _))

def offsetsOf (t : Tree) (block : NodeId) (span : Span) : Nat × Nat :=
  (t.offsetOf block span.start, t.offsetOf block span.stop)

section Block

variable (wf : t.WellFormed) (hb : t.node? block = some b)

include wf hb

theorem WellFormed.contains_of_mem_ids (hi : i ∈ b.ids) : t.contains block i := by
  obtain ⟨n, hn, rfl⟩ := Node.mem_ids_iff.mp hi
  exact (wf.contains_iff hb (wf.node?_of_mem_preorder hb hn)).mpr hn

theorem holds_span (hk : b.kind.isLeaf = false) (left right : Nat) :
    t.Holds block (t.span block left right) := by
  have mem (o : Nat) : t.contains block (t.resolve block o).node :=
    have ⟨_, hn, e⟩ := resolve_mem hb hk o
    wf.contains_of_mem_ids hb (Node.mem_ids_iff.mpr ⟨_, hn, e⟩)
  exact ⟨mem left, mem right⟩

theorem holds_of_endpoints (h : t.endpoints block span = .ok e) : t.Holds block span := by
  have mem {p : Position} {s : Spot} (hs : t.spot b p = .ok s) : t.contains block p.node := by
    unfold spot at hs
    split at hs
    case h_1 => contradiction
    case h_2 l hl =>
      exact wf.contains_of_mem_ids hb (Node.locate?_isSome_iff.mp (by rw [hl]; rfl))
  simp only [endpoints, hb] at h
  obtain ⟨_, hs, h⟩ := bind_eq_ok.mp h
  obtain ⟨_, ht, _⟩ := bind_eq_ok.mp h
  exact ⟨mem hs, mem ht⟩

end Block

theorem clearStyle_cases (h : t.clearStyle block span tag = .ok (r, t')) :
    ∃ e left right, t.nonemptyEndpoints block span = .ok (e, left, right) ∧
      (r = span ∧ t' = t ∨ r = t'.span block left right) := by
  have ⟨⟨e, left, right⟩, hn, h⟩ := bind_eq_ok.mp ((clearStyle_eq ..).symm.trans h)
  refine ⟨e, left, right, hn, ?_⟩
  simp only at h
  split at h
  case isFalse =>
    cases h
    exact .inr rfl
  case isTrue =>
    split at h
    case h_2 =>
      cases h
      exact .inl ⟨rfl, rfl⟩
    case h_1 =>
      split at h
      case isTrue =>
        cases h
        exact .inr rfl
      case isFalse =>
        cases h
        exact .inl ⟨rfl, rfl⟩

section Edit

variable (wf : t.WellFormed) (hb : t.node? block = some b) (hs : b.kind.isSolid)

include wf hb hs

theorem Edited.offsetsOf_span (h : t.Edited t' block b cs) (hr : b.Readable)
    (hn : t.nonemptyEndpoints block span = .ok (e, left, right)) :
    t'.offsetsOf block (t'.span block left right) = e.offsets t block := by
  have hi := id_of_node? hb
  have hk := Kind.isLeaf_of_isSolid hs
  have hv := navigable_of_readable wf hb hk hr
  have hb' := h.node? hb
  have hv' := hv.of_outline h.outline (h.leavesEmptyAll hb (hr.leavesEmpty hk))
  have ⟨hep, ho, _⟩ := cover_of_node wf hb hk hn
  obtain ⟨_, _, _, _, _, hb'', hp, hq⟩ := perch_of_endpoints hep
  cases hb.symm.trans hb''
  have leads {p s n} (hp : Perch b p s n) :
      t'.offsetOf block (t'.resolve block (t.offsetOf block p)) = t.offsetOf block p := by
    have ho := (hp.hasOffset wf hb hk hv).of_outline wf h.wf (hi ▸ hb) (hi ▸ hb') hk hv hv'
      h.outline
    rw [hp.offsetOf wf hb hk]
    exact offsetOf_resolve_of_unenclosed h.wf hb' hk hv' (hi ▸ ho.unenclosed) ho.le
  rw [Endpoints.offsets, Prod.mk.injEq] at ho
  rw [offsetsOf, Tree.span, ← ho.left, ← ho.right, leads hp, leads hq, Endpoints.offsets]

-- The span that a style was applied to or taken from comes back with both ends in the block, at the
-- offsets that its ends were moved to. A span in a single text that lacks the style comes back as it
-- is when the style is to be taken from it, and nothing is changed.
theorem anchored_restyled (span : Span) (tag : String) :
    (∀ r t', t.applyStyle block span tag = .ok (r, t') → t'.Holds block r ∧
      (b.Readable → ∃ e, t.endpoints block span = .ok e ∧
        t'.offsetsOf block r = e.offsets t block)) ∧
    ∀ r t', t.clearStyle block span tag = .ok (r, t') → t'.Holds block r ∧
      (b.Readable → t' = t ∧ r = span ∨ ∃ e, t.endpoints block span = .ok e ∧
        t'.offsetsOf block r = e.offsets t block) := by
  have hk := Kind.isLeaf_of_isSolid hs
  refine ⟨fun r t' h => ?apply, fun r t' h => ?clear⟩
  case apply =>
    have ⟨cs, he⟩ := edited_applyStyle wf hb hs h
    have ⟨⟨e, left, right⟩, hn, h⟩ := bind_eq_ok.mp ((applyStyle_eq ..).symm.trans h)
    have ⟨hep, _⟩ := cover_of_node wf hb hk hn
    cases h
    exact ⟨holds_span he.wf (he.node? hb) hk left right,
      fun hr => ⟨e, hep, he.offsetsOf_span wf hb hs hr hn⟩⟩
  case clear =>
    have ⟨cs, he⟩ := edited_clearStyle wf hb hs h
    have ⟨e, left, right, hn, hc⟩ := clearStyle_cases h
    have ⟨hep, _⟩ := cover_of_node wf hb hk hn
    obtain ⟨rfl, rfl⟩ | rfl := hc
    case inl => exact ⟨holds_of_endpoints wf hb hep, fun _ => .inl ⟨rfl, rfl⟩⟩
    case inr =>
      exact ⟨holds_span he.wf (he.node? hb) hk left right,
        fun hr => .inr ⟨e, hep, he.offsetsOf_span wf hb hs hr hn⟩⟩

end Edit

theorem anchored_restyled_flanked :
    flanked.WellFormed ∧ ∃ b, flanked.node? ⟨0⟩ = some b ∧ b.kind.isSolid ∧ b.Readable ∧
      (∃ r t', flanked.applyStyle ⟨0⟩ ⟨⟨⟨3⟩, 0⟩, ⟨⟨6⟩, 1⟩⟩ "b" = .ok (r, t') ∧ t'.Holds ⟨0⟩ r ∧
        t'.offsetsOf ⟨0⟩ r = (1, 5)) ∧
      ∃ r t', flanked.clearStyle ⟨0⟩ ⟨⟨⟨1⟩, 0⟩, ⟨⟨8⟩, 1⟩⟩ "b" = .ok (r, t') ∧ t'.Holds ⟨0⟩ r ∧
        t'.offsetsOf ⟨0⟩ r = (0, 6) := by
  have wf : flanked.WellFormed := by decide
  have ⟨b, hb⟩ : ∃ b, flanked.node? ⟨0⟩ = some b := ⟨_, rfl⟩
  have hs : b.kind.isSolid := by cases hb; rfl
  have hr : b.Readable := by cases hb; decide
  refine ⟨wf, b, hb, hs, hr, ?apply, ?clear⟩
  case apply =>
    have ⟨r, t', h⟩ : ∃ r t', flanked.applyStyle ⟨0⟩ ⟨⟨⟨3⟩, 0⟩, ⟨⟨6⟩, 1⟩⟩ "b" = .ok (r, t') :=
      ⟨_, _, rfl⟩
    have ⟨hin, ho⟩ := (anchored_restyled wf hb hs _ _).left r t' h
    have ⟨e, hep, ho⟩ := ho hr
    cases hep
    exact ⟨r, t', h, hin, ho.trans (by decide)⟩
  case clear =>
    have hne : (flanked.clearStyle ⟨0⟩ ⟨⟨⟨1⟩, 0⟩, ⟨⟨8⟩, 1⟩⟩ "b").toOption.all (·.2 ≠ flanked) := by
      decide +kernel
    have ⟨r, t', h⟩ : ∃ r t', flanked.clearStyle ⟨0⟩ ⟨⟨⟨1⟩, 0⟩, ⟨⟨8⟩, 1⟩⟩ "b" = .ok (r, t') :=
      ⟨_, _, rfl⟩
    have ⟨hin, ho⟩ := (anchored_restyled wf hb hs _ _).right r t' h
    obtain ⟨e, _⟩ | ⟨e, hep, ho⟩ := ho hr
    case inl => simp [h, Except.toOption, e] at hne
    case inr =>
      cases hep
      exact ⟨r, t', h, hin, ho.trans (by decide)⟩

def overhung : Tree where
  roots := [.mk ⟨0⟩ (.block "p" 0 true) [
    .mk ⟨1⟩ (.lineBreak false) [.mk ⟨2⟩ (.text "x") []],
    .mk ⟨3⟩ (.text "ab") []]]
  made := 4

-- What is beneath a text or a break takes no offset, but offsets lead there.
theorem anchored_restyled_laden :
    (laden.WellFormed ∧ (∀ n ∈ Node.preorderAll (laden.children ⟨0⟩),
        n.kind.isEmbed = false ∧ n.kind ≠ .lineBreak true) ∧
      ∃ r t' e, laden.applyStyle ⟨0⟩ ⟨⟨⟨4⟩, 0⟩, ⟨⟨4⟩, 2⟩⟩ "b" = .ok (r, t') ∧ t' ≠ laden ∧
        laden.endpoints ⟨0⟩ ⟨⟨⟨4⟩, 0⟩, ⟨⟨4⟩, 2⟩⟩ = .ok e ∧
        t'.offsetsOf ⟨0⟩ r ≠ e.offsets laden ⟨0⟩) ∧
    overhung.WellFormed ∧ (∀ n ∈ Node.preorderAll (overhung.children ⟨0⟩),
        n.kind.isEmbed = false ∧ n.kind ≠ .lineBreak true) ∧
      ∃ r t' e, overhung.applyStyle ⟨0⟩ ⟨⟨⟨3⟩, 0⟩, ⟨⟨3⟩, 2⟩⟩ "b" = .ok (r, t') ∧ t' ≠ overhung ∧
        overhung.endpoints ⟨0⟩ ⟨⟨⟨3⟩, 0⟩, ⟨⟨3⟩, 2⟩⟩ = .ok e ∧
        t'.offsetsOf ⟨0⟩ r ≠ e.offsets overhung ⟨0⟩ :=
  ⟨⟨by decide, by decide, _, _, _, rfl, by decide, rfl, by decide⟩,
    by decide, by decide, _, _, _, rfl, by decide, rfl, by decide⟩

end Tree

end RichText
