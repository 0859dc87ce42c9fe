import RichText.Proofs.Clear
import RichText.Proofs.Landing

namespace RichText

def StyleSet.host? (s : StyleSet) : Option StyleSet :=
  if s = ∅ then none else some s

@[simp]
theorem StyleSet.getD_host? (s : StyleSet) : s.host?.getD ∅ = s := by
  rw [host?]
  split
  case isTrue h => exact h.symm
  case isFalse => rfl

theorem StyleSet.host?_ne_empty (s : StyleSet) : s.host? ≠ some ∅ := by
  rw [host?]
  split
  case isTrue => simp
  case isFalse h => simpa using h

namespace Piece

variable {ps qs : List Piece} {p : Piece} {tag : String}

-- Takes a style from a piece, and the wrapper around it if no style is left.
def eraseStyle (tag : String) (p : Piece) : Piece :=
  { p with host := p.host.bind fun s => (s.erase tag).host? }

@[simp]
theorem item_eraseStyle (tag : String) (p : Piece) : (p.eraseStyle tag).item = p.item :=
  rfl

theorem host_eraseStyle_ne_empty (tag : String) (p : Piece) : (p.eraseStyle tag).host ≠ some ∅ := by
  cases hh : p.host <;> simp [eraseStyle, hh, StyleSet.host?_ne_empty]

theorem total_map_of_item {f : Piece → Piece} (h : ∀ p, (f p).item = p.item) (ps : List Piece) :
    total (ps.map f) = total ps := by
  rw [total_eq_sum, total_eq_sum, List.map_map]
  congr 2
  funext p
  rw [Function.comp_apply, width_eq (f p), width_eq p, h]

theorem clearStyle_of_isChar (hc : p.isChar) (hh : p.host ≠ some ∅) (tag : String) :
    p.clearStyle tag = [p.eraseStyle tag] := by
  have ⟨item, host⟩ := p
  cases item with
  | node n => simp [isChar, node?] at hc
  | char c =>
    cases host with
    | none => rfl
    | some s =>
      have hs : s ≠ ∅ := by simpa using hh
      by_cases hm : tag ∈ s
      case neg =>
        simp [clearStyle, eraseStyle, hm, StyleSet.erase_of_not_mem hm, StyleSet.host?, hs]
      case pos =>
        by_cases he : s.erase tag = ∅ <;>
          simp [clearStyle, eraseStyle, removeStyle, loosen, StyleSet.host?, hm, he]

namespace Simple

variable (h : Simple ps)

include h

theorem clearStyle_eq (hp : p ∈ ps) (hh : p.host ≠ some ∅) (tag : String) :
    p.clearStyle tag = [p.eraseStyle tag] := by
  cases hc : p.isChar
  case true => exact clearStyle_of_isChar hc hh tag
  case false =>
    have hn : p.host = none := by
      by_contra hn
      exact absurd (h.char p hp (Option.isSome_iff_ne_none.mpr hn)) (by simp [hc])
    have ⟨item, host⟩ := p
    subst hn
    rfl

theorem glyphs_addStyle (tag : String) (hp : p ∈ ps) : (p.addStyle tag).glyphs =
    p.glyphs.map fun g => if p.isChar then g.addStyle tag else g := by
  rw [Piece.glyphs_addStyle, h.isStyleable hp]

theorem glyphs_eraseStyle (tag : String) (hp : p ∈ ps) : (p.eraseStyle tag).glyphs =
    p.glyphs.map fun g => if p.isChar then g.removeStyle tag else g := by
  have hc := h.char p hp
  have ⟨item, host⟩ := p
  cases item with
  | char c =>
    cases host with
    | none => rfl
    | some s => simp [glyphs, eraseStyle, isChar, node?, Glyph.removeStyle, Glyph.mapStyles]
  | node n =>
    cases host with
    | none => simp [glyphs, eraseStyle, isChar, node?]
    | some s => simp [isChar, node?] at hc

end Simple

-- A change of pieces that changes the styles of chars as one of glyphs does, and nothing else.
structure Models (f : Piece → Piece) (u : Glyph → Glyph) (ps : List Piece) : Prop where
  item : ∀ p, (f p).item = p.item
  char : ∀ p ∈ ps, (f p).host.isSome → p.isChar
  glyphs : ∀ p ∈ ps, (f p).glyphs = p.glyphs.map fun g => if p.isChar then u g else g

theorem Models.isChar_eq {f : Piece → Piece} (h : Models f u ps) (p : Piece) :
    (f p).isChar = p.isChar := by
  simp [isChar, node?, h.item]

theorem Simple.models_addStyle (h : Simple ps) (tag : String) :
    Models (addStyle tag) (Glyph.addStyle tag) ps where
  item := item_addStyle tag
  char p hp hh := by
    cases hs : p.isStyleable
    case true => exact h.isStyleable hp ▸ hs
    case false => exact h.char p hp (by simpa [addStyle, hs] using hh)
  glyphs _ := h.glyphs_addStyle tag

theorem Simple.models_eraseStyle (h : Simple ps) (tag : String) :
    Models (eraseStyle tag) (Glyph.removeStyle tag) ps where
  item := item_eraseStyle tag
  char p hp hh := h.char p hp (by cases hs : p.host <;> simp_all [eraseStyle])
  glyphs _ := h.glyphs_eraseStyle tag

end Piece

namespace Tree

variable {t t' : Tree} {block : NodeId} {b : Node} {u : Glyph → Glyph} {start stop : Nat}
  {cs : List Node}

-- The glyphs of a block, changed where they stand for chars between two offsets that no embed holds.
def glyphsWith (t : Tree) (block : NodeId) (start stop : Nat) (u : Glyph → Glyph) : List Glyph :=
  (t.glyphs block).mapIdx fun o g =>
    if start ≤ o ∧ o < stop ∧ t.isCharAt block o then u g else g

-- A block of simple content gets other content of that kind, in which the chars between two offsets
-- are changed.
structure Recast (t t' : Tree) (block : NodeId) (b : Node) (start stop : Nat) (u : Glyph → Glyph)
    (cs : List Node) : Prop where
  rebuilt : t.Rebuilt t' block cs
  after : SimpleBlock t' block (b.withChildren cs)
  glyphs : t'.glyphs block = t.glyphsWith block start stop u

namespace Recast

variable {f : Piece → Piece} {as bs rs : List Piece}

theorem of_pieces (h : SimpleBlock t block b) (hr : t.Rebuilt t' block cs)
    (hc : Canonical.IsCanonical cs) (hl : Node.LeavesEmptyAll cs)
    (hm : Piece.Models f u (b.children.flatMap Node.pieces))
    (hp : b.children.flatMap Node.pieces = as ++ bs ++ rs)
    (hp' : cs.flatMap Node.pieces = as ++ bs.map f ++ rs)
    (hiff : ∀ o, (itemAt? Piece.width (b.children.flatMap Node.pieces) o).any Piece.isChar →
      (start ≤ o ∧ o < stop ↔ Piece.total as ≤ o ∧ o < Piece.total (as ++ bs))) :
    Recast t t' block b start stop u cs where
  rebuilt := hr
  after := {
    wf := hr.wf
    node := hr.node? h.node
    not_isLeaf := h.not_isLeaf
    not_isWrapper := h.not_isWrapper
    leaves := hl
    simple := by
      refine .of_pieces hc (h.simple.simple_pieces.of_item ?item fun q hq hh => ?char)
      case item => simp [hp, hp', Function.comp_def, hm.item]
      case char =>
        rw [Node.children_withChildren, hp'] at hq
        simp only [List.mem_append, List.mem_map] at hq
        obtain (hq | ⟨p, hq, rfl⟩) | hq := hq
        case inl.inl => exact h.simple.simple_pieces.char q (by simp [hp, hq]) hh
        case inl.inr => exact hm.isChar_eq p ▸ hm.char p (by simp [hp, hq]) hh
        case inr => exact h.simple.simple_pieces.char q (by simp [hp, hq]) hh
  }
  glyphs := by
    apply List.ext_getElem?
    intro o
    have hm' : Piece.Models f u (as ++ bs ++ rs) := hp ▸ hm
    have hg := Piece.glyphs_between (Piece.total_map_of_item hm.item) (Piece.glyphs_map hm'.glyphs) o
    rw [glyphs_of_node? (hr.node? h.node), Node.children_withChildren,
      ← Node.flatMap_pieces_glyphs, hp', hg, ← hp, Node.flatMap_pieces_glyphs, glyphsWith,
      List.getElem?_mapIdx, glyphs_of_node? h.node]
    congr 1
    funext g
    refine if_congr ?_ rfl rfl
    rw [isCharAt, children_of_node? h.node, ← and_assoc, ← and_assoc]
    exact and_congr_left fun ho => (hiff o ho).symm

theorem of_charless (h : SimpleBlock t block b)
    (hm : Piece.Models f u (b.children.flatMap Node.pieces))
    (hc : Piece.Charless (b.children.flatMap Node.pieces) start stop) :
    Recast t t block b start stop u b.children := by
  have hp : b.children.flatMap Node.pieces = b.children.flatMap Node.pieces ++ [] ++ [] := by simp
  refine of_pieces h (.refl h.wf h.node) h.simple.canonical h.leaves hm hp (by simp) fun o ho => ?_
  simp only [List.append_nil]
  refine iff_of_false (fun ⟨hs, hu⟩ => ?_) (by omega)
  simp [hc o hs hu] at ho

end Recast

end Tree

namespace SimpleBlock

variable {t : Tree} {block : NodeId} {b : Node} {start stop : Nat}

theorem left_right_eq_nil {s : Seat} (h : SimpleBlock t block b) (hc : b.children = s.plug [n]) :
    s.left = [] ∧ s.right = [] := by
  cases s with
  | bare => exact ⟨rfl, rfl⟩
  | held before i styles left right after =>
    have hl := (h.simple.inside (.mk i (.wrapper styles) (left ++ n :: right)) (by simp [hc]) rfl).left
    simp only [Node.children_mk, List.length_append, List.length_cons] at hl
    have hl : left.length = 0 ∧ right.length = 0 := by omega
    exact hl.imp List.eq_nil_of_length_eq_zero List.eq_nil_of_length_eq_zero

theorem total_lead {s : Seat} (h : SimpleBlock t block b) (hc : b.children = s.plug [n])
    (ht : n.isText) : Piece.total s.lead = Piece.total (s.before.flatMap Node.pieces) ∧
      (s.child n).charCount = n.charCount := by
  have ⟨hl, hr⟩ := h.left_right_eq_nil hc
  have hlead := congrArg Piece.total s.lead_eq
  have hchild := Seat.total_child (s := s) ht
  simp only [hl, hr, List.flatMap_nil, List.map_nil, List.append_nil, Piece.total_nil,
    List.flatMap_append, List.flatMap_singleton, Piece.total_append, Node.total_pieces_self]
    at hlead hchild
  omega

theorem eq_of_reach {e : Endpoints} (h : SimpleBlock t block b)
    (hr : Draft.Reach b.children e tag left right l r) : l = left ∧ r = right := by
  cases hr with
  | exact => exact ⟨rfl, rfl⟩
  | @within s n _ _ children isText _ _ _ eqLeft eqRight le leLeft edge rightLe le' edge' =>
    have ⟨hlead, hchild⟩ := h.total_lead children isText
    simp only [List.flatMap_append, List.flatMap_singleton, Piece.total_append,
      Node.total_pieces_self] at le'
    omega

section Restyle

variable (h : SimpleBlock t block b) (he : t.embedBelow? block block = none)
  (hs : t.Free block start) (hu : t.Free block stop)

include h he hs hu

theorem nonemptyEndpoints_cases :
    (∃ e left right, t.nonemptyEndpoints block (t.span block start stop) = .ok (e, left, right) ∧
      left < right ∧ Cover b.children e left right ∧ Narrows b e start stop left right) ∨
    (∃ error, t.nonemptyEndpoints block (t.span block start stop) = .error error) ∧
      Piece.Charless (b.children.flatMap Node.pieces) start stop := by
  obtain ⟨e, left, right, hep, hn⟩ | ⟨⟨error, hep⟩, hc⟩ := h.endpoints_cases he hs hu
  case inr => exact .inr ⟨⟨error, by simp [Tree.nonemptyEndpoints, hep, bind, Except.bind]⟩, hc⟩
  case inl =>
    obtain ⟨_, _, hp, hl, _⟩ := hn.atStart
    obtain ⟨_, _, hq, hr, _⟩ := hn.atStop
    have ho : e.offsets t block = (left, right) := by
      rw [Endpoints.offsets, hp.offsetOf h.wf h.node h.not_isLeaf,
        hq.offsetOf h.wf h.node h.not_isLeaf, hl, hr]
    by_cases hlt : left < right
    case pos =>
      refine .inl ⟨e, left, right, ?_, hlt, hl ▸ hr ▸ hp.cover hq (by omega), hn⟩
      simp [Tree.nonemptyEndpoints, hep, ho, hlt, bind, Except.bind]
      rfl
    case neg =>
      refine .inr ⟨⟨.invalidSpan .empty, ?_⟩, fun o hs hu => ?_⟩
      case refine_1 =>
        simp [Tree.nonemptyEndpoints, hep, ho, hlt, bind, Except.bind]
        rfl
      case refine_2 =>
        cases hc : (itemAt? Piece.width (b.children.flatMap Node.pieces) o).any Piece.isChar
        case false => rfl
        case true =>
          obtain ⟨hl, hr⟩ := (hn.iff_of_isChar o hc).mp ⟨hs, hu⟩
          omega

theorem recast_apply (tag : String) :
    ∃ cs, Tree.Recast t (t.apply block (t.span block start stop) tag).2 block b start stop
      (Glyph.addStyle tag) cs := by
  have hm := h.simple.simple_pieces.models_addStyle tag
  obtain ⟨e, left, right, hn, hlt, hc, hw⟩ | ⟨⟨error, hn⟩, hc⟩ := h.nonemptyEndpoints_cases he hs hu
  case inr =>
    simp only [Tree.apply_eq, Tree.applyStyle_eq, hn, bind, Except.bind]
    exact ⟨_, .of_charless h hm hc⟩
  case inl =>
    have hch := Tree.children_of_node? h.node
    have ht := Draft.tagged_apply (h.wf.sound h.node) hch hc tag
    have ⟨as, bs, rs, hp, hl, hr, hp'⟩ := ht.canonicalize (hch ▸ h.simple.canonical)
    simp only [Tree.apply_eq, Tree.applyStyle_eq, hn, bind, Except.bind]
    refine ⟨_, .of_pieces h (Tree.rebuilt_redraft h.wf h.node ht.grows)
      (Canonical.isCanonical_canonicalize _)
      (Canonical.leavesEmptyAll_canonicalize (ht.grows.leaves (hch ▸ h.leaves))) hm (hch ▸ hp) hp' ?_⟩
    exact hr ▸ hl ▸ hw.iff_of_isChar

theorem recast_clear (tag : String) :
    ∃ cs, Tree.Recast t (t.clear block (t.span block start stop) tag).2 block b start stop
      (Glyph.removeStyle tag) cs := by
  have hsp := h.simple.simple_pieces
  have hm := hsp.models_eraseStyle tag
  obtain ⟨e, left, right, hn, hlt, hc, hw⟩ | ⟨⟨error, hn⟩, hc⟩ := h.nonemptyEndpoints_cases he hs hu
  case inr =>
    simp only [Tree.clear_eq, Tree.clearStyle_eq, hn, bind, Except.bind]
    exact ⟨_, .of_charless h hm hc⟩
  case inl =>
    obtain ⟨r, t', content, l, r', hok, hre, hreach, hcl⟩ :=
      Tree.cleared_clearStyle h.wf h.node h.not_isWrapper hn hc hlt tag
    obtain ⟨rfl, rfl⟩ := h.eq_of_reach hreach
    obtain ⟨as, bs, rs, hp, hl, hr, hp'⟩ := hcl
    have hiff := hr ▸ hl ▸ hw.iff_of_isChar
    rw [Tree.clear_eq, hok]
    have hbs : bs.flatMap (Piece.clearStyle tag) = bs.map (Piece.eraseStyle tag) := by
      rw [List.map_eq_flatMap]
      refine List.flatMap_congr fun p hb => ?_
      have hb : p ∈ b.children.flatMap Node.pieces := by simp [hp, hb]
      exact hsp.clearStyle_eq hb (h.simple.canonical.host_ne_empty hb) tag
    rw [hbs] at hp'
    obtain hre' | ⟨rfl, rfl⟩ := hre.cases
    case inr => exact ⟨_, .of_pieces h (.refl h.wf h.node) h.simple.canonical h.leaves hm hp hp' hiff⟩
    case inl =>
      have hh : ∀ p ∈ content.flatMap Node.pieces, p.host ≠ some ∅ := by
        intro p hc
        rw [hp'] at hc
        simp only [List.mem_append, List.mem_map] at hc
        obtain (hc | ⟨p, -, rfl⟩) | hc := hc
        case inl.inl => exact h.simple.canonical.host_ne_empty (by simp [hp, hc])
        case inl.inr => exact Piece.host_eraseStyle_ne_empty tag p
        case inr => exact h.simple.canonical.host_ne_empty (by simp [hp, hc])
      exact ⟨_, .of_pieces h hre' (Canonical.isCanonical_canonicalize _)
        (Canonical.leavesEmptyAll_canonicalize (hre.leaves h.leaves)) hm hp
        ((Canonical.pieces_canonicalize hh).trans hp') hiff⟩

-- Adding a style between two offsets changes just the chars between them that no embed holds, and so
-- does taking a style away. The block stays one of simple content. If there is such a char, neither
-- is refused.
theorem glyphs_restyle (tag : String) :
    let span := t.span block start stop
    let added := (t.apply block span tag).2
    let cleared := (t.clear block span tag).2
    (∃ cs, SimpleBlock added block (b.withChildren cs)) ∧
      added.glyphs block = t.glyphsWith block start stop (Glyph.addStyle tag) ∧
      (∃ cs, SimpleBlock cleared block (b.withChildren cs)) ∧
      cleared.glyphs block = t.glyphsWith block start stop (Glyph.removeStyle tag) ∧
      ((∃ o, start ≤ o ∧ o < stop ∧ t.isCharAt block o) →
        (∃ r, t.applyStyle block span tag = .ok r) ∧ ∃ r, t.clearStyle block span tag = .ok r) := by
  obtain ⟨_, ha⟩ := h.recast_apply he hs hu tag
  obtain ⟨_, hc⟩ := h.recast_clear he hs hu tag
  refine ⟨⟨_, ha.after⟩, ha.glyphs, ⟨_, hc.after⟩, hc.glyphs, fun ⟨o, hs', hu', ho⟩ => ?_⟩
  rw [Tree.isCharAt, Tree.children_of_node? h.node] at ho
  obtain ⟨e, left, right, hn, hlt, hc, -⟩ | ⟨-, hc⟩ := h.nonemptyEndpoints_cases he hs hu
  case inr => simp [hc o hs' hu'] at ho
  case inl =>
    obtain ⟨_, _, _, _, _, hok, _⟩ :=
      Tree.cleared_clearStyle h.wf h.node h.not_isWrapper hn hc hlt tag
    refine ⟨?_, _, hok⟩
    simp only [Tree.applyStyle_eq, hn, bind, Except.bind]
    exact ⟨_, rfl⟩

end Restyle

end SimpleBlock

def Node.marked : Node :=
  .mk ⟨0⟩ (.cell "td" 0) [
    .mk ⟨1⟩ (.text "ab") [],
    .mk ⟨2⟩ (.lineBreak false) [],
    .mk ⟨3⟩ (.embed "math") [.mk ⟨4⟩ (.text "xy") []],
    .mk ⟨5⟩ (.wrapper (.single "b")) [.mk ⟨6⟩ (.text "cd") []],
    .mk ⟨7⟩ (.lineBreak true) []]

-- A cell with a bare text, a wrapper, and between them a break and an embed.
def Tree.marked : Tree where
  roots := [.marked]
  made := 8

theorem SimpleBlock.marked : SimpleBlock .marked ⟨0⟩ .marked where
  wf := by decide
  node := rfl
  not_isLeaf := rfl
  not_isWrapper := rfl
  leaves := by decide
  simple := by decide

-- From within the bare text into the wrapper.
theorem SimpleBlock.glyphs_restyle_marked :
    let span := Tree.marked.span ⟨0⟩ 1 6
    let added := (Tree.marked.apply ⟨0⟩ span "i").2
    let cleared := (Tree.marked.clear ⟨0⟩ span "i").2
    SimpleBlock .marked ⟨0⟩ .marked ∧ Tree.marked.embedBelow? ⟨0⟩ ⟨0⟩ = none ∧
      Tree.marked.Free ⟨0⟩ 1 ∧ Tree.marked.Free ⟨0⟩ 6 ∧ Tree.marked.isCharAt ⟨0⟩ 1 ∧
      (∃ cs, SimpleBlock added ⟨0⟩ (Node.marked.withChildren cs)) ∧
      added.glyphs ⟨0⟩ = Tree.marked.glyphsWith ⟨0⟩ 1 6 (Glyph.addStyle "i") ∧
      (∃ cs, SimpleBlock cleared ⟨0⟩ (Node.marked.withChildren cs)) ∧
      cleared.glyphs ⟨0⟩ = Tree.marked.glyphsWith ⟨0⟩ 1 6 (Glyph.removeStyle "i") ∧
      (∃ r, Tree.marked.applyStyle ⟨0⟩ span "i" = .ok r) ∧
      ∃ r, Tree.marked.clearStyle ⟨0⟩ span "i" = .ok r := by
  have he : Tree.marked.embedBelow? ⟨0⟩ ⟨0⟩ = none := by decide
  have hs : Tree.marked.Free ⟨0⟩ 1 := by decide
  have hu : Tree.marked.Free ⟨0⟩ 6 := by decide
  have hc : Tree.marked.isCharAt ⟨0⟩ 1 := by decide
  have ⟨ha, hg, hc', hg', hok⟩ := SimpleBlock.glyphs_restyle .marked he hs hu "i"
  exact ⟨.marked, he, hs, hu, hc, ha, hg, hc', hg', hok ⟨1, by decide, by decide, hc⟩⟩

end RichText
