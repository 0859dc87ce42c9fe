import RichText.Proofs.Glyph

namespace RichText

-- The element of a list that covers an offset, where every element takes some width.
def itemAt? (width : α → Nat) : List α → Nat → Option α
  | [], _ => none
  | a :: as, offset => if offset < width a then some a else itemAt? width as (offset - width a)

section ItemAt

variable {width : α → Nat}

theorem itemAt?_append (as bs : List α) (offset : Nat) :
    itemAt? width (as ++ bs) offset =
      if offset < (as.map width).sum then itemAt? width as offset
      else itemAt? width bs (offset - (as.map width).sum) := by
  induction as generalizing offset with
  | nil => simp
  | cons a as ih =>
    simp only [List.cons_append, itemAt?, List.map_cons, List.sum_cons]
    split
    case isTrue h => rw [if_pos (by omega)]
    case isFalse h =>
      rw [ih, Nat.sub_sub]
      exact if_congr (by omega) rfl rfl

theorem mem_of_itemAt? {as : List α} (h : itemAt? width as offset = some a) : a ∈ as := by
  induction as generalizing offset with
  | nil => contradiction
  | cons b as ih =>
    rw [itemAt?] at h
    split at h
    case isTrue => cases h; exact .head _
    case isFalse => exact .tail _ (ih h)

theorem itemAt?_isSome {as : List α} (h : offset < (as.map width).sum) :
    (itemAt? width as offset).isSome := by
  induction as generalizing offset with
  | nil => simp at h
  | cons a as ih =>
    rw [itemAt?]
    split
    case isTrue => rfl
    case isFalse =>
      simp only [List.map_cons, List.sum_cons] at h
      exact ih (by omega)

theorem lt_of_itemAt? {as : List α} (h : itemAt? width as offset = some a) :
    offset < (as.map width).sum := by
  induction as generalizing offset with
  | nil => contradiction
  | cons b as ih =>
    rw [itemAt?] at h
    simp only [List.map_cons, List.sum_cons]
    split at h
    case isTrue => omega
    case isFalse =>
      have := ih h
      omega

theorem itemAt?_mid {as bs : List α} (h : (as.map width).sum ≤ offset)
    (h' : offset < (as.map width).sum + width a) :
    itemAt? width (as ++ a :: bs) offset = some a := by
  rw [itemAt?_append, if_neg (by omega), itemAt?, if_pos (by omega)]

-- Where each element stands for a list as long as it is wide, changing every such list changes
-- the whole by the element that covers the place.
theorem getElem?_flatMap_of_map {parts : α → List β} {parts' : α' → List β} {f : α → α'}
    {h : α → β → β} (as : List α) (hf : ∀ a ∈ as, parts' (f a) = (parts a).map (h a))
    (offset : Nat) :
    ((as.map f).flatMap parts')[offset]? =
      (as.flatMap parts)[offset]?.map fun b =>
        (itemAt? (parts · |>.length) as offset).elim b (h · b) := by
  induction as generalizing offset with
  | nil => simp
  | cons a as ih =>
    have ha := hf a (.head _)
    simp only [List.map_cons, List.flatMap_cons, List.getElem?_append, ha, List.length_map, itemAt?]
    split
    case isTrue => simp
    case isFalse => exact ih (fun b hb => hf b (.tail _ hb)) _

end ItemAt

inductive Item where
  | char (c : Char)
  | node (n : Node)

-- The smallest parts of a block that styling treats as one: the chars of its texts, and all other
-- nodes right beneath it or beneath one of its wrappers.
structure Piece where
  item : Item
  -- The styles of the wrapper around the piece, if there is one.
  host : Option StyleSet

namespace Node

def items (n : Node) : List Item :=
  match n.kind with
  | .text s => s.toList.map .char
  | _ => [.node n]

def pieces (n : Node) : List Piece :=
  match n.kind with
  | .wrapper s => (n.children.flatMap items).map (⟨·, some s⟩)
  | _ => n.items.map (⟨·, none⟩)

def isStyleable (n : Node) : Bool :=
  n.isText || n.isWrapper

end Node

namespace Piece

def glyphs (p : Piece) : List Glyph :=
  match p.item with
  | .char c => [.char c (p.host.getD ∅)]
  | .node n => n.glyphs (p.host.getD ∅)

def width (p : Piece) : Nat :=
  p.glyphs.length

def isStyleable (p : Piece) : Bool :=
  match p.item with
  | .char _ => true
  | .node _ => p.host.isSome

def addStyle (tag : String) (p : Piece) : Piece :=
  if p.isStyleable then { p with host := some ((p.host.getD ∅).insert tag) } else p

def removeStyle (tag : String) (p : Piece) : Piece :=
  { p with host := p.host.map (·.erase tag) }

-- What becomes of a piece when the wrapper around it is taken out, as one without styles is.
def loosen (p : Piece) : List Piece :=
  if p.host = some ∅ then match p.item with
    | .char c => [⟨.char c, none⟩]
    | .node n => n.pieces
  else [p]

-- Takes a style from the wrapper around a piece, and the wrapper too if that was its only style.
def clearStyle (tag : String) (p : Piece) : List Piece :=
  if p.host.any (tag ∈ ·) then (p.removeStyle tag).loosen else [p]

def total (ps : List Piece) : Nat :=
  (ps.flatMap glyphs).length

@[simp]
theorem total_nil : total [] = 0 :=
  rfl

@[simp]
theorem total_append (ps qs : List Piece) : total (ps ++ qs) = total ps + total qs := by
  simp [total]

theorem total_eq_sum (ps : List Piece) : total ps = (ps.map width).sum :=
  List.length_flatMap

theorem lt_total_of_itemAt? {ps : List Piece} (h : itemAt? width ps o = some p) : o < total ps :=
  total_eq_sum ps ▸ lt_of_itemAt? h

theorem itemAt?_isSome_of_lt_total {ps : List Piece} (h : o < total ps) :
    (itemAt? width ps o).isSome :=
  itemAt?_isSome (total_eq_sum ps ▸ h)

theorem mem_of_itemAt?_left {ps qs : List Piece} (h : itemAt? width (ps ++ qs) o = some p)
    (hlt : o < total ps) : p ∈ ps := by
  rw [itemAt?_append, ← total_eq_sum, if_pos hlt] at h
  exact mem_of_itemAt? h

theorem mem_of_itemAt?_mid {ps qs rs : List Piece}
    (h : itemAt? width (ps ++ qs ++ rs) o = some p) (hle : total ps ≤ o)
    (hlt : o < total (ps ++ qs)) : p ∈ qs := by
  rw [itemAt?_append, ← total_eq_sum, if_pos hlt, itemAt?_append, ← total_eq_sum,
    if_neg (by omega)] at h
  exact mem_of_itemAt? h

theorem glyphs_addStyle (tag : String) (p : Piece) :
    (p.addStyle tag).glyphs =
      p.glyphs.map fun g => if p.isStyleable then g.addStyle tag else g := by
  have ⟨item, host⟩ := p
  cases item
  case char c => simp [addStyle, isStyleable, glyphs, Glyph.addStyle, Glyph.mapStyles]
  case node n =>
    cases host
    case none => simp [addStyle, isStyleable, glyphs]
    case some s => simp [addStyle, isStyleable, glyphs, Node.glyphs_insert]

theorem glyphs_map {f : Piece → Piece} {u : Glyph → Glyph} {q : Piece → Bool} {ps : List Piece}
    (hf : ∀ p ∈ ps, (f p).glyphs = p.glyphs.map fun g => if q p then u g else g) (o : Nat) :
    ((ps.map f).flatMap glyphs)[o]? = (ps.flatMap glyphs)[o]?.map fun g =>
      if (itemAt? width ps o).any q then u g else g := by
  rw [getElem?_flatMap_of_map ps hf o]
  congr 1
  funext g
  change (itemAt? width ps o).elim g _ = _
  cases itemAt? width ps o <;> simp

theorem glyphs_map_addStyle (tag : String) (ps : List Piece) (o : Nat) :
    ((ps.map (addStyle tag)).flatMap glyphs)[o]? = (ps.flatMap glyphs)[o]?.map fun g =>
      if (itemAt? width ps o).any isStyleable then g.addStyle tag else g :=
  glyphs_map (fun p _ => glyphs_addStyle tag p) o

@[simp]
theorem total_map_addStyle (tag : String) (ps : List Piece) :
    total (ps.map (addStyle tag)) = total ps := by
  rw [total_eq_sum, total_eq_sum, List.map_map]
  congr 2
  funext p
  simp [width, glyphs_addStyle]

section Between

variable {as bs cs : List Piece} {f : Piece → Piece} {u : Glyph → Glyph} {q : Nat → Prop}
  [∀ o, Decidable (q o)]

-- Where changing all pieces changes some glyphs, changing pieces in a row changes those of them that
-- lie between two offsets.
theorem glyphs_between (hf : ∀ ps, total (List.map f ps) = total ps)
    (hu : ∀ o : Nat, (((as ++ bs ++ cs).map f).flatMap glyphs)[o]? =
      ((as ++ bs ++ cs).flatMap glyphs)[o]?.map fun g => if q o then u g else g) (o : Nat) :
    ((as ++ bs.map f ++ cs).flatMap glyphs)[o]? =
      ((as ++ bs ++ cs).flatMap glyphs)[o]?.map fun g =>
        if total as ≤ o ∧ o < total (as ++ bs) ∧ q o then u g else g := by
  have hl (ps : List Piece) : (ps.flatMap glyphs).length = total ps := rfl
  by_cases h : total as ≤ o ∧ o < total (as ++ bs)
  case pos =>
    simp only [h, true_and]
    rw [← hu]
    simp only [List.map_append, List.flatMap_append, List.getElem?_append, List.length_append, hl, hf]
    rw [total_append] at h
    simp [h, show ¬o < total as by omega]
  case neg =>
    have hn (g : Glyph) :
        (if total as ≤ o ∧ o < total (as ++ bs) ∧ q o then u g else g) = g :=
      if_neg fun h' => h ⟨h'.left, h'.right.left⟩
    simp only [hn, Option.map_id']
    simp only [List.flatMap_append, List.getElem?_append, List.length_append, hl, hf]
    rw [total_append] at h
    cases Nat.lt_or_ge o (total as)
    case inl ho => simp [ho, show o < total as + total bs by omega]
    case inr ho => simp [show ¬o < total as + total bs by omega]

end Between

def bareGlyphs (p : Piece) : List Glyph :=
  { p with host := none }.glyphs

theorem glyphs_eq_bareGlyphs (p : Piece) :
    p.glyphs = p.bareGlyphs.map (Glyph.within (p.host.getD ∅)) := by
  have ⟨item, host⟩ := p
  cases item with
  | char c => simp [bareGlyphs, glyphs, Glyph.within, Glyph.mapStyles]
  | node n => exact n.glyphs_eq_within

theorem length_bareGlyphs (p : Piece) : p.bareGlyphs.length = p.width := by
  rw [width, glyphs_eq_bareGlyphs, List.length_map]

@[simp]
theorem total_map_removeStyle (tag : String) (ps : List Piece) :
    total (ps.map (removeStyle tag)) = total ps := by
  rw [total_eq_sum, total_eq_sum, List.map_map]
  congr 2
  funext p
  rw [Function.comp_apply, ← length_bareGlyphs, ← length_bareGlyphs]
  rfl

theorem within_removeStyle (p : Piece) (tag : String) (g : Glyph) :
    Glyph.within ((p.removeStyle tag).host.getD ∅) g =
      if p.isStyleable ∧ ¬g.hasStyle tag then Glyph.removeStyle tag (Glyph.within (p.host.getD ∅) g)
      else Glyph.within (p.host.getD ∅) g := by
  have ⟨item, host⟩ := p
  cases host with
  | none =>
    simp only [removeStyle, Option.map_none, Option.getD_none, Glyph.within_empty, id]
    split
    case isTrue h => rw [Glyph.removeStyle_of_not_hasStyle (by simpa using h.right)]
    case isFalse => rfl
  | some s =>
    have hs : isStyleable ⟨item, some s⟩ := by cases item <;> rfl
    simp only [hs, removeStyle, Option.map_some, Option.getD_some, Glyph.within_erase]
    cases g.hasStyle tag <;> simp

theorem getElem?_glyphs (ps : List Piece) (o : Nat) :
    (ps.flatMap glyphs)[o]? = (ps.flatMap bareGlyphs)[o]?.map fun g =>
      (itemAt? width ps o).elim g fun p => Glyph.within (p.host.getD ∅) g := by
  have hw : (fun p : Piece => p.bareGlyphs.length) = width := funext length_bareGlyphs
  rw [← hw, ← getElem?_flatMap_of_map (f := id) ps (fun p _ => p.glyphs_eq_bareGlyphs) o, List.map_id]

theorem glyphs_map_removeStyle (tag : String) (ps : List Piece) (o : Nat) :
    ((ps.map (removeStyle tag)).flatMap glyphs)[o]? = (ps.flatMap glyphs)[o]?.map fun g =>
      if (itemAt? width ps o).any isStyleable ∧
        ¬(ps.flatMap bareGlyphs)[o]?.any (Glyph.hasStyle tag) then g.removeStyle tag
      else g := by
  have hw : (fun p : Piece => p.bareGlyphs.length) = width := funext length_bareGlyphs
  have hb (p : Piece) : (p.removeStyle tag).bareGlyphs = p.bareGlyphs := rfl
  have hr := getElem?_flatMap_of_map ps
    (fun p _ => hb p ▸ (p.removeStyle tag).glyphs_eq_bareGlyphs) o
  rw [hr, hw, getElem?_glyphs, Option.map_map]
  cases (ps.flatMap bareGlyphs)[o]? with
  | none => rfl
  | some g =>
    cases itemAt? width ps o with
    | none => simp
    | some p => simp [within_removeStyle]

end Piece

namespace Node

theorem items_text (h : kind n = .text s) : n.items = s.toList.map .char := by
  simp [items, h]

theorem items_of_not_isText {n : Node} (h : n.isText = false) : n.items = [.node n] := by
  unfold items
  split
  case h_1 hk => simp [isText, Kind.isText, hk] at h
  case h_2 => rfl

theorem pieces_wrapper (h : kind n = .wrapper s) :
    n.pieces = (n.children.flatMap items).map (⟨·, some s⟩) := by
  simp [pieces, h]

theorem pieces_of_not_isWrapper {n : Node} (h : n.isWrapper = false) :
    n.pieces = n.items.map (⟨·, none⟩) := by
  unfold pieces
  split
  case h_1 hk => simp [isWrapper, Kind.isWrapper, hk] at h
  case h_2 => rfl

theorem host_of_mem_pieces {n : Node} (h : p ∈ n.pieces) : p.host = n.kind.styles? := by
  have ⟨i, k, cs⟩ := n
  cases k
  all_goals
    have ⟨_, _, e⟩ := List.mem_map.mp h
    exact e ▸ rfl

theorem items_glyphs (host : Option StyleSet) (n : Node) :
    (n.items.map (Piece.mk · host)).flatMap Piece.glyphs = n.glyphs (host.getD ∅) := by
  obtain ⟨i, k, cs⟩ := n
  cases k
  case text => simp [items, Piece.glyphs, List.flatMap_map, ← List.map_eq_flatMap]
  all_goals simp [items, Piece.glyphs]

theorem flatMap_items_glyphs (host : Option StyleSet) (ns : List Node) :
    ((ns.flatMap items).map (Piece.mk · host)).flatMap Piece.glyphs =
      glyphsAmong (host.getD ∅) ns := by
  induction ns with
  | nil => rfl
  | cons n ns ih => simp only [List.flatMap_cons, List.map_append, List.flatMap_append,
      items_glyphs, ih, glyphsAmong_cons]

theorem total_items {n : Node} (host : Option StyleSet) :
    Piece.total (n.items.map (⟨·, host⟩)) = n.charCount := by
  rw [Piece.total, items_glyphs, length_glyphs_eq_sum, charCount_eq_sum]

theorem pieces_glyphs (n : Node) : n.pieces.flatMap Piece.glyphs = n.glyphs ∅ := by
  unfold pieces
  split
  case h_1 s hk =>
    have ⟨i, k, cs⟩ := n
    cases hk
    rw [flatMap_items_glyphs]
    simp
  case h_2 => exact items_glyphs none n

theorem flatMap_pieces_glyphs (ns : List Node) :
    (ns.flatMap pieces).flatMap Piece.glyphs = glyphsAmong ∅ ns := by
  rw [List.flatMap_assoc]
  simp only [pieces_glyphs]
  rfl

theorem isStyleable_of_mem_pieces {n : Node} (h : p ∈ n.pieces) :
    p.isStyleable = n.isStyleable := by
  have ⟨i, k, cs⟩ := n
  cases k
  all_goals
    simp [pieces, items, isStyleable, isText, Kind.isText, isWrapper, Kind.isWrapper] at h ⊢
  case text => obtain ⟨c, _, rfl⟩ := h; rfl
  case wrapper => obtain ⟨item, _, rfl⟩ := h; cases item <;> rfl
  all_goals subst h; rfl

theorem sum_width_pieces (n : Node) : (n.pieces.map Piece.width).sum = n.charCount := by
  rw [← length_glyphs, ← pieces_glyphs, List.length_flatMap]
  rfl

theorem total_pieces_self (n : Node) : Piece.total n.pieces = n.charCount := by
  rw [Piece.total_eq_sum, sum_width_pieces]

theorem total_pieces (ns : List Node) :
    Piece.total (ns.flatMap pieces) = (ns.map charCount).sum := by
  induction ns with
  | nil => rfl
  | cons n ns ih =>
    rw [List.flatMap_cons, Piece.total_append, ih, Piece.total_eq_sum, sum_width_pieces,
      List.map_cons, List.sum_cons]

theorem itemAt?_pieces {ns : List Node} (h : itemAt? Piece.width (ns.flatMap pieces) o = some p) :
    ∃ n, itemAt? charCount ns o = some n ∧ p ∈ n.pieces := by
  induction ns generalizing o with
  | nil => contradiction
  | cons n ns ih =>
    rw [List.flatMap_cons, itemAt?_append, sum_width_pieces] at h
    rw [itemAt?]
    split at h
    case isTrue ho => exact ⟨n, if_pos ho, mem_of_itemAt? h⟩
    case isFalse ho => simpa [ho] using ih h

theorem any_itemAt?_pieces {ns : List Node} (h : o < Piece.total (ns.flatMap pieces)) :
    (itemAt? Piece.width (ns.flatMap pieces) o).any Piece.isStyleable =
      (itemAt? charCount ns o).any isStyleable := by
  rw [Piece.total_eq_sum] at h
  have ⟨p, hp⟩ := Option.isSome_iff_exists.mp (itemAt?_isSome h)
  have ⟨n, hn, hpn⟩ := itemAt?_pieces hp
  simp [hp, hn, isStyleable_of_mem_pieces hpn]

-- The glyphs of a child of a block without the styles that it has as a wrapper.
def bareGlyphs (n : Node) : List Glyph :=
  glyphsAmong ∅ (if n.isWrapper then n.children else [n])

theorem flatMap_pieces_bareGlyphs (ns : List Node) :
    (ns.flatMap pieces).flatMap Piece.bareGlyphs = ns.flatMap bareGlyphs := by
  rw [List.flatMap_assoc]
  refine List.flatMap_congr fun n _ => ?_
  have hb (host : Option StyleSet) (items : List Item) :
      (items.map (Piece.mk · host)).flatMap Piece.bareGlyphs =
        (items.map (Piece.mk · none)).flatMap Piece.glyphs := by
    simp [List.flatMap_map, Piece.bareGlyphs]
  cases hw : n.isWrapper
  case true =>
    have ⟨i, k, cs⟩ := n
    cases k <;> simp [isWrapper, Kind.isWrapper] at hw
    case wrapper s =>
      have := flatMap_items_glyphs none cs
      simpa [pieces, bareGlyphs, isWrapper, Kind.isWrapper, hb] using this
  case false =>
    rw [pieces_of_not_isWrapper hw, hb, items_glyphs]
    simp [bareGlyphs, hw]

end Node

namespace Piece

theorem glyphs_loosen (p : Piece) : p.loosen.flatMap glyphs = p.glyphs := by
  have ⟨item, host⟩ := p
  rw [loosen]
  split
  case isFalse => simp
  case isTrue h =>
    subst h
    cases item with
    | char c => simp [glyphs]
    | node n => exact n.pieces_glyphs

theorem glyphs_flatMap_clearStyle (tag : String) (ps : List Piece) :
    (ps.flatMap (clearStyle tag)).flatMap glyphs = (ps.map (removeStyle tag)).flatMap glyphs := by
  rw [List.flatMap_assoc, List.flatMap_map]
  refine List.flatMap_congr fun p _ => ?_
  have ⟨item, host⟩ := p
  rw [clearStyle]
  split
  case isTrue => exact glyphs_loosen _
  case isFalse h =>
    cases host with
    | none => simp [removeStyle]
    | some s =>
      have h : tag ∉ s := by simpa using h
      simp [removeStyle, StyleSet.erase_of_not_mem h]

end Piece

namespace Tree

-- What the offsets of a block stand for, but for the styles of its own wrappers.
def bareGlyphs (t : Tree) (id : NodeId) : List Glyph :=
  (t.children id).flatMap Node.bareGlyphs

end Tree

end RichText
