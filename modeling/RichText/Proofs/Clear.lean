import RichText.Restyle.Clear
import RichText.Proofs.Apply
import RichText.Proofs.FlatBlock
import RichText.Proofs.Rebuild

namespace RichText

theorem Kind.hasStyle_eq (k : Kind) (tag : String) : k.hasStyle tag = k.styles?.any (tag ∈ ·) := by
  cases k <;> rfl

namespace Piece

theorem glyphs_clearBetween (as bs cs : List Piece) (tag : String) (o : Nat) :
    ((as ++ bs.flatMap (clearStyle tag) ++ cs).flatMap glyphs)[o]? =
      ((as ++ bs ++ cs).flatMap glyphs)[o]?.map fun g =>
        if total as ≤ o ∧ o < total (as ++ bs) ∧ (itemAt? width (as ++ bs ++ cs) o).any isStyleable ∧
          ¬((as ++ bs ++ cs).flatMap bareGlyphs)[o]?.any (Glyph.hasStyle tag) then g.removeStyle tag
        else g := by
  have hgl : (as ++ bs.flatMap (clearStyle tag) ++ cs).flatMap glyphs =
      (as ++ bs.map (removeStyle tag) ++ cs).flatMap glyphs := by
    simp only [List.flatMap_append, glyphs_flatMap_clearStyle]
  rw [hgl, glyphs_between (total_map_removeStyle tag) (glyphs_map_removeStyle tag _)]

theorem exists_of_bareGlyphs {ps : List Piece} {o : Nat} (h : (ps.flatMap bareGlyphs)[o]? = some g) :
    ∃ p, itemAt? width ps o = some p ∧ g ∈ p.bareGlyphs := by
  induction ps generalizing o with
  | nil => simp at h
  | cons p ps ih =>
    rw [List.flatMap_cons, List.getElem?_append, length_bareGlyphs] at h
    rw [itemAt?]
    split at h
    case isTrue ho => exact ⟨p, if_pos ho, List.mem_of_getElem? h⟩
    case isFalse ho => simpa [ho] using ih h

end Piece

namespace Node

theorem pieces_removeStyle (n : Node) (tag : String) :
    (n.removeStyle tag).pieces = n.pieces.map (Piece.removeStyle tag) := by
  obtain ⟨i, k, cs⟩ := n
  cases k <;>
    simp [removeStyle, withKind, Kind.mapStyles, pieces, items, Piece.removeStyle]

theorem pieces_clearStyle (n : Node) (tag : String) :
    n.pieces.flatMap (Piece.clearStyle tag) =
      if n.kind.hasStyle tag then (n.removeStyle tag).dissolve.kept.flatMap pieces
      else n.pieces := by
  have hh : ∀ p ∈ n.pieces, p.host.any (tag ∈ ·) = n.kind.hasStyle tag := by
    intro p hp
    rw [host_of_mem_pieces hp, Kind.hasStyle_eq]
  split
  case isTrue h =>
    rw [Canonical.pieces_dissolve, pieces_removeStyle, List.flatMap_map]
    exact List.flatMap_congr fun p hp => if_pos ((hh p hp).trans h)
  case isFalse h =>
    have hp : ∀ p ∈ n.pieces, p.clearStyle tag = [p] := fun p hp => if_neg (by simpa [hh p hp] using h)
    rw [List.flatMap_congr hp, List.flatMap_singleton']

end Node

namespace Draft

section ClearBetween

variable {d : Draft} {xs zs bs : List Node}

theorem pieces_clearBetween (hd : (Node.idsAll d.content).Nodup) (hc : d.content = xs ++ zs ++ bs)
    (hf : zs.head?.map Node.id = some first) (hl : zs.getLast?.map Node.id = some last)
    (tag : String) :
    (d.clearBetween first last tag).content.flatMap Node.pieces =
      xs.flatMap Node.pieces ++ (zs.flatMap Node.pieces).flatMap (Piece.clearStyle tag) ++
        bs.flatMap Node.pieces := by
  have hs := Node.segment_of_ends (hc ▸ hd) hf hl
  have hany : zs.any (·.id = last) := by
    have ⟨y, hy, hyi⟩ := Option.map_eq_some_iff.mp hl
    exact List.any_eq_true.mpr ⟨y, List.mem_of_getLast? hy, by simp [hyi]⟩
  simp only [clearBetween, hc, hs, hany, ↓reduceIte, List.flatMap_append]
  congr 2
  rw [Pass.kept_each, List.flatMap_assoc, List.flatMap_assoc]
  refine List.flatMap_congr fun n _ => ?_
  rw [Node.pieces_clearStyle]
  split <;> simp

theorem accounts_clearAll (tag : String) (ns : List Node) : (Pass.each (fun n =>
    if n.kind.hasStyle tag then (n.removeStyle tag).dissolve else ⟨[n], []⟩) ns).Accounts ns := by
  refine Pass.accounts_each ns fun n _ => ?_
  split
  case isTrue =>
    simpa [Pass.Accounts, Node.removeStyle] using Canonical.accounts_dissolve (n.removeStyle tag)
  case isFalse => exact Pass.accounts_unchanged _

theorem leavesEmptyAll_clearAll {ns : List Node} (h : Node.LeavesEmptyAll ns) (tag : String) :
    Node.LeavesEmptyAll (Pass.each (fun n =>
      if n.kind.hasStyle tag then (n.removeStyle tag).dissolve else ⟨[n], []⟩) ns).kept := by
  refine Canonical.leavesEmptyAll_each h fun n hn => ?_
  split
  case isTrue => exact Canonical.leavesEmptyAll_dissolve (by simpa using hn)
  case isFalse => simpa using hn

theorem husks_clearAll (tag : String) (ns : List Node) : ∀ m ∈ (Pass.each (fun n =>
    if n.kind.hasStyle tag then (n.removeStyle tag).dissolve else ⟨[n], []⟩) ns).dropped,
      m.IsHusk := by
  refine Canonical.husks_each fun n _ => ?_
  split
  case isTrue => exact Canonical.husks_dissolve _
  case isFalse => exact nofun

theorem grows_clearBetween (d : Draft) (first last : NodeId) (tag : String) :
    d.Grows (d.clearBetween first last tag) := by
  generalize hs : Node.segment first last d.content = parts
  have ⟨before, inside, after⟩ := parts
  have hc := Node.segment_append_eq hs
  simp only [clearBetween, hs]
  split
  case isFalse => exact .refl d
  case isTrue =>
    refine .of_count (Nat.le_refl _) (fun hl => ?_) (fun _ n hn => ?_) fun i => ?_
    · simp only [← hc, Node.leavesEmptyAll_append] at hl ⊢
      exact ⟨⟨hl.left.left, leavesEmptyAll_clearAll hl.left.right tag⟩, hl.right⟩
    · exact (List.mem_append.mp hn).imp_right (husks_clearAll tag inside n)
    · have hi := (accounts_clearAll tag inside).count_eq i
      simp only [← hc, Node.idsAll_append, List.count_append, NodeId.given_self,
        List.count_nil] at hi ⊢
      omega

end ClearBetween

section CutWrapper

variable {d : Draft} {before left right after : List Node} {i : NodeId} {styles : StyleSet}
  {n : Node}

theorem cutWrapper_held (h : d.At (.held before i styles left right after) n) (k : Nat) :
    let w := Node.mk i (.wrapper styles) (left ++ n :: right)
    (d.cutWrapper w n.id k = ((i, i), d) ∧
      (left = [] ∧ k = 0 ∨ right = [] ∧ n.items.length ≤ k)) ∨
    ∃ d', d.cutWrapper w n.id k = ((i, ⟨d.next + 1⟩), d') ∧
      d'.content = before ++ .mk i (.wrapper styles) (left ++ [n.takeText k]) ::
        .mk ⟨d.next + 1⟩ (.wrapper styles) (n.dropText k ⟨d.next⟩ :: right) :: after ∧
      d.Grows d' := by
  have hs := h.substitute_held
  simp only [cutWrapper, h.childrenAround_held, ← Node.length_items_of_isText h.isText, substitute]
  split
  case isTrue hk => exact .inl ⟨rfl, by simpa using hk⟩
  case isFalse =>
    refine .inr ⟨_, rfl, ?_, .of_count (by simp) (fun he => ?_) (fun _ _ => .inl) fun j => ?_⟩
    · simp [Node.copyAround, Kind.styles?, hs, Node.withChildren]
    · simp [h.content] at he
      simp [Node.copyAround, Kind.styles?, hs, Node.withChildren, he]
    · have hc := congrArg (fun ns => (Node.idsAll ns).count j) h.content
      simp [Node.copyAround, hs, List.count_cons] at hc ⊢
      omega

theorem hasStyle_wrapper (styles : StyleSet) (tag : String) :
    (Kind.wrapper styles).hasStyle tag = decide (tag ∈ styles) :=
  rfl

theorem clearFrom_held (h : d.At (.held before i styles left right after) n) (hp : p.node = n.id)
    (tag : String) :
    (d.clearFrom p tag = (some i, d) ∧ (tag ∉ styles ∨ left = [] ∧ p.offset = 0)) ∨
    (d.clearFrom p tag = (d.next? i, d) ∧ right = [] ∧ n.items.length ≤ p.offset) ∨
    ∃ d', d.clearFrom p tag = (some ⟨d.next + 1⟩, d') ∧
      d'.content = before ++ .mk i (.wrapper styles) (left ++ [n.takeText p.offset]) ::
        .mk ⟨d.next + 1⟩ (.wrapper styles) (n.dropText p.offset ⟨d.next⟩ :: right) :: after ∧
      d.Grows d' := by
  simp only [clearFrom, hp, h.holder?_held, Node.kind_mk, hasStyle_wrapper, h.childrenAround_held,
    h.textLength, Node.id_mk]
  split
  case isFalse ht => exact .inl ⟨rfl, .inl (by simpa using ht)⟩
  case isTrue =>
    split
    case isTrue hk => exact .inr <| .inl ⟨rfl, by simpa using hk⟩
    case isFalse hk =>
      have hk : ¬(right = [] ∧ n.items.length ≤ p.offset) := by simpa using hk
      obtain ⟨hc, he⟩ | ⟨d', hc, hd, hg⟩ := cutWrapper_held h p.offset
      case inl => exact .inl ⟨by rw [hc], .inr (he.resolve_right hk)⟩
      case inr => exact .inr <| .inr ⟨d', by rw [hc], hd, hg⟩

theorem clearTo_held (h : d.At (.held before i styles left right after) n) (hp : p.node = n.id)
    (tag : String) :
    (d.clearTo p tag = (some i, d) ∧ (tag ∉ styles ∨ right = [] ∧ n.items.length ≤ p.offset)) ∨
    (d.clearTo p tag = (d.prev? i, d) ∧ left = [] ∧ p.offset = 0) ∨
    ∃ d', d.clearTo p tag = (some i, d') ∧
      d'.content = before ++ .mk i (.wrapper styles) (left ++ [n.takeText p.offset]) ::
        .mk ⟨d.next + 1⟩ (.wrapper styles) (n.dropText p.offset ⟨d.next⟩ :: right) :: after ∧
      d.Grows d' := by
  simp only [clearTo, hp, h.holder?_held, Node.kind_mk, hasStyle_wrapper, h.childrenAround_held,
    Node.id_mk]
  split
  case isFalse ht => exact .inl ⟨rfl, .inl (by simpa using ht)⟩
  case isTrue =>
    split
    case isTrue hk => exact .inr <| .inl ⟨rfl, by simpa using hk⟩
    case isFalse hk =>
      have hk : ¬(left = [] ∧ p.offset = 0) := by simpa using hk
      obtain ⟨hc, he⟩ | ⟨d', hc, hd, hg⟩ := cutWrapper_held h p.offset
      case inl => exact .inl ⟨by rw [hc], .inr (he.resolve_left hk)⟩
      case inr => exact .inr <| .inr ⟨d', by rw [hc], hd, hg⟩

theorem clearFrom_bare (h : d.At (.bare before after) n) (hp : p.node = n.id) (tag : String) :
    d.clearFrom p tag = (some n.id, d) := by
  simp [clearFrom, hp, h.holder?_bare]

theorem clearTo_bare (h : d.At (.bare before after) n) (hp : p.node = n.id) (tag : String) :
    d.clearTo p tag = (some n.id, d) := by
  simp [clearTo, hp, h.holder?_bare]

end CutWrapper

-- Pieces that a style can be taken from without a change.
def Immune (tag : String) (ps : List Piece) : Prop :=
  ps.flatMap (Piece.clearStyle tag) = ps

theorem Immune.eq (h : Immune tag ps) : ps.flatMap (Piece.clearStyle tag) = ps :=
  h

theorem Immune.nil : Immune tag [] :=
  rfl

theorem Immune.of_host {host : Option StyleSet} (h : ∀ s, host = some s → tag ∉ s)
    (items : List Item) : Immune tag (items.map (⟨·, host⟩)) := by
  have hn : host.any (tag ∈ ·) = false := by
    cases host with
    | none => rfl
    | some s => simpa using h s rfl
  rw [Immune, List.flatMap_map, List.map_eq_flatMap]
  exact List.flatMap_congr fun item _ => if_neg (by simp [hn])

theorem Immune.bare (items : List Item) : Immune tag (items.map (⟨·, none⟩)) :=
  .of_host (by simp) items

theorem Immune.held {items : List Item} (h : tag ∉ styles ∨ items = []) :
    Immune tag (items.map (⟨·, some styles⟩)) := by
  cases h
  case inl h => exact .of_host (by simpa using h) items
  case inr h => exact h ▸ .nil

section Ends

variable {d : Draft} {p : Stretch} {n m : Node}

-- The content to clear starts at a first node, after some nodes that it leaves out. It may start
-- too early by some pieces, but only by such that cannot lose the style.
structure StartsAt (tag : String) (p : Stretch) (n m : Node) (k : Nat) (xs : List Node) (s : Seat)
    (extra : List Piece) (first : Option NodeId) (d : Draft) : Prop where
  immune : Immune tag extra
  stop : d.At (s.prepend xs) m
  first : first = (s.plug [m]).head?.map Node.id
  before : xs.flatMap Node.pieces ++ extra = p.lead ++ (n.items.take k).map (⟨·, p.firstHost⟩)
  lead : s.lead = extra ++ (n.items.drop k).map (⟨·, p.firstHost⟩) ++ p.middle
  host : s.host = p.lastHost
  rest : s.rest = p.rest

theorem Between.clearFrom_joint {before left middle right after : List Node} {i : NodeId}
    {styles : StyleSet} (h : d.Between (.joint before i styles left middle right after) n m)
    (hq : q.node = n.id) (tag : String) :
    ∃ xs s extra, StartsAt tag (.joint before i styles left middle right after) n m q.offset xs s
      extra (d.clearFrom q tag).1 (d.clearFrom q tag).2 ∧ d.Grows (d.clearFrom q tag).2 := by
  have hc := h.content
  have hcut := Node.map_items_cut n (some styles) q.offset
  obtain ⟨he, ha⟩ | ⟨-, hr, -⟩ | ⟨d', he, hd', hg⟩ := clearFrom_held h.first hq tag
  case inl =>
    rw [he]
    refine ⟨before, .held [] i styles (left ++ n :: middle) right after,
      (left.flatMap Node.items ++ n.items.take q.offset).map (⟨·, some styles⟩), {
        immune := .held (ha.imp_right fun ⟨hl, hk⟩ => by simp [hl, hk])
        stop := ⟨h.sound, by simp [hc, Stretch.plug], h.lastIsText⟩
        first := by simp
        before := by simp [Stretch.lead, Stretch.firstHost]
        lead := ?_
        host := rfl
        rest := rfl }, .refl d⟩
    simp only [Seat.lead_held, Stretch.middle, Stretch.firstHost, List.flatMap_append,
      List.flatMap_cons, List.flatMap_nil, List.nil_append, List.map_append, hcut,
      List.append_assoc]
  case inr.inl => simp at hr
  case inr.inr =>
    rw [he]
    refine ⟨before ++ [.mk i (.wrapper styles) (left ++ [n.takeText q.offset])],
      .held [] ⟨d.next + 1⟩ styles (n.dropText q.offset ⟨d.next⟩ :: middle) right after, [], {
        immune := .nil
        stop := ⟨h.sound.of_grows hg, by simp [hd'], h.lastIsText⟩
        first := by simp
        before := ?_
        lead := ?_
        host := rfl
        rest := rfl }, hg⟩
    · simp [Stretch.lead, Stretch.firstHost, Node.pieces, Node.items_takeText h.firstIsText]
    · simp [Stretch.middle, Stretch.firstHost, Node.items_dropText h.firstIsText]

theorem Between.clearFrom_apart_bare {before after : List Node} {last : Seat}
    (h : d.Between (.apart (.bare before after) last) n m) (hq : q.node = n.id) (tag : String) :
    ∃ xs s extra, StartsAt tag (.apart (.bare before after) last) n m q.offset xs s
      extra (d.clearFrom q tag).1 (d.clearFrom q tag).2 ∧ d.Grows (d.clearFrom q tag).2 := by
  have hc := h.content
  have hcut := Node.map_items_cut n none q.offset
  rw [clearFrom_bare h.first hq]
  refine ⟨before, last.prepend (n :: after), (n.items.take q.offset).map (⟨·, none⟩), {
    immune := .bare _
    stop := ⟨h.sound, by simp [hc, Stretch.plug], h.lastIsText⟩
    first := by simp
    before := by simp [Stretch.lead, Stretch.firstHost]
    lead := ?_
    host := by simp [Stretch.lastHost]
    rest := by simp [Stretch.rest] }, .refl d⟩
  simp only [Seat.lead_prepend, Stretch.middle, Stretch.firstHost, Seat.rest_bare, Seat.host_bare,
    List.flatMap_cons, Seat.pieces_of_isText h.firstIsText, hcut, List.append_assoc]

theorem Between.clearFrom_apart_held {before left right after : List Node} {i : NodeId}
    {styles : StyleSet} {last : Seat}
    (h : d.Between (.apart (.held before i styles left right after) last) n m)
    (hq : q.node = n.id) (tag : String) :
    ∃ xs s extra, StartsAt tag (.apart (.held before i styles left right after) last) n m q.offset
      xs s extra (d.clearFrom q tag).1 (d.clearFrom q tag).2 ∧ d.Grows (d.clearFrom q tag).2 := by
  have hc := h.content
  have hcut := Node.map_items_cut n (some styles) q.offset
  obtain ⟨he, ha⟩ | ⟨he, hr, hk⟩ | ⟨d', he, hd', hg⟩ := clearFrom_held h.first hq tag
  case inl =>
    rw [he]
    refine ⟨before, last.prepend (.mk i (.wrapper styles) (left ++ n :: right) :: after),
      (left.flatMap Node.items ++ n.items.take q.offset).map (⟨·, some styles⟩), {
        immune := .held (ha.imp_right fun ⟨hl, hk⟩ => by simp [hl, hk])
        stop := ⟨h.sound, by simp [hc, Stretch.plug], h.lastIsText⟩
        first := by simp
        before := by simp [Stretch.lead, Stretch.firstHost]
        lead := ?_
        host := by simp [Stretch.lastHost]
        rest := by simp [Stretch.rest] }, .refl d⟩
    simp only [Seat.lead_prepend, Stretch.middle, Stretch.firstHost, Seat.rest_held, Seat.host_held,
      List.flatMap_cons, Node.pieces, Node.kind_mk, Node.children_mk, List.flatMap_append,
      List.map_append, hcut, List.append_assoc]
  case inr.inl =>
    -- The wrapper is left out, and the content to clear starts after it.
    subst hr
    have hw : d.content = before ++ .mk i (.wrapper styles) (left ++ [n]) ::
        (last.prepend after).plug [m] := by simp [hc, Stretch.plug]
    have hn := next?_of_content h.sound.nodup_content hw
    rw [he]
    refine ⟨before ++ [.mk i (.wrapper styles) (left ++ [n])], last.prepend after, [], {
        immune := .nil
        stop := ⟨h.sound, by simp [hw], h.lastIsText⟩
        first := hn
        before := ?_
        lead := ?_
        host := by simp [Stretch.lastHost]
        rest := by simp [Stretch.rest] }, .refl d⟩
    · simp [Stretch.lead, Stretch.firstHost, Node.pieces, List.take_of_length_le hk]
    · simp [Stretch.middle, Stretch.firstHost, List.drop_of_length_le hk]
  case inr.inr =>
    rw [he]
    refine ⟨before ++ [.mk i (.wrapper styles) (left ++ [n.takeText q.offset])],
      last.prepend (.mk ⟨d.next + 1⟩ (.wrapper styles) (n.dropText q.offset ⟨d.next⟩ :: right) ::
        after), [], {
        immune := .nil
        stop := ⟨h.sound.of_grows hg, by simp [hd'], h.lastIsText⟩
        first := by simp
        before := ?_
        lead := ?_
        host := by simp [Stretch.lastHost]
        rest := by simp [Stretch.rest] }, hg⟩
    · simp [Stretch.lead, Stretch.firstHost, Node.pieces, Node.items_takeText h.firstIsText]
    · simp [Stretch.middle, Stretch.firstHost, Node.pieces, Node.items_dropText h.firstIsText]

theorem Between.clearFrom (h : d.Between p n m) (hq : q.node = n.id) (tag : String) :
    ∃ xs s extra, StartsAt tag p n m q.offset xs s extra (d.clearFrom q tag).1
      (d.clearFrom q tag).2 ∧ d.Grows (d.clearFrom q tag).2 := by
  cases p with
  | joint => exact h.clearFrom_joint hq tag
  | apart first =>
    cases first with
    | bare => exact h.clearFrom_apart_bare hq tag
    | held => exact h.clearFrom_apart_held hq tag

-- The content to clear stops at a last node, before some nodes that it leaves out. It may stop too
-- late by some pieces, but only by such that cannot lose the style.
structure StopsAt (tag : String) (s : Seat) (m : Node) (k : Nat) (xs zs bs : List Node)
    (extra : List Piece) (last : Option NodeId) (d : Draft) : Prop where
  immune : Immune tag extra
  content : d.content = xs ++ zs ++ bs
  last : zs ≠ [] → last = zs.getLast?.map Node.id
  first : zs ≠ [] → zs.head?.map Node.id = (s.plug [m]).head?.map Node.id
  inside : zs.flatMap Node.pieces = s.lead ++ (m.items.take k).map (⟨·, s.host⟩) ++ extra
  after : extra ++ bs.flatMap Node.pieces = (m.items.drop k).map (⟨·, s.host⟩) ++ s.rest

theorem At.clearTo_bare {xs before after : List Node}
    (h : d.At (.prepend xs (.bare before after)) m) (hq : q.node = m.id) (tag : String) :
    ∃ zs bs extra, StopsAt tag (.bare before after) m q.offset xs zs bs extra (d.clearTo q tag).1
      (d.clearTo q tag).2 ∧ d.Grows (d.clearTo q tag).2 := by
  have hcut := Node.map_items_cut m none q.offset
  rw [Draft.clearTo_bare h hq]
  refine ⟨before ++ [m], after, (m.items.drop q.offset).map (⟨·, none⟩), {
    immune := .bare _
    content := by simp [h.content]
    last := fun _ => by simp
    first := fun _ => by simp
    inside := ?_
    after := by simp }, .refl d⟩
  simp only [List.flatMap_append, List.flatMap_singleton, Seat.pieces_of_isText h.isText, hcut,
    Seat.lead_bare, Seat.host_bare, List.append_assoc]

theorem At.clearTo_held {xs before left right after : List Node} {i : NodeId} {styles : StyleSet}
    (h : d.At (.prepend xs (.held before i styles left right after)) m) (hq : q.node = m.id)
    (tag : String) :
    ∃ zs bs extra, StopsAt tag (.held before i styles left right after) m q.offset xs zs bs extra
      (d.clearTo q tag).1 (d.clearTo q tag).2 ∧ d.Grows (d.clearTo q tag).2 := by
  have hc := h.content
  have hcut := Node.map_items_cut m (some styles) q.offset
  obtain ⟨he, ha⟩ | ⟨he, hl, hk⟩ | ⟨d', he, hd', hg⟩ := Draft.clearTo_held h hq tag
  case inl =>
    rw [he]
    refine ⟨before ++ [.mk i (.wrapper styles) (left ++ m :: right)], after,
      (m.items.drop q.offset ++ right.flatMap Node.items).map (⟨·, some styles⟩), {
        immune := .held (ha.imp_right fun ⟨hr, hk⟩ => by simp [hr, hk])
        content := by simp [hc]
        last := fun _ => by simp
        first := fun _ => by simp
        inside := ?_
        after := by simp }, .refl d⟩
    simp only [List.flatMap_append, List.flatMap_cons, List.flatMap_nil, Node.pieces, Node.kind_mk,
      Node.children_mk, Seat.lead_held, Seat.host_held, List.map_append, hcut, List.append_assoc,
      List.append_nil]
  case inr.inl =>
    -- The wrapper is left out, and the content to clear stops before it.
    subst hl
    have hw : d.content = (xs ++ before) ++ .mk i (.wrapper styles) (m :: right) :: after := by
      simp [hc]
    have hp := prev?_of_content h.sound.nodup_content hw
    rw [he]
    refine ⟨before, .mk i (.wrapper styles) (m :: right) :: after, [], {
        immune := .nil
        content := by simp [hc]
        last := fun hb => by rw [← List.getLast?_append_of_ne_nil xs hb]; exact hp
        first := fun hb => by rw [Seat.plug_held, List.head?_append_of_ne_nil _ hb]
        inside := by simp [hk]
        after := by simp [hk, Node.pieces] }, .refl d⟩
  case inr.inr =>
    rw [he]
    refine ⟨before ++ [.mk i (.wrapper styles) (left ++ [m.takeText q.offset])],
      .mk ⟨d.next + 1⟩ (.wrapper styles) (m.dropText q.offset ⟨d.next⟩ :: right) :: after, [], {
        immune := .nil
        content := by simp [hd']
        last := fun _ => by simp
        first := fun _ => by cases before <;> simp
        inside := ?_
        after := ?_ }, hg⟩
    · simp [Node.pieces, Node.items_takeText h.isText]
    · simp [Node.pieces, Node.items_dropText h.isText]

theorem At.clearTo {xs : List Node} {s : Seat} (h : d.At (s.prepend xs) m) (hq : q.node = m.id)
    (tag : String) :
    ∃ zs bs extra, StopsAt tag s m q.offset xs zs bs extra (d.clearTo q tag).1
      (d.clearTo q tag).2 ∧ d.Grows (d.clearTo q tag).2 := by
  cases s with
  | bare => exact h.clearTo_bare hq tag
  | held => exact h.clearTo_held hq tag

end Ends

def Cleared (tag : String) (ps : List Piece) (left right : Nat) (ps' : List Piece) : Prop :=
  ∃ as bs cs, ps = as ++ bs ++ cs ∧ Piece.total as = left ∧ Piece.total (as ++ bs) = right ∧
    ps' = as ++ bs.flatMap (Piece.clearStyle tag) ++ cs

theorem cleared_of_immune {s : Seat} {n : Node} (hn : n.isText)
    (h : ∀ styles, s.host = some styles → tag ∉ styles) (hle : start ≤ stop)
    (hle' : stop ≤ n.items.length) :
    Cleared tag ((s.plug [n]).flatMap Node.pieces) (Piece.total s.lead + start)
      (Piece.total s.lead + stop) ((s.plug [n]).flatMap Node.pieces) := by
  have hcut := n.map_items_cut₂ s.host hle
  have hs : ∀ m ∈ [n], m.isText := by simpa using hn
  refine ⟨s.lead ++ (n.items.take start).map (⟨·, s.host⟩),
    ((n.items.take stop).drop start).map (⟨·, s.host⟩),
    (n.items.drop stop).map (⟨·, s.host⟩) ++ s.rest, ?_, ?_, ?_, ?_⟩
  · simp only [Seat.pieces_plug hs, Seat.seated, List.flatMap_singleton, hcut, List.append_assoc]
  · rw [Piece.total_append, Node.total_take_items hn (by omega)]
  · have ht : Piece.total ((n.items.take stop).map (⟨·, s.host⟩)) = stop :=
      Node.total_take_items hn hle'
    rw [n.map_items_take s.host hle, Piece.total_append] at ht
    simp only [Piece.total_append]
    omega
  · rw [(Immune.of_host h _).eq]
    simp only [Seat.pieces_plug hs, Seat.seated, List.flatMap_singleton, hcut, List.append_assoc]

section Clear

variable {d : Draft} {p : Stretch} {n m : Node} {e : Endpoints}

theorem clear_several (h : d.Between p n m) (hs : e.start.node = n.id) (ht : e.stop.node = m.id)
    (hn : e.start.offset ≤ n.items.length) (hm : e.stop.offset ≤ m.items.length)
    (hlt : Piece.total p.lead + e.start.offset <
      Piece.total (p.last [n]).lead + e.stop.offset) (tag : String) :
    Cleared tag (d.content.flatMap Node.pieces) (Piece.total p.lead + e.start.offset)
      (Piece.total (p.last [n]).lead + e.stop.offset)
      ((d.clear e tag).content.flatMap Node.pieces) ∧ d.Grows (d.clear e tag) := by
  have ⟨xs, s, extra, hf, hg'⟩ := h.clearFrom hs tag
  have ⟨zs, bs, extra', hl, hg⟩ := hf.stop.clearTo ht tag
  let inside := (n.items.drop e.start.offset).map (Piece.mk · p.firstHost) ++ p.middle ++
    (m.items.take e.stop.offset).map (⟨·, p.lastHost⟩)
  have hin : zs.flatMap Node.pieces = extra ++ inside ++ extra' := by
    rw [hl.inside, hf.lead, hf.host]
    simp only [inside, List.append_assoc]
  have hleft : Piece.total (p.lead ++ (n.items.take e.start.offset).map (⟨·, p.firstHost⟩)) =
      Piece.total p.lead + e.start.offset := by
    rw [Piece.total_append, Node.total_take_items h.firstIsText hn]
  have hright : Piece.total (p.lead ++ (n.items.take e.start.offset).map (⟨·, p.firstHost⟩) ++
      inside) = Piece.total (p.last [n]).lead + e.stop.offset := by
    rw [Stretch.lead_last (by simpa using h.firstIsText), List.flatMap_singleton,
      n.map_items_cut p.firstHost e.start.offset]
    simp only [inside, Piece.total_append, Node.total_take_items h.lastIsText hm]
    omega
  have hz : zs ≠ [] := by
    intro hz
    rw [hz, List.flatMap_nil, eq_comm, List.append_eq_nil_iff, List.append_eq_nil_iff] at hin
    rw [hin.left.right, List.append_nil] at hright
    omega
  have hy := List.getLast?_eq_some_getLast hz
  have hz' := List.head?_eq_some_head hz
  have hlast := hl.last hz
  have hfirst := hf.first.trans (hl.first hz).symm
  have hd := (hf.stop.sound.of_grows hg).nodup_content
  have hp := pieces_clearBetween hd hl.content (by rw [hz']; rfl) (by rw [hy]; rfl) tag
  have he : d.clear e tag = ((d.clearFrom e.start tag).2.clearTo e.stop tag).2.clearBetween
      (zs.head hz).id (zs.getLast hz).id tag := by
    simp only [clear, hfirst, hlast, hz', hy, Option.map_some]
  rw [he]
  refine ⟨⟨_, inside, (m.items.drop e.stop.offset).map (⟨·, p.lastHost⟩) ++ p.rest, ?_, hleft, hright,
    ?_⟩, hg'.trans hg |>.trans (grows_clearBetween ..)⟩
  · rw [h.pieces, Stretch.inner, n.map_items_cut _ e.start.offset, m.map_items_cut _ e.stop.offset]
    simp only [inside, List.append_assoc]
  · rw [hp, hin, ← hf.before, ← hf.rest, ← hf.host, ← hl.after]
    simp only [List.flatMap_append, hf.immune.eq, hl.immune.eq, List.append_assoc]

end Clear

end Draft

namespace Node

variable {n : Node} {left right : List Node} {styles : StyleSet} {start stop : Nat}

-- What stays before some text of a wrapper when the wrapper is cut around it. On a side where the
-- text is not cut, what is beside it goes with it.
def keptLeft (left : List Node) (n : Node) (start : Nat) : List Item :=
  if 0 < start then left.flatMap items ++ n.items.take start else []

def keptRight (right : List Node) (n : Node) (stop : Nat) : List Item :=
  if stop < n.items.length then n.items.drop stop ++ right.flatMap items else []

theorem total_keptLeft (left : List Node) (hn : n.isText) (host : Option StyleSet)
    (h : start ≤ n.items.length) :
    Piece.total ((keptLeft left n start).map (⟨·, host⟩)) =
      if 0 < start then Piece.total ((left.flatMap items).map (⟨·, host⟩)) + start else 0 := by
  rw [keptLeft]
  split
  case isTrue => rw [List.map_append, Piece.total_append, total_take_items hn h]
  case isFalse => rfl

theorem total_keptRight (right : List Node) (hn : n.isText) (host : Option StyleSet)
    (h : stop ≤ n.items.length) :
    Piece.total ((keptRight right n stop).map (⟨·, host⟩)) =
      if stop < n.items.length then
        n.items.length - stop + Piece.total ((right.flatMap items).map (⟨·, host⟩))
      else 0 := by
  have hc := congrArg Piece.total (n.map_items_cut host stop)
  rw [total_items, ← length_items hn, Piece.total_append, total_take_items hn h] at hc
  rw [keptRight]
  split
  case isTrue =>
    rw [List.map_append, Piece.total_append]
    omega
  case isFalse => rfl

theorem pieces_cutAround {w : Node} (hk : w.kind = .wrapper styles)
    (hc : w.children = left ++ n :: right) (hd : (idsAll w.children).Nodup) (hn : n.isText)
    (hle : start ≤ stop) (next : Nat) :
    let cut := w.cutAround n.id start stop next
    ∃ items', keptLeft left n start ++ items' ++ keptRight right n stop =
        (left ++ n :: right).flatMap items ∧ cut.middle.kind = .wrapper styles ∧
      cut.before.flatMap pieces = (keptLeft left n start).map (⟨·, some styles⟩) ∧
      cut.middle.pieces = items'.map (⟨·, some styles⟩) ∧
      cut.after.flatMap pieces = (keptRight right n stop).map (⟨·, some styles⟩) := by
  have ha := childrenAround_of_children hd hc
  obtain ⟨i, k, cs⟩ := w
  simp only [kind_mk, children_mk] at hk hc
  subst hk hc
  have hcut (k : Nat) (rest : List Item) :
      n.items.take k ++ (n.items.drop k ++ rest) = n.items ++ rest := by
    rw [← List.append_assoc, List.take_append_drop]
  have htake : (n.items.take stop).take start = n.items.take start := by
    rw [List.take_take, Nat.min_eq_left hle]
  have hmid := List.take_append_drop start (n.items.take stop)
  rw [htake] at hmid
  have hts := isText_takeText hn stop
  simp only [cutAround, ha, ← length_items_of_isText hn, keptLeft, keptRight]
  by_cases hs : 0 < start
  case pos =>
    by_cases ht : stop < n.items.length
    case pos =>
      simp only [hs, ht, ↓reduceIte]
      refine ⟨(n.items.take stop).drop start, ?_, rfl, ?_, ?_, ?_⟩
      · rw [List.append_assoc (left.flatMap items), hmid]
        simp [hcut]
      all_goals simp [copyAround, Kind.styles?, pieces, items_takeText hts, items_takeText hn,
        items_dropText hn, items_dropText hts, htake]
    case neg =>
      simp only [hs, ht, ↓reduceIte]
      refine ⟨n.items.drop start ++ right.flatMap items, ?_, rfl, ?_, ?_, ?_⟩
      · simp [hcut]
      all_goals simp [copyAround, Kind.styles?, pieces, items_takeText hn, items_dropText hn]
  case neg =>
    by_cases ht : stop < n.items.length
    case pos =>
      simp only [hs, ht, ↓reduceIte]
      refine ⟨left.flatMap items ++ n.items.take stop, ?_, rfl, ?_, ?_, ?_⟩
      · simp [hcut]
      all_goals simp [copyAround, Kind.styles?, pieces, items_takeText hn, items_dropText hn]
    case neg =>
      simp only [hs, ht, ↓reduceIte]
      exact ⟨(left ++ n :: right).flatMap items, by simp, rfl, by simp, by simp [pieces], by simp⟩

theorem children_of_childrenAround {w : Node}
    (h : w.childrenAround child = (before, some n, after)) : w.children = before ++ n :: after := by
  simp only [childrenAround, Prod.mk.injEq] at h
  obtain ⟨rfl, hn, rfl⟩ := h
  obtain ⟨_, hr⟩ := List.head?_eq_some_iff.mp hn
  rw [hr, List.tail_cons, ← hr, List.takeWhile_append_dropWhile]

theorem idsAll_cutAround (w : Node) (leaf : NodeId) (start stop next : Nat) :
    let cut := w.cutAround leaf start stop next
    next ≤ cut.next ∧ (idsAll (cut.before ++ cut.middle :: cut.after)).Perm
      (w.ids ++ NodeId.given next cut.next) := by
  have hg : NodeId.given next (next + 2 + 2) =
      NodeId.given next (next + 2) ++ NodeId.given (next + 2) (next + 2 + 2) :=
    (NodeId.given_append (by omega) (by omega)).symm
  simp only [cutAround]
  split
  case h_2 => simp
  case h_1 before n after h =>
    have hc := children_of_childrenAround h
    split <;> split <;> refine ⟨by dsimp only; omega, List.perm_iff_count.mpr fun i => ?_⟩ <;>
      simp [hg, ids_eq w, hc, copyAround, List.count_cons] <;> omega

theorem leavesEmptyAll_cutAround {w : Node} (hc : w.children = left ++ n :: right)
    (hd : (idsAll w.children).Nodup) (hk : w.isWrapper) (hw : w.LeavesEmpty)
    (start stop next : Nat) :
    let cut := w.cutAround n.id start stop next
    LeavesEmptyAll (cut.before ++ cut.middle :: cut.after) := by
  have ha := childrenAround_of_children hd hc
  have hl := isLeaf_of_isWrapper hk
  have hw := (leavesEmpty_iff.mp hw).right
  rw [hc] at hw
  simp only [leavesEmptyAll_append, leavesEmptyAll_cons] at hw
  simp only [cutAround, ha]
  split <;> split <;> simp [hl, hw]

end Node

namespace Draft

-- How far a clearing goes between the two offsets of its endpoints: just as far, or further in the
-- wrapper of a single text, but only where the endpoints reach the end of the text.
inductive Reach (cs : List Node) (e : Endpoints) (tag : String) (left right : Nat) :
    Nat → Nat → Prop where
  | exact : Reach cs e tag left right left right
  | within {s : Seat} {n : Node} {l r : Nat} (children : cs = s.plug [n]) (isText : n.isText)
    (start : e.start.node = n.id) (stop : e.stop.node = n.id)
    (hasStyle : (s.child n).kind.hasStyle tag) (eqLeft : left = Piece.total s.lead + e.start.offset)
    (eqRight : right = Piece.total s.lead + e.stop.offset)
    (le : Piece.total (s.before.flatMap Node.pieces) ≤ l) (leLeft : l ≤ left)
    (edge : l < left → e.start.offset = 0) (rightLe : right ≤ r)
    (le' : r ≤ Piece.total ((s.before ++ [s.child n]).flatMap Node.pieces))
    (edge' : right < r → n.charCount ≤ e.stop.offset) : Reach cs e tag left right l r

-- A wrapper that is cut around a text loses the style there, and next to the text where it is not cut.
theorem cleared_cutAround {w n : Node} {e : Endpoints} {cs before left right after : List Node}
    {styles : StyleSet} (hc : cs = before ++ w :: after)
    (hw : w = .mk i (.wrapper styles) (left ++ n :: right)) (hd : (Node.idsAll w.children).Nodup)
    (hn : n.isText) (hm : tag ∈ styles) (hs : e.start.node = n.id) (ht : e.stop.node = n.id)
    (hle : e.start.offset ≤ e.stop.offset) (hlen : e.stop.offset ≤ n.items.length) {fresh : Nat}
    {cut : Node.Cut} (hcut : w.cutAround n.id e.start.offset e.stop.offset fresh = cut) :
    let lead := Piece.total (Seat.held before i styles left right after).lead
    ∃ l r, Reach cs e tag (lead + e.start.offset) (lead + e.stop.offset) l r ∧
      Cleared tag (cs.flatMap Node.pieces) l r ((before ++
        (cut.before ++ (cut.middle.removeStyle tag).dissolve.kept ++ cut.after) ++
          after).flatMap Node.pieces) := by
  subst hw hc
  have ⟨items', hi, hk, h₁, h₂, h₃⟩ := Node.pieces_cutAround rfl rfl hd hn hle fresh
  rw [hcut] at hk h₁ h₂ h₃
  have hmid : (cut.middle.removeStyle tag).dissolve.kept.flatMap Node.pieces =
      (items'.map (Piece.mk · (some styles))).flatMap (Piece.clearStyle tag) := by
    rw [← h₂, Node.pieces_clearStyle, if_pos (by simpa [hk, hasStyle_wrapper] using hm)]
  have hwp : (Node.mk i (.wrapper styles) (left ++ n :: right)).pieces =
      (Node.keptLeft left n e.start.offset).map (⟨·, some styles⟩) ++
        items'.map (⟨·, some styles⟩) ++
          (Node.keptRight right n e.stop.offset).map (⟨·, some styles⟩) := by
    rw [Node.pieces_wrapper rfl, Node.children_mk, ← hi, List.map_append, List.map_append]
  have hwt := congrArg Piece.total hwp
  have hwt' := congrArg Piece.total
    (Node.pieces_wrapper (n := .mk i (.wrapper styles) (left ++ n :: right)) rfl)
  rw [Node.children_mk, List.flatMap_append, List.flatMap_cons, List.map_append, List.map_append,
    Piece.total_append, Piece.total_append, Node.total_items, ← Node.length_items hn] at hwt'
  have hkl := Node.total_keptLeft left hn (some styles) (Nat.le_trans hle hlen)
  have hkr := Node.total_keptRight right hn (some styles) hlen
  rw [Piece.total_append, Piece.total_append] at hwt
  intro lead
  have hlead : lead = Piece.total (before.flatMap Node.pieces) +
      Piece.total ((left.flatMap Node.items).map (⟨·, some styles⟩)) := Piece.total_append ..
  refine ⟨_, _, .within (s := .held before i styles left right after) (by simp) hn hs ht
    (by simpa [Seat.child, hasStyle_wrapper] using hm) rfl rfl ?le ?leLeft ?edge ?rightLe ?le' ?edge',
    before.flatMap Node.pieces ++ (Node.keptLeft left n e.start.offset).map (⟨·, some styles⟩),
    items'.map (⟨·, some styles⟩),
    (Node.keptRight right n e.stop.offset).map (⟨·, some styles⟩) ++ after.flatMap Node.pieces,
    ?pieces, rfl, rfl, ?cleared⟩
  case pieces =>
    rw [List.flatMap_append, List.flatMap_cons, hwp]
    simp only [List.append_assoc]
  case cleared =>
    simp only [List.flatMap_append, h₁, hmid, h₃, List.append_assoc]
  case le =>
    rw [Piece.total_append]
    exact Nat.le_add_right ..
  case le' =>
    simp only [Seat.before, Seat.child, List.flatMap_append, List.flatMap_singleton, hwp,
      Piece.total_append]
    omega
  -- The four cases are whether the text is cut on either side.
  all_goals
    have hl := Node.length_items hn
    simp only [Piece.total_append]
    split at hkl <;> split at hkr <;> omega

end Draft

namespace Tree

variable {t : Tree} {block : NodeId} {b : Node} {e : Endpoints}

section ClearWithin

variable {w n : Node} {before left right after : List Node} {styles : StyleSet}

theorem rebuilt_clearWithin (wf : t.WellFormed) (hb : t.node? block = some b)
    (hc : b.children = before ++ w :: after) (hk : w.isWrapper)
    (hw : w.children = left ++ n :: right) {cut : Node.Cut}
    (hcut : w.cutAround n.id e.start.offset e.stop.offset t.made = cut)
    (hs : e.start.node = n.id) (tag : String)
    (hcon : content = before ++
      (cut.before ++ (cut.middle.removeStyle tag).dissolve.kept ++ cut.after) ++ after) :
    t.Rebuilt (t.clearWithin w e tag) block content ∧
      (Node.LeavesEmptyAll b.children → Node.LeavesEmptyAll content) := by
  have hd := wf.nodup_ids hb
  rw [Node.ids_eq, List.nodup_cons, hc] at hd
  have hwd := hd.right.sublist (Node.ids_sublist_of_mem (n := w) (by simp))
  rw [Node.ids_eq, List.nodup_cons] at hwd
  have hwb : w.id ∈ Node.idsAll b.children := Node.id_mem_idsAll (by simp [hc])
  have hparent : (t.parent? w.id).isSome := by
    rw [wf.parent?_of_child (mem_of_node? hb) (by simp [hc])]
    rfl
  have ⟨hle, hp⟩ := w.idsAll_cutAround n.id e.start.offset e.stop.offset t.made
  have hl := Node.leavesEmptyAll_cutAround hw hwd.right hk
  have hdis := Canonical.accounts_dissolve (cut.middle.removeStyle tag)
  rw [hcut] at hle hp
  have he : t.clearWithin w e tag = { t.replaceChildren block
      ⟨content, (cut.middle.removeStyle tag).dissolve.dropped⟩ with made := cut.next } := by
    let f (_ : Node) : List Node :=
      cut.before ++ (cut.middle.removeStyle tag).dissolve.kept ++ cut.after
    have hsub : Node.substituteAll w.id f t.roots =
        Node.substituteAll block (fun b => [b.withChildren content]) t.roots := by
      rw [Node.substituteAll_beneath t.roots wf.nodup (mem_of_node? hb) hwb, id_of_node? hb]
      apply wf.substituteAll_eq hb
      rw [hc, Node.substituteAll_at hd.right, hcon]
    simp only [clearWithin, hparent, ↓reduceIte, hs, hcut]
    exact congrArg (fun ns => Tree.mk (ns ++ _) _) hsub
  have leaves : Node.LeavesEmptyAll b.children → Node.LeavesEmptyAll content := by
    intro he
    rw [hc, Node.leavesEmptyAll_append, Node.leavesEmptyAll_cons] at he
    have hl := hl he.right.left e.start.offset e.stop.offset t.made
    simp only [hcut, Node.leavesEmptyAll_append, Node.leavesEmptyAll_cons] at hl
    have hr : (cut.middle.removeStyle tag).LeavesEmpty :=
      Node.leavesEmpty_removeStyle.mpr hl.right.left
    have hm := Canonical.leavesEmptyAll_dissolve hr
    simp only [hcon, Node.leavesEmptyAll_append]
    exact ⟨⟨he.left, ⟨hl.left, hm⟩, hl.right.right⟩, he.right.right⟩
  rw [he]
  refine ⟨rebuilt_replaceChildren wf hb hle (List.perm_iff_count.mpr fun i => ?_) fun he => ?_, leaves⟩
  · have hp := hp.count_eq i
    have hdis := hdis.count_eq i
    simp [hcon, hc, Node.removeStyle] at hp hdis ⊢
    omega
  · exact ⟨leaves he, Canonical.husks_dissolve _⟩

end ClearWithin

end Tree

namespace Endpoints

-- From a single text, the style is taken together with what is beside the text in its wrapper, on a
-- side where the span reaches the end of the text.
structure Spills (e : Endpoints) (t : Tree) (block : NodeId) (tag : String) (o : Nat) : Prop where
  single : e.start.node = e.stop.node
  together : ∃ w, itemAt? Node.charCount (t.children block) o = some w ∧
    itemAt? Node.charCount (t.children block) (e.offsets t block).1 = some w ∧ w.kind.hasStyle tag
  edge : e.start.offset = 0 ∧ o < (e.offsets t block).1 ∨
    t.charCount e.stop.node ≤ e.stop.offset ∧ (e.offsets t block).2 ≤ o

end Endpoints

namespace Tree

variable {t : Tree} {block : NodeId} {b : Node} {span : Span}

-- A block gets other content, brought to canonical form, or stays as it is.
structure Redone (t t' : Tree) (block : NodeId) (b : Node) (content : List Node) : Prop where
  cases : t.Rebuilt t' block (Canonical.canonicalize content).kept ∨ t' = t ∧ content = b.children
  leaves : Node.LeavesEmptyAll b.children → Node.LeavesEmptyAll content

theorem Redone.glyphs (h : Redone t t' block b content) (hb : t.node? block = some b) :
    t'.glyphs block = (content.flatMap Node.pieces).flatMap Piece.glyphs := by
  rw [Node.flatMap_pieces_glyphs]
  cases h.cases
  case inl h =>
    rw [glyphs_of_node? (h.node? hb), Node.children_withChildren, Canonical.glyphs_canonicalize]
  case inr h => rw [h.left, h.right, glyphs_of_node? hb]

section ClearStyle

variable {e : Endpoints} {left right : Nat}

theorem cleared_clearWithin (wf : t.WellFormed) (hb : t.node? block = some b)
    {w n : Node} {before left right after : List Node} {styles : StyleSet}
    (hw : w = .mk i (.wrapper styles) (left ++ n :: right))
    (hc : b.children = before ++ w :: after) (hn : n.isText) (hs : tag ∈ styles)
    (start : e.start.node = n.id) (stop : e.stop.node = n.id)
    (hlt : e.start.offset < e.stop.offset) (hle : e.stop.offset ≤ n.items.length) :
    let lead := Piece.total (Seat.held before i styles left right after).lead
    ∃ content l r, Redone t ((t.clearWithin w e tag).canonicalize block).2 block b content ∧
      Draft.Reach b.children e tag (lead + e.start.offset) (lead + e.stop.offset) l r ∧
      Draft.Cleared tag (b.children.flatMap Node.pieces) l r (content.flatMap Node.pieces) := by
  subst hw
  have hwb : Node.mk i (.wrapper styles) (left ++ n :: right) ∈ b.children := by simp [hc]
  have hd := wf.nodup_ids (wf.node?_of_mem_preorder hb
    (Node.mem_preorder_of_child hwb (Node.mem_preorder_self _)))
  rw [Node.ids_eq, List.nodup_cons] at hd
  generalize hcut : (Node.mk i (.wrapper styles) (left ++ n :: right)).cutAround n.id
    e.start.offset e.stop.offset t.made = cut
  obtain ⟨hr, hl⟩ := rebuilt_clearWithin wf hb hc rfl rfl hcut start tag rfl
  obtain ⟨l, r, hreach, hcl⟩ := Draft.cleared_cutAround hc rfl hd.right hn hs start stop
    (Nat.le_of_lt hlt) hle hcut
  have hcan := rebuilt_canonicalize hr.wf (hr.node? hb)
  exact ⟨_, l, r, ⟨.inl (hr.trans hb hcan), hl⟩, hreach, hcl⟩

theorem cleared_clearStyle (wf : t.WellFormed) (hb : t.node? block = some b)
    (hk : b.isWrapper = false) (hn : t.nonemptyEndpoints block span = .ok (e, left, right))
    (hc : Cover b.children e left right) (hlt : left < right) (tag : String) :
    ∃ r t' content l r', t.clearStyle block span tag = .ok (r, t') ∧
      Redone t t' block b content ∧ Draft.Reach b.children e tag left right l r' ∧
      Draft.Cleared tag (b.children.flatMap Node.pieces) l r' (content.flatMap Node.pieces) := by
  have hbr := mem_of_node? hb
  simp only [clearStyle_eq, hn, bind, Except.bind]
  cases hc with
  | @single s n children isText start stop lt le =>
    rw [← Node.length_items isText] at le
    have hsame (h : ∀ styles, s.host = some styles → tag ∉ styles) :=
      Draft.cleared_of_immune isText h (Nat.le_of_lt lt) le
    rw [if_pos (start.trans stop.symm), start]
    cases s with
    | bare before after =>
      -- The text is in the block itself, so it has no style to lose.
      have hp := wf.parent?_of_child hbr (show n ∈ b.children by simp [children])
      have hw : b.kind.hasStyle tag = false := by
        obtain ⟨i, k, cs⟩ := b
        cases k <;> simp_all [Node.isWrapper, Kind.isWrapper, Kind.hasStyle]
      simp only [hp, Option.bind_some, id_of_node? hb, hb, hw]
      exact ⟨_, _, b.children, _, _, rfl, ⟨.inr ⟨rfl, rfl⟩, id⟩, .exact,
        children ▸ hsame fun _ h => by cases h⟩
    | held before i styles left right after =>
      have hw : Node.mk i (.wrapper styles) (left ++ n :: right) ∈ b.children := by
        simp [children]
      have hwr := (Node.preorderAll_sublist _ hbr).subset
        (Node.mem_preorder_of_child hw (Node.mem_preorder_self _))
      have hp := wf.parent?_of_child hwr (n := n) (by simp)
      have hwn := wf.node?_of_mem_preorder hb
        (Node.mem_preorder_of_child hw (Node.mem_preorder_self _))
      simp only [hp, Option.bind_some, hwn, Node.kind_mk, Draft.hasStyle_wrapper,
        decide_eq_true_eq]
      by_cases hs : tag ∈ styles
      case neg =>
        rw [if_neg hs]
        refine ⟨_, _, b.children, _, _, rfl, ⟨.inr ⟨rfl, rfl⟩, id⟩, .exact, children ▸ hsame ?_⟩
        exact fun _ h => by cases h; exact hs
      case pos =>
        obtain ⟨content, l, r, hr, hreach, hcl⟩ := cleared_clearWithin wf hb rfl
          (by simpa using children) isText hs start stop lt le
        rw [if_pos hs]
        exact ⟨_, _, content, l, r, rfl, hr, hreach, hcl⟩
  | @several p n m children firstIsText lastIsText start stop startLe stopLe =>
    have hbt : (Draft.mk (t.children block) [] t.made).Between p n m :=
      ⟨wf.sound hb, (children_of_node? hb).trans children, firstIsText, lastIsText⟩
    rw [← Node.length_items firstIsText] at startLe
    rw [← Node.length_items lastIsText] at stopLe
    obtain ⟨hcl, hg⟩ := Draft.clear_several hbt start stop startLe stopLe hlt tag
    rw [if_neg (by rw [start, stop]; exact hbt.ne)]
    refine ⟨_, _, _, _, _, rfl, ⟨.inl (rebuilt_redraft wf hb hg), fun he => hg.leaves ?_⟩, .exact, ?_⟩
    · simpa [children_of_node? hb] using he
    · simpa [children_of_node? hb] using hcl

end ClearStyle

theorem iff_of_not_spills {e : Endpoints} (wf : t.WellFormed) (hb : t.node? block = some b)
    (hr : Draft.Reach b.children e tag left right l r) (ho : e.offsets t block = (left, right))
    (hlt : left < right) (hns : ¬e.Spills t block tag o) :
    l ≤ o ∧ o < r ↔ left ≤ o ∧ o < right := by
  cases hr with
  | exact => rfl
  | @within s n _ _ children isText start stop hasStyle eqLeft _ le leLeft edge rightLe le' edge' =>
    have hs : t.node? e.stop.node = some n := by
      have hp : n ∈ b.preorder := by
        rw [Node.preorder_eq, children]
        exact .tail _ (Seat.mem_preorderAll_plug (.head _))
      exact stop ▸ wf.node?_of_mem_preorder hb hp
    have hz (k : Nat) (hk : l ≤ k) (hk' : k < r) :
        itemAt? Node.charCount (t.children block) k = some (s.child n) := by
      rw [List.flatMap_append, List.flatMap_singleton, Piece.total_append,
        Piece.total_eq_sum (Node.pieces _), Node.sum_width_pieces] at le'
      rw [Node.total_pieces] at le le'
      rw [children_of_node? hb, children, Seat.plug_eq]
      exact itemAt?_mid (by omega) (by omega)
    constructor
    · intro ⟨h, h'⟩
      by_contra hn
      refine hns ⟨start.trans stop.symm, ⟨_, hz o h h', ?_, hasStyle⟩, ?_⟩
      · rw [ho]
        exact hz left leLeft (by omega)
      · rw [ho, charCount_of_node? hs]
        cases Nat.lt_or_ge o left
        case inl hol => exact .inl ⟨edge (by omega), hol⟩
        case inr hol => exact .inr ⟨edge' (by omega), by omega⟩
    · intro ⟨h, h'⟩
      omega

-- Whether an offset of a block lies in an embed of the block or of one of its wrappers.
def isEmbedded (t : Tree) (block : NodeId) (o : Nat) : Bool :=
  (itemAt? Piece.width ((t.children block).flatMap Node.pieces) o).any fun p =>
    p.node?.any (·.kind.isEmbed)

-- In a flat block, only an embed gives what is in it styles of its own.
theorem isEmbedded_of_hasStyle (hb : t.node? block = some b) (hf : Canonical.IsFlat b.children)
    (h : (t.bareGlyphs block)[o]?.any (Glyph.hasStyle tag)) : t.isEmbedded block o := by
  rw [bareGlyphs, ← Node.flatMap_pieces_bareGlyphs, children_of_node? hb] at h
  obtain ⟨g, hg, hs⟩ := (Option.any_eq_true _ _).mp h
  obtain ⟨p, hp, hgp⟩ := Piece.exists_of_bareGlyphs hg
  rw [isEmbedded, children_of_node? hb, hp, Option.any_some]
  obtain ⟨item, host⟩ := p
  cases item with
  | char c =>
    simp only [Piece.bareGlyphs, Piece.glyphs, Option.getD_none, List.mem_singleton] at hgp
    simp [hgp, Glyph.hasStyle] at hs
  | node n =>
    have ha := (Node.Flat.of_isFlat hf).isAtomic (mem_of_itemAt? hp) rfl
    obtain ⟨i, k, cs⟩ := n
    cases k <;> simp_all [Kind.isAtomic, Kind.isBreak, Kind.isEmbed, Piece.node?]
    case lineBreak trailing =>
      cases trailing <;> simp_all [Piece.bareGlyphs, Piece.glyphs, Glyph.hasStyle]

theorem glyphs_clearStyle_of_reach (wf : t.WellFormed) (hb : t.node? block = some b)
    (hl : b.kind.isLeaf = false) (hk : b.isWrapper = false)
    (h : t.clearStyle block span tag = .ok (r, t')) :
    ∃ e left right l r, t.endpoints block span = .ok e ∧ e.offsets t block = (left, right) ∧
      left < right ∧ Draft.Reach b.children e tag left right l r ∧
      ∀ o : Nat, (t'.glyphs block)[o]? = (t.glyphs block)[o]?.map fun g =>
        if (l ≤ o ∧ o < r) ∧
          (itemAt? Node.charCount (t.children block) o).any Node.isStyleable ∧
          ¬(t.bareGlyphs block)[o]?.any (Glyph.hasStyle tag) then g.removeStyle tag
        else g := by
  have ⟨⟨e, left, right⟩, hn, _⟩ := bind_eq_ok.mp ((clearStyle_eq ..).symm.trans h)
  have ⟨hep, ho, hlt, hc⟩ := cover_of_node wf hb hl hn
  have ⟨_, _, content, l, r, h', hre, hreach, hcl⟩ := cleared_clearStyle wf hb hk hn hc hlt tag
  cases h.symm.trans h'
  obtain ⟨as, bs, cs, hp, rfl, rfl, hp'⟩ := hcl
  refine ⟨e, left, right, _, _, hep, ho, hlt, hreach, fun o => ?_⟩
  have hg := Piece.glyphs_clearBetween as bs cs tag o
  rw [← hp', ← hp, ← hre.glyphs hb, Node.flatMap_pieces_glyphs, ← glyphs_of_node? hb,
    Node.flatMap_pieces_bareGlyphs] at hg
  rw [hg, bareGlyphs, children_of_node? hb]
  congr 1
  funext g
  refine if_congr (and_assoc.symm.trans (and_congr_right fun ⟨_, hlt⟩ => ?_)) rfl rfl
  rw [Node.any_itemAt?_pieces]
  rw [hp, Piece.total_append (as ++ bs)]
  omega

theorem glyph_clearStyle (wf : t.WellFormed) (hb : t.node? block = some b)
    (hl : b.kind.isLeaf = false) (hk : b.isWrapper = false)
    (h : t.clearStyle block span tag = .ok (r, t')) (o : Nat) :
    (t'.glyphs block)[o]? = (t.glyphs block)[o]? ∨
      (t'.glyphs block)[o]? = (t.glyphs block)[o]?.map (Glyph.removeStyle tag) := by
  have ⟨_, _, _, _, _, _, _, _, _, hg⟩ := glyphs_clearStyle_of_reach wf hb hl hk h
  rw [hg]
  split
  case isTrue => exact .inr rfl
  case isFalse => exact .inl Option.map_id'

-- What a style is taken from is what lies between the ends of the span, in texts and wrappers of the
-- block, but for what has the style from deeper within; in a flat block, that is in an embed. Every
-- other char, every break, and their order stay as they are. Where the clearing of a single text
-- spills, a char may lose the style as well, but nothing else.
theorem glyphs_clearStyle (wf : t.WellFormed) (hb : t.node? block = some b)
    (hl : b.kind.isLeaf = false) (hk : b.isWrapper = false)
    (h : t.clearStyle block span tag = .ok (r, t')) :
    ∃ e left right, t.endpoints block span = .ok e ∧ e.offsets t block = (left, right) ∧
      (∀ o : Nat, ¬e.Spills t block tag o →
        (t'.glyphs block)[o]? = (t.glyphs block)[o]?.map fun g =>
          if left ≤ o ∧ o < right ∧
            (itemAt? Node.charCount (t.children block) o).any Node.isStyleable ∧
            ¬(t.bareGlyphs block)[o]?.any (Glyph.hasStyle tag) then g.removeStyle tag
          else g) ∧
      (∀ o : Nat, (t'.glyphs block)[o]? = (t.glyphs block)[o]? ∨
        (t'.glyphs block)[o]? = (t.glyphs block)[o]?.map (Glyph.removeStyle tag)) ∧
      (Canonical.IsFlat b.children →
        ∀ o : Nat, (t.bareGlyphs block)[o]?.any (Glyph.hasStyle tag) → t.isEmbedded block o) := by
  obtain ⟨e, left, right, l, r, he, ho, hlt, hreach, hg⟩ := glyphs_clearStyle_of_reach wf hb hl hk h
  refine ⟨e, left, right, he, ho, fun o hns => ?_, glyph_clearStyle wf hb hl hk h,
    fun hf o => isEmbedded_of_hasStyle hb hf⟩
  rw [hg]
  congr 1
  funext g
  have hiff := iff_of_not_spills wf hb hreach ho hlt hns
  exact if_congr ((and_congr_left fun _ => hiff).trans and_assoc) rfl rfl

-- From within a wrapper, past an embed, into the last text.
theorem glyphs_clearStyle_mixed :
    mixed.WellFormed ∧
      (∃ b, mixed.node? ⟨0⟩ = some b ∧ b.kind.isLeaf = false ∧ b.isWrapper = false ∧
        Canonical.IsFlat b.children) ∧
      ∃ r t', mixed.clearStyle ⟨0⟩ ⟨⟨⟨3⟩, 1⟩, ⟨⟨8⟩, 1⟩⟩ "b" = .ok (r, t') ∧
        ∀ o : Nat, (t'.glyphs ⟨0⟩)[o]? = (mixed.glyphs ⟨0⟩)[o]?.map fun g =>
          if 3 ≤ o ∧ o < 9 ∧
            (itemAt? Node.charCount (mixed.children ⟨0⟩) o).any Node.isStyleable ∧
            ¬(mixed.bareGlyphs ⟨0⟩)[o]?.any (Glyph.hasStyle "b") then g.removeStyle "b"
          else g := by
  have wf : mixed.WellFormed := by decide
  have ⟨r, t', h⟩ : ∃ r t', mixed.clearStyle ⟨0⟩ ⟨⟨⟨3⟩, 1⟩, ⟨⟨8⟩, 1⟩⟩ "b" = .ok (r, t') :=
    ⟨_, _, rfl⟩
  have ⟨e, left, right, he, ho, hg, _⟩ := glyphs_clearStyle wf rfl rfl rfl h
  have ho' : Endpoints.offsets ⟨⟨⟨3⟩, 1⟩, ⟨⟨8⟩, 1⟩⟩ mixed ⟨0⟩ = (3, 9) := by decide
  cases he
  cases ho'.symm.trans ho
  exact ⟨wf, ⟨_, rfl, rfl, rfl, by decide⟩, r, t', h, fun o => hg o fun hs => absurd hs.single (by decide)⟩

-- A cell with an embed that has a wrapper within, with the style of the wrapper around it.
def nested : Tree where
  roots := [.mk ⟨0⟩ (.cell "p" 0) [
    .mk ⟨1⟩ (.wrapper (.single "b")) [
      .mk ⟨2⟩ (.text "a") [],
      .mk ⟨3⟩ (.embed "math") [.mk ⟨4⟩ (.wrapper (.single "b")) [.mk ⟨5⟩ (.text "x") []]],
      .mk ⟨6⟩ (.text "c") []]]]
  made := 7

-- The char in the embed keeps the style, though it is in the span and in a wrapper of the block.
theorem clearStyle_nested :
    nested.WellFormed ∧ nested.LeavesEmpty ∧ Canonical.IsFlat (nested.children ⟨0⟩) ∧
      ∃ r t' e, nested.clearStyle ⟨0⟩ ⟨⟨⟨2⟩, 0⟩, ⟨⟨6⟩, 1⟩⟩ "b" = .ok (r, t') ∧
        nested.endpoints ⟨0⟩ ⟨⟨⟨2⟩, 0⟩, ⟨⟨6⟩, 1⟩⟩ = .ok e ∧ e.offsets nested ⟨0⟩ = (0, 3) ∧
        (itemAt? Node.charCount (nested.children ⟨0⟩) 1).any Node.isStyleable ∧
        (t'.glyphs ⟨0⟩)[1]? ≠ (nested.glyphs ⟨0⟩)[1]?.map (Glyph.removeStyle "b") := by
  refine ⟨by decide, by decide, by decide, _, _, _, rfl, rfl, rfl, by decide, by decide⟩

end Tree

end RichText
