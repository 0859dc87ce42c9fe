import RichText.Proofs.Canonical
import RichText.Proofs.Endpoints
import RichText.Proofs.Isolate

namespace RichText

namespace Node

theorem through_append {as : List Node} {n : Node} (h : n.id ∉ as.map id) (bs : List Node) :
    through n.id (as ++ n :: bs) = (as ++ [n], bs) := by
  induction as with
  | nil => simp [through]
  | cons a as ih =>
    simp only [List.map_cons, List.mem_cons, not_or] at h
    simp [through, Ne.symm h.left, ih h.right]

theorem through_append_eq (last : NodeId) (ns : List Node) :
    (through last ns).1 ++ (through last ns).2 = ns := by
  induction ns with
  | nil => rfl
  | cons n ns ih =>
    rw [through]
    split
    case isTrue => rfl
    case isFalse => exact congrArg (n :: ·) ih

theorem segment_append_eq (h : segment first last ns = (before, inside, after)) :
    before ++ inside ++ after = ns := by
  have ht := through_append_eq last (ns.dropWhile (·.id ≠ first))
  simp only [segment, Prod.mk.injEq] at h
  rw [h.right] at ht
  rw [← h.left, List.append_assoc, ht, List.takeWhile_append_dropWhile]

theorem segment_self {as bs : List Node} {n : Node} (h : (idsAll (as ++ n :: bs)).Nodup) :
    segment n.id n.id (as ++ n :: bs) = (as, [n], bs) := by
  have hn := not_mem_of_nodup h
  have ht : through n.id (n :: bs) = ([n], bs) := by simp [through]
  rw [segment, takeWhile_id hn, dropWhile_id hn, ht]

theorem segment_of_nodup {as cs bs : List Node} {n m : Node}
    (h : (idsAll (as ++ n :: cs ++ m :: bs)).Nodup) :
    segment n.id m.id (as ++ n :: cs ++ m :: bs) = (as, n :: cs ++ [m], bs) := by
  have hm := not_mem_of_nodup h
  rw [List.append_assoc, List.cons_append] at h ⊢
  have hn := not_mem_of_nodup h
  have hm : m.id ∉ (n :: cs).map id := fun h => hm (by simp at h ⊢; grind)
  rw [segment, takeWhile_id hn, dropWhile_id hn, ← List.cons_append, through_append hm]

theorem segment_of_ends {xs zs bs : List Node} (hd : (idsAll (xs ++ zs ++ bs)).Nodup)
    (hf : zs.head?.map id = some first) (hl : zs.getLast?.map id = some last) :
    segment first last (xs ++ zs ++ bs) = (xs, zs, bs) := by
  have ⟨x, hx, hxi⟩ := Option.map_eq_some_iff.mp hf
  have ⟨y, hy, hyi⟩ := Option.map_eq_some_iff.mp hl
  have ⟨ys, hys⟩ := List.getLast?_eq_some_iff.mp hy
  subst hxi hyi hys
  cases ys with
  | nil =>
    simp only [List.nil_append, List.head?_cons, Option.some.injEq] at hx
    subst hx
    simpa using segment_self (by simpa using hd)
  | cons z ys =>
    simp only [List.cons_append, List.head?_cons, Option.some.injEq] at hx
    subst hx
    simpa using segment_of_nodup (by simpa using hd)

theorem pieces_addStyle (n : Node) (h : n.isText = false) (tag : String) :
    (n.addStyle tag).pieces = n.pieces.map (Piece.addStyle tag) := by
  have ⟨i, k, cs⟩ := n
  cases k
  case text => contradiction
  case wrapper s =>
    simp [addStyle, withKind, Kind.mapStyles, pieces, Piece.addStyle, Piece.isStyleable]
    intro item _
    cases item <;> simp
  all_goals
    simp [addStyle, withKind, Kind.mapStyles, pieces, items, Piece.addStyle, Piece.isStyleable]

end Node

namespace Draft

section TagAll

variable {n : Node} {run ns : List Node} {tag : String}

theorem tagAll_text (h : n.isText) (next : Nat) :
    tagAll tag run next (n :: ns) = tagAll tag (run ++ [n]) next ns := by
  rw [tagAll, if_pos h]

theorem tagAll_of_not_isText (h : n.isText = false) (next : Nat) :
    tagAll tag run next (n :: ns) =
      ((tagAll.close tag run next).1 ++ n.addStyle tag ::
          (tagAll tag [] (tagAll.close tag run next).2 ns).1,
        (tagAll tag [] (tagAll.close tag run next).2 ns).2) := by
  rw [tagAll, if_neg (by simp [h])]

theorem pieces_close (h : ∀ n ∈ run, n.isText) (next : Nat) :
    (tagAll.close tag run next).1.flatMap Node.pieces =
      (run.flatMap Node.pieces).map (Piece.addStyle tag) := by
  rw [Seat.flatMap_pieces_of_isText h, tagAll.close]
  split
  case isTrue hr => simp [List.isEmpty_iff.mp hr]
  case isFalse =>
    simp only [List.flatMap_singleton, Node.pieces, Node.kind_mk, Node.children_mk, List.map_map]
    refine List.map_congr_left fun item hi => ?_
    obtain ⟨m, hm, hi⟩ := List.mem_flatMap.mp hi
    obtain ⟨s, hs⟩ := Node.isText_iff.mp (h m hm)
    rw [Node.items_text hs] at hi
    obtain ⟨c, _, rfl⟩ := List.mem_map.mp hi
    rfl

theorem pieces_tagAll (h : ∀ n ∈ run, n.isText) (next : Nat) :
    (tagAll tag run next ns).1.flatMap Node.pieces =
      ((run ++ ns).flatMap Node.pieces).map (Piece.addStyle tag) := by
  induction ns generalizing run next with
  | nil => rw [tagAll, pieces_close h, List.append_nil]
  | cons n ns ih =>
    cases hn : n.isText
    case true =>
      have h' : ∀ m ∈ run ++ [n], m.isText := by simpa [or_imp, forall_and, hn] using h
      rw [tagAll_text hn, ih h']
      simp
    case false =>
      have h₀ : ∀ m ∈ ([] : List Node), m.isText := nofun
      have := ih h₀ (tagAll.close tag run next).2
      rw [tagAll_of_not_isText hn]
      simp [pieces_close h, n.pieces_addStyle hn, this]

theorem idsAll_close_perm (tag : String) (run : List Node) (next : Nat) :
    next ≤ (tagAll.close tag run next).2 ∧
      (Node.idsAll (tagAll.close tag run next).1).Perm
        (Node.idsAll run ++ NodeId.given next (tagAll.close tag run next).2) := by
  rw [tagAll.close]
  split
  case isTrue hr => simp [List.isEmpty_iff.mp hr]
  case isFalse => simpa using (List.perm_append_singleton _ _).symm

theorem idsAll_tagAll_perm (tag : String) (run : List Node) (next : Nat) (ns : List Node) :
    next ≤ (tagAll tag run next ns).2 ∧
      (Node.idsAll (tagAll tag run next ns).1).Perm
        (Node.idsAll (run ++ ns) ++ NodeId.given next (tagAll tag run next ns).2) := by
  induction ns generalizing run next with
  | nil => simpa [tagAll] using idsAll_close_perm tag run next
  | cons n ns ih =>
    cases hn : n.isText
    case true =>
      rw [tagAll_text hn]
      simpa using ih (run ++ [n]) next
    case false =>
      have ⟨hle, hc⟩ := idsAll_close_perm tag run next
      have ⟨hle', ht⟩ := ih [] (tagAll.close tag run next).2
      rw [tagAll_of_not_isText hn]
      refine ⟨Nat.le_trans hle hle', List.perm_iff_count.mpr fun i => ?_⟩
      have hc := hc.count_eq i
      have ht := ht.count_eq i
      rw [← NodeId.given_append hle hle']
      simp [Node.addStyle, List.count_append] at hc ht ⊢
      omega

theorem leavesEmptyAll_close (next : Nat) :
    Node.LeavesEmptyAll (tagAll.close tag run next).1 ↔ Node.LeavesEmptyAll run := by
  rw [tagAll.close]
  split
  case isTrue hr => simp [List.isEmpty_iff.mp hr]
  case isFalse => simp

theorem leavesEmptyAll_tagAll (next : Nat) : Node.LeavesEmptyAll (tagAll tag run next ns).1 ↔
    Node.LeavesEmptyAll run ∧ Node.LeavesEmptyAll ns := by
  induction ns generalizing run next with
  | nil => simp [tagAll, leavesEmptyAll_close]
  | cons n ns ih =>
    cases hn : n.isText
    case true => simp [tagAll_text hn, ih, and_assoc]
    case false => simp [tagAll_of_not_isText hn, ih, leavesEmptyAll_close]

end TagAll

section TagBetween

variable {d : Draft} {as ns bs : List Node}

theorem tagBetween_of_segment (hc : d.content = as ++ ns ++ bs)
    (hs : Node.segment first last d.content = (as, ns, bs)) (tag : String) :
    (d.tagBetween first last tag).content.flatMap Node.pieces =
        as.flatMap Node.pieces ++ (ns.flatMap Node.pieces).map (Piece.addStyle tag) ++
          bs.flatMap Node.pieces ∧
      d.Grows (d.tagBetween first last tag) := by
  have ⟨hle, hp⟩ := idsAll_tagAll_perm tag [] d.next ns
  have h₀ : ∀ m ∈ ([] : List Node), m.isText := nofun
  have ht : (tagAll tag [] d.next ns).1.flatMap Node.pieces = _ := pieces_tagAll h₀ d.next
  simp only [tagBetween, hs]
  refine ⟨by simp [ht], .of_count hle (fun he => ?_) (fun _ _ => .inl) fun i => ?_⟩
  case refine_1 =>
    simp [hc] at he ⊢
    exact ⟨he.left, (leavesEmptyAll_tagAll d.next).mpr ⟨by simp, he.right.left⟩, he.right.right⟩
  have := hp.count_eq i
  simp [hc] at this ⊢
  omega

end TagBetween

-- Of the pieces of a draft, those that come after the first list and within the second one get the
-- style, and every other piece stays as it is.
structure TaggedFrom (d d' : Draft) (as as' : List Piece) (tag : String) : Prop where
  pieces : ∃ bs cs, d.content.flatMap Node.pieces = as ++ bs ++ cs ∧ as ++ bs = as' ∧
    d'.content.flatMap Node.pieces = as ++ bs.map (Piece.addStyle tag) ++ cs
  grows : d.Grows d'

-- The pieces between two offsets get the style, and every other piece stays as it is.
structure Tagged (d d' : Draft) (left right : Nat) (tag : String) : Prop where
  pieces : ∃ as bs cs, d.content.flatMap Node.pieces = as ++ bs ++ cs ∧
    Piece.total as = left ∧ Piece.total (as ++ bs) = right ∧
    d'.content.flatMap Node.pieces = as ++ bs.map (Piece.addStyle tag) ++ cs
  grows : d.Grows d'

theorem TaggedFrom.tagged {d d' : Draft} (h : d.TaggedFrom d' as as' tag) :
    d.Tagged d' (Piece.total as) (Piece.total as') tag := by
  obtain ⟨bs, cs, hp, rfl, hp'⟩ := h.pieces
  exact ⟨⟨as, bs, cs, hp, rfl, rfl, hp'⟩, h.grows⟩

section Apply

variable {d : Draft} {n m : Node} {e : Endpoints}

theorem apply_single {s : Seat} (h : d.At s n) (hs : e.start.node = n.id) (ht : e.stop.node = n.id)
    (hlt : e.start.offset < e.stop.offset) (tag : String) :
    d.TaggedFrom (d.apply e tag) (s.upto n e.start.offset) (s.upto n e.stop.offset) tag := by
  have ⟨ns₁, n₁, hi₁, h₁, ht₁, hns₁, hn₁, hg₁⟩ := h.splitStop ht
  have ⟨ns₂, n₂, hi₂, h₂, ht₂, hns₂, hn₂, hg₂⟩ := h₁.splitStart (hs.trans (ht.symm.trans hi₁))
  have ⟨hi₃, hc₃, hg₃⟩ := h₂.isolate hi₂
  have hd := (h₂.sound.of_grows hg₃).nodup_content
  have hseg := hc₃ ▸ Node.segment_self (hc₃ ▸ hd)
  have ⟨hp, hg⟩ := tagBetween_of_segment (by simp [hc₃]) hseg tag
  have hlead : ((s.pushRight ns₁).pushLeft ns₂).lead = s.upto n e.start.offset := by
    rw [Seat.lead_pushLeft ht₂, Seat.lead_pushRight, Seat.seated, hns₂, hn₁, List.take_take,
      Nat.min_eq_left (by omega), Seat.host_pushRight, Seat.upto]
  have hseated : ((s.pushRight ns₁).pushLeft ns₂).seated [n₂] =
      ((n.items.take e.stop.offset).drop e.start.offset).map (⟨·, s.host⟩) := by
    rw [Seat.seated, List.flatMap_singleton, hn₂, hn₁, Seat.host_pushLeft, Seat.host_pushRight]
  rw [Seat.pieces_head, Seat.pieces_tail, List.flatMap_singleton, Seat.pieces_own h₂.isText, hlead,
    hseated] at hp
  rw [Draft.apply, if_pos (hs.trans ht.symm)]
  simp only [hi₃]
  refine ⟨⟨_, _, ?pieces, ?stop, hp⟩, hg₁.trans hg₂ |>.trans hg₃ |>.trans hg⟩
  case stop =>
    rw [Seat.upto, Seat.upto, List.append_assoc, ← Node.map_items_take n s.host (by omega)]
  case pieces =>
    rw [h.content, Seat.pieces_plug (by simpa using h.isText), Seat.rest_pushLeft,
      Seat.rest_pushRight ht₁]
    simp only [Seat.seated, List.flatMap_singleton, hns₁, Seat.upto,
      n.map_items_cut₂ s.host (Nat.le_of_lt hlt), List.append_assoc]

theorem apply_several {p : Stretch} (h : d.Between p n m) (hs : e.start.node = n.id)
    (ht : e.stop.node = m.id) (tag : String) :
    d.TaggedFrom (d.apply e tag) ((p.first [m]).upto n e.start.offset)
      ((p.last [n]).upto m e.stop.offset) tag := by
  have ⟨p₁, n₁, hi₁, h₁, hl₁, hu₁, hp₁, hr₁, hg₁⟩ := h.splitStart hs
  have ⟨p₂, m₂, hi₂, h₂, hl₂, hp₂, ht₂, hg₂⟩ := h₁.splitStop ht
  have ⟨p₃, n₃, hi₃, h₃, hl₃, hp₃, hr₃, hg₃⟩ := h₂.absorbFollowing hi₁ hi₂
  have ⟨as₄, own₄, s₄, hi₄, h₄, hl₄, hp₄, hr₄, hg₄⟩ := h₃.isolate hi₃
  have ⟨s₅, m₅, hi₅, h₅, hp₅, hr₅, hg₅⟩ := h₄.absorbPreceding hi₂
  have ⟨hi₆, hc₆, hg₆⟩ := h₅.isolate hi₅
  have hd := (h₅.sound.of_grows hg₆).nodup_content
  rw [Seat.head_prepend, Seat.tail_prepend, List.append_assoc as₄, List.singleton_append] at hc₆
  have hseg := hc₆ ▸ Node.segment_of_nodup (hc₆ ▸ hd)
  have ⟨hp, hg⟩ := tagBetween_of_segment (by simp [hc₆]) hseg tag
  rw [Draft.apply, if_neg (by rw [hs, ht]; exact h.ne)]
  simp only [hi₄, hi₆]
  have hin : own₄.pieces ++ s₅.lead ++ s₅.seated [m₅] = p₂.inner n₁ m₂ := by
    rw [List.append_assoc, hp₅, ← List.append_assoc, hp₄, hp₃]
  rw [List.flatMap_append, List.flatMap_cons, List.flatMap_singleton, Seat.pieces_head,
    Seat.pieces_own h₅.isText, Seat.seated_prepend, hin, Seat.pieces_tail, hl₄, hl₃, hl₂, hr₅, hr₄,
    hr₃, hl₁] at hp
  refine ⟨⟨_, _, ?pieces, ?stop, hp⟩,
    hg₁.trans hg₂ |>.trans hg₃ |>.trans hg₄ |>.trans hg₅ |>.trans hg₆ |>.trans hg⟩
  case pieces => rw [h.pieces, ← hp₁, ← hr₁, ← hl₁, List.append_assoc, List.append_assoc, hp₂]
  case stop => rw [← hl₁, ← hl₂, ht₂, hu₁]

theorem tagged_apply {cs : List Node} (hs : d.Sound) (hd : d.content = cs)
    (hc : Cover cs e left right) (tag : String) : d.Tagged (d.apply e tag) left right tag := by
  cases hc with
  | @single s n children isText start stop lt le =>
    rw [← Node.length_items isText] at le
    have h := (apply_single ⟨hs, hd.trans children, isText⟩ start stop lt tag).tagged
    rwa [Seat.total_upto isText (by omega), Seat.total_upto isText le] at h
  | @several p n m children firstIsText lastIsText start stop startLe stopLe =>
    rw [← Node.length_items firstIsText] at startLe
    rw [← Node.length_items lastIsText] at stopLe
    have h := (apply_several ⟨hs, hd.trans children, firstIsText, lastIsText⟩ start stop tag).tagged
    rwa [Seat.total_upto firstIsText startLe, Seat.total_upto lastIsText stopLe,
      Stretch.lead_first] at h

end Apply

end Draft

namespace Tree

variable {t : Tree} {block : NodeId} {span : Span}

theorem LeavesEmpty.node (h : t.LeavesEmpty) (hb : t.node? block = some b) : b.LeavesEmpty :=
  fun m hm => h m ((Node.preorderAll_sublist _ (mem_of_node? hb)).subset hm)

theorem LeavesEmpty.leavesEmptyAll (h : t.LeavesEmpty) (hb : t.node? block = some b) :
    Node.LeavesEmptyAll b.children :=
  (h.node hb).children

theorem WellFormed.sound (wf : t.WellFormed) (h : t.node? block = some b) :
    (Draft.mk (t.children block) [] t.made).Sound where
  nodup := by
    have hd := wf.nodup_ids h
    rw [Node.ids_eq, List.nodup_cons] at hd
    simpa [children_of_node? h] using hd.right
  lt i hi := wf.index_lt h <| by
    simp only [children_of_node? h, List.append_nil] at hi
    simp [Node.ids_eq, hi]

theorem node?_redraft (h : t.node? block = some b) (f : Draft → Draft) :
    (t.redraft block f).node? block =
      some (b.withChildren (f ⟨t.children block, [], t.made⟩).content) :=
  node?_replaceChildren h _

-- What a style is added to is what lies between the ends of the span, in texts and wrappers of the
-- block. Every other char, every break, and their order stay as they are.
theorem glyphs_applyStyle (wf : t.WellFormed) (he : t.LeavesEmpty)
    (h : t.applyStyle block span tag = .ok (r, t')) :
    ∃ e left right, t.endpoints block span = .ok e ∧ e.offsets t block = (left, right) ∧
      ∀ o : Nat, (t'.glyphs block)[o]? = (t.glyphs block)[o]?.map fun g =>
        if left ≤ o ∧ o < right ∧
          (itemAt? Node.charCount (t.children block) o).any Node.isStyleable then g.addStyle tag
        else g := by
  have ⟨⟨e, left, right⟩, hn, h⟩ := bind_eq_ok.mp ((applyStyle_eq ..).symm.trans h)
  cases h
  obtain ⟨hep, ho, -, b, hb, hc⟩ := cover_of_nonemptyEndpoints wf he hn
  refine ⟨e, left, right, hep, ho, fun o => ?_⟩
  have htag := Draft.tagged_apply (wf.sound hb) (children_of_node? hb) hc tag
  obtain ⟨as, bs, cs, hp, rfl, rfl, hp'⟩ := htag.pieces
  have hnode := node?_canonicalize (node?_redraft hb (·.apply e tag))
  simp only [children_of_node? hb] at hp hp' hnode ⊢
  rw [glyphs_of_node? hnode, glyphs_of_node? hb]
  simp only [Node.children_withChildren]
  rw [Canonical.glyphs_canonicalize, ← Node.flatMap_pieces_glyphs, hp',
    Piece.glyphs_between (Piece.total_map_addStyle tag) (Piece.glyphs_map_addStyle tag _), ← hp,
    Node.flatMap_pieces_glyphs]
  congr 1
  funext g
  refine if_congr (and_congr_right fun _ => and_congr_right fun hlt => ?_) rfl rfl
  rw [Node.any_itemAt?_pieces]
  rw [hp, Piece.total_append (as ++ bs)]
  omega

def mixed : Tree where
  roots := [.mk ⟨0⟩ (.cell "p" 0) [
    .mk ⟨1⟩ (.text "ab") [],
    .mk ⟨2⟩ (.wrapper (.single "b")) [
      .mk ⟨3⟩ (.text "cd") [],
      .mk ⟨4⟩ (.lineBreak false) [],
      .mk ⟨5⟩ (.text "ef") []],
    .mk ⟨6⟩ (.embed "math") [.mk ⟨7⟩ (.text "x") []],
    .mk ⟨8⟩ (.text "gh") []]]
  made := 9

-- From within the wrapper, past the embed, into the last text.
theorem glyphs_applyStyle_mixed :
    mixed.WellFormed ∧ mixed.LeavesEmpty ∧
      ∃ r t', mixed.applyStyle ⟨0⟩ ⟨⟨⟨3⟩, 1⟩, ⟨⟨8⟩, 1⟩⟩ "i" = .ok (r, t') ∧
        ∃ e left right, mixed.endpoints ⟨0⟩ ⟨⟨⟨3⟩, 1⟩, ⟨⟨8⟩, 1⟩⟩ = .ok e ∧
          e.offsets mixed ⟨0⟩ = (left, right) ∧
          ∀ o : Nat, (t'.glyphs ⟨0⟩)[o]? = (mixed.glyphs ⟨0⟩)[o]?.map fun g =>
            if left ≤ o ∧ o < right ∧
              (itemAt? Node.charCount (mixed.children ⟨0⟩) o).any Node.isStyleable then
              g.addStyle "i"
            else g := by
  have wf : mixed.WellFormed := by decide
  have he : mixed.LeavesEmpty := by decide
  exact ⟨wf, he, _, _, rfl, glyphs_applyStyle wf he rfl⟩

end Tree

end RichText
