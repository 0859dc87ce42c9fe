import RichText.Proofs.Commute
import RichText.Proofs.Resting

namespace RichText

theorem mapIdx_eq_map {f : Nat → α → β} {g : α → β} {as : List α}
    (h : ∀ k a, k < as.length → f k a = g a) : as.mapIdx f = as.map g := by
  refine List.ext_getElem? fun k => ?_
  rw [List.getElem?_mapIdx, List.getElem?_map]
  exact Option.map_congr fun a ha => h k a (List.getElem?_eq_some_iff.mp ha).choose

namespace Piece

variable {p : Piece} {ps : List Piece} {tag : String} {left right left' right' : Nat}

def settle (p : Piece) : Piece :=
  if p.host = some ∅ then { p with host := none } else p

@[simp]
theorem item_settle (p : Piece) : p.settle.item = p.item := by
  rw [settle]
  split <;> rfl

theorem settle_of_host (h : p.host ≠ some ∅) : p.settle = p :=
  if_neg h

theorem host_settle (p : Piece) : p.settle.host ≠ some ∅ := by
  rw [settle]
  split
  case isTrue => nofun
  case isFalse h => exact h

theorem settle_settle (p : Piece) : p.settle.settle = p.settle :=
  settle_of_host p.host_settle

theorem map_settle (h : ∀ p ∈ ps, p.host ≠ some ∅) : ps.map settle = ps :=
  List.map_congr_left (fun p hp => settle_of_host (h p hp)) |>.trans (List.map_id ps)

theorem loosen_of_isAtomic (h : ∀ n ∈ p.node?, n.kind.isAtomic) : p.loosen = [p.settle] := by
  have ⟨item, host⟩ := p
  rw [loosen, settle]
  split
  case isFalse => rfl
  case isTrue =>
    cases item with
    | char => rfl
    | node n => exact Node.pieces_of_isAtomic (h n rfl)

theorem host_of_not_isStyleable (h : p.isStyleable = false) : p.host = none := by
  have ⟨item, host⟩ := p
  cases item with
  | char => contradiction
  | node => simpa [isStyleable] using h

theorem addStyle_of_not_isStyleable (h : p.isStyleable = false) : p.addStyle tag = p :=
  if_neg (by simp [h])

theorem settle_addStyle (tag : String) (p : Piece) : (p.addStyle tag).settle = p.addStyle tag := by
  refine settle_of_host fun e => ?_
  cases hs : p.isStyleable
  case false => simp [addStyle_of_not_isStyleable hs, host_of_not_isStyleable hs] at e
  case true =>
    rw [host_addStyle hs, Option.some_inj] at e
    have hm : tag ∈ (p.host.getD ∅).insert tag := by simp
    simp [e] at hm

theorem addStyle_addStyle (tag : String) (p : Piece) :
    (p.addStyle tag).addStyle tag = p.addStyle tag := by
  cases hs : p.isStyleable
  case false => rw [addStyle_of_not_isStyleable hs, addStyle_of_not_isStyleable hs]
  case true =>
    have hi (styles : StyleSet) : (styles.insert tag).insert tag = styles.insert tag :=
      StyleSet.ext fun u => by simp
    rw [addStyle, isStyleable_addStyle, if_pos hs, host_addStyle hs, Option.getD_some, hi,
      addStyle, if_pos hs]

-- The pieces from one index to another get a style, and all wrappers without styles are taken out.
def restyle (tag : String) (left right : Nat) (ps : List Piece) : List Piece :=
  ps.mapIdx fun k p => (if left ≤ k ∧ k < right then p.addStyle tag else p).settle

theorem map_item_restyle : (restyle tag left right ps).map item = ps.map item := by
  refine List.ext_getElem? fun k => ?_
  simp only [restyle, List.getElem?_map, List.getElem?_mapIdx, Option.map_map]
  refine Option.map_congr fun p _ => ?_
  simp only [Function.comp_apply, item_settle]
  split <;> simp

theorem restyle_append (as bs cs : List Piece) :
    restyle tag as.length (as ++ bs).length (as ++ bs ++ cs) =
      as.map settle ++ (bs.map (addStyle tag)).map settle ++ cs.map settle := by
  rw [restyle, List.mapIdx_append, List.mapIdx_append, List.map_map, List.length_append]
  congr 1
  case e_a =>
    congr 1
    case e_a => exact mapIdx_eq_map fun k p hk => by rw [if_neg (by omega)]
    case e_a => exact mapIdx_eq_map fun k p hk => by rw [if_pos (by omega)]; rfl
  case e_a => exact mapIdx_eq_map fun k p hk => by rw [if_neg (by omega)]

theorem restyle_restyle (hl : left ≤ left') (hr : Lacks isStyleable ps right right') :
    restyle tag left' right' (restyle tag left right ps) = restyle tag left right ps := by
  refine List.ext_getElem? fun k => ?_
  simp only [restyle, List.getElem?_mapIdx, Option.map_map]
  refine Option.map_congr fun p hp => ?_
  simp only [Function.comp_apply]
  by_cases hin : left' ≤ k ∧ k < right'
  case neg => rw [if_neg hin, settle_settle]
  case pos =>
    rw [if_pos hin, settle_addStyle]
    by_cases hlt : k < right
    case pos => rw [if_pos ⟨by omega, hlt⟩, settle_addStyle, addStyle_addStyle]
    case neg =>
      have hs := hr k p (by omega) hin.right hp
      have he : p.settle = p := settle_of_host (by simp [host_of_not_isStyleable hs])
      rw [if_neg (by omega), he, addStyle_of_not_isStyleable hs]

end Piece

namespace Canonical

variable {ns : List Node} (h : ∀ p ∈ ns.flatMap Node.pieces, ∀ n ∈ p.node?, n.kind.isAtomic)

include h

-- Where wrappers hold texts, breaks and embeds, all that the pieces show is that wrappers without
-- styles are taken out.
theorem pieces_canonicalize_of_isAtomic :
    (canonicalize ns).kept.flatMap Node.pieces = (ns.flatMap Node.pieces).map Piece.settle := by
  have hr : ((canonicalize ns).kept.flatMap Node.pieces).map Piece.settle =
      (ns.flatMap Node.pieces).map Piece.settle := by
    refine rounds_induction (q := fun ms => (ms.flatMap Node.pieces).map Piece.settle =
      (ns.flatMap Node.pieces).map Piece.settle) (fun ms hm => ?_) _ ns rfl
    have hi := congrArg (List.map Piece.item) hm
    simp only [List.map_map, Function.comp_def, Piece.item_settle] at hi
    have hl : ∀ p ∈ ms.flatMap Node.pieces, p.loosen = [p.settle] := fun p hp =>
      Piece.loosen_of_isAtomic (Piece.forall_node?_of_item hi h p hp)
    rw [← hm, pieces_round, List.flatMap_congr hl, List.map_flatMap, List.map_eq_flatMap]
    exact List.flatMap_congr fun p _ => by simp [Piece.settle_settle]
  rw [← hr, Piece.map_settle fun p hp => (isCanonical_canonicalize ns).host_ne_empty hp]

theorem isFlat_canonicalize : IsFlat (canonicalize ns).kept := by
  refine .of_isAtomic (isCanonical_canonicalize ns) (Piece.forall_node?_of_item ?_ h)
  simp only [pieces_canonicalize_of_isAtomic h, List.map_map, Function.comp_def, Piece.item_settle]

end Canonical

namespace Draft

variable {d d' : Draft} {as as' : List Piece} {tag : String}

theorem TaggedFrom.restyle (h : d.TaggedFrom d' as as' tag) :
    (d'.content.flatMap Node.pieces).map Piece.settle =
      Piece.restyle tag as.length as'.length (d.content.flatMap Node.pieces) := by
  obtain ⟨bs, cs, hp, rfl, hp'⟩ := h.pieces
  rw [hp', hp, Piece.restyle_append, List.map_append, List.map_append]

theorem taggedFrom_apply {b n m : Node} {s s' : Seat} {e : Endpoints} (hs : d.Sound)
    (hd : d.content = b.children) (hp : Tree.Perch b e.start s n) (hq : Tree.Perch b e.stop s' m)
    (hlt : Piece.total s.lead + e.start.offset < Piece.total s'.lead + e.stop.offset)
    (tag : String) :
    d.TaggedFrom (d.apply e tag) (s.upto n e.start.offset) (s'.upto m e.stop.offset) tag := by
  obtain ⟨rfl, rfl, hlt⟩ | ⟨p, rfl, rfl⟩ := hp.same_or_before hq hlt
  case inl => exact apply_single ⟨hs, hd.trans hp.children, hp.isText⟩ hp.node hq.node hlt tag
  case inr =>
    have hc := hd.trans (hp.children.trans (p.plug_first [n] [m]))
    exact apply_several ⟨hs, hc, hp.isText, hq.isText⟩ hp.node hq.node tag

end Draft

namespace Piece

-- The pieces before the next char, if a walk with no offsets left takes no notice of any of them.
def mutes? : List (Option Piece) → Option (List Piece)
  | [] => none
  | none :: bs => mutes? bs
  | some p :: bs =>
    if p.isChar then some [] else if p.isMute then (mutes? bs).map (p :: ·) else none

end Piece

namespace Node

-- Where embeds without texts and breaks are all that is between an empty text and the next char, no
-- wrapper is around them.
def Smooth (ns : List Node) : Prop :=
  ∀ bs ∈ (beatsAll ns).tails, bs.head?.any Option.isNone →
    ∀ ps ∈ Piece.mutes? bs, ∀ p ∈ ps, p.isStyleable = false

instance (ns : List Node) : Decidable (Smooth ns) :=
  inferInstanceAs (Decidable (∀ bs ∈ (beatsAll ns).tails, _))

theorem beatsAll_of_isCanonical {ns : List Node} (h : Canonical.IsCanonical ns) :
    beatsAll ns = (ns.flatMap pieces).map some := by
  rw [beatsAll, List.map_flatMap]
  refine List.flatMap_congr fun n hn => ?_
  have hi := h.mergedInside n hn
  have he := h.merged.nonempty n hn
  obtain ⟨i, k, cs⟩ := n
  cases k with
  | wrapper styles =>
    rw [pieces_wrapper rfl, List.map_flatMap, List.map_flatMap]
    exact List.flatMap_congr fun m hm => beats_of_not_isEmptyText ((hi rfl).nonempty m hm)
  | _ => exact beats_of_not_isEmptyText he

end Node

namespace Rest

variable {k r : Nat} {bs : List (Option Piece)} {ps qs : List Piece}

theorem walk_of_item (h : ps.map Piece.item = qs.map Piece.item) :
    walk k r (ps.map some) = walk k r (qs.map some) := by
  induction ps generalizing qs k r with
  | nil => rw [List.map_eq_nil_iff.mp h.symm]
  | cons p ps ih =>
    cases qs with
    | nil => contradiction
    | cons q qs =>
      rw [List.map_cons, List.map_cons] at h
      injection h with h hs
      rw [List.map_cons, List.map_cons]
      cases hi : q.item with
      | char => rw [walk_char (h.trans hi), walk_char hi, ih hs]
      | node n =>
        cases hp : Leaf.pass (none, r) (n.leaves none []) with
        | error => rw [walk_error (h.trans hi) hp, walk_error hi hp]
        | ok => rw [walk_ok (h.trans hi) hp, walk_ok hi hp, ih hs]

-- Without the gaps a walk comes to rest in the same way, unless it did so in one of them. From that
-- one it then goes on with no offsets left.
theorem walk_reduceOption (k r : Nat) (bs : List (Option Piece)) :
    walk k r (bs.reduceOption.map some) = walk k r bs ∨
    ∃ as cs, bs = as ++ none :: cs ∧ walk k r bs = within (k + as.reduceOption.length) true ∧
      walk k r (bs.reduceOption.map some) =
        walk (k + as.reduceOption.length) 0 (cs.reduceOption.map some) := by
  induction bs generalizing k r with
  | nil => exact .inl rfl
  | cons b bs ih =>
    cases b with
    | none =>
      rw [List.reduceOption_cons_of_none, walk]
      split
      case isTrue hr => subst hr; exact .inr ⟨[], bs, rfl, rfl, rfl⟩
      case isFalse =>
        obtain h | ⟨as, cs, rfl, h, h'⟩ := ih k r
        case inl => exact .inl h
        case inr => exact .inr ⟨none :: as, cs, rfl, h, h'⟩
    | some p =>
      rw [List.reduceOption_cons_of_some, List.map_cons]
      have hlen (as : List (Option Piece)) :
          k + 1 + as.reduceOption.length = k + (some p :: as).reduceOption.length := by
        rw [List.reduceOption_cons_of_some, List.length_cons]
        omega
      cases hi : p.item with
      | char =>
        rw [walk_char hi, walk_char hi]
        split
        case isTrue => exact .inl rfl
        case isFalse =>
          obtain h | ⟨as, cs, rfl, h, h'⟩ := ih (k + 1) (r - 1)
          case inl => exact .inl h
          case inr => exact .inr ⟨some p :: as, cs, rfl, hlen as ▸ h, hlen as ▸ h'⟩
      | node n =>
        cases hp : Leaf.pass (none, r) (n.leaves none []) with
        | error => exact .inl ((walk_error hi hp).trans (walk_error hi hp).symm)
        | ok progress =>
          rw [walk_ok hi hp, walk_ok hi hp]
          obtain h | ⟨as, cs, rfl, h, h'⟩ := ih (k + 1) progress.2
          case inl => exact .inl h
          case inr => exact .inr ⟨some p :: as, cs, rfl, hlen as ▸ h, hlen as ▸ h'⟩

theorem walk_zero (k : Nat) (bs : List (Option Piece)) :
    ∃ qs rs, bs.reduceOption = qs ++ rs ∧ (∀ q ∈ qs, q.isChar = false) ∧
      (walk k 0 (bs.reduceOption.map some) = beside (k + qs.length) ∨
        walk k 0 (bs.reduceOption.map some) = within (k + qs.length) false ∧
          Piece.mutes? bs = some qs) := by
  induction bs generalizing k with
  | nil => exact ⟨[], [], rfl, nofun, .inl rfl⟩
  | cons b bs ih =>
    cases b with
    | none => exact ih k
    | some p =>
      rw [List.reduceOption_cons_of_some, List.map_cons]
      cases hi : p.item with
      | char c =>
        have hc : p.isChar := by simp [Piece.isChar, Piece.node?, hi]
        exact ⟨[], _, rfl, nofun, .inr ⟨walk_char hi, if_pos hc⟩⟩
      | node n =>
        have hn : p.node? = some n := by rw [Piece.node?, hi]
        have hc : p.isChar = false := by rw [Piece.isChar, hn]; rfl
        cases hp : Leaf.pass (none, 0) (n.leaves none []) with
        | error => exact ⟨[], _, rfl, nofun, .inl (walk_error hi hp)⟩
        | ok progress =>
          rw [walk_ok hi hp]
          obtain ⟨rfl, hl⟩ := Leaf.pass_zero hp
          have hm : p.isMute := by
            rw [Piece.isMute, hn, Option.any_some, List.all_eq_true]
            exact fun l hm => by simp [hl l hm]
          obtain ⟨qs, rs, e, hq, hw⟩ := ih (k + 1)
          have hlen : k + 1 + qs.length = k + (p :: qs).length := by
            rw [List.length_cons]
            omega
          refine ⟨p :: qs, rs, by rw [e, List.cons_append], List.forall_mem_cons.mpr ⟨hc, hq⟩, ?_⟩
          rw [Piece.mutes?, if_neg (by simp [hc]), if_pos hm, ← hlen]
          exact hw.imp_right fun h => ⟨h.left, by rw [h.right]; rfl⟩

-- How far a walk goes on once the content is in canonical form: not at all, or from an empty text.
inductive Drift (ns : List Node) : Rest → Rest → Prop
  | same (r : Rest) : Drift ns r r
  | zero {r r' : Rest} (index : r.index = 0) (index' : r'.index = 0) : Drift ns r r'
  | past {k k' : Nat} (le : k ≤ k')
    (lacks : Piece.Lacks Piece.isChar (ns.flatMap Node.pieces) k k') :
    Drift ns (within k true) (beside k')
  | across {k k' : Nat} (le : k ≤ k')
    (lacks : Node.Smooth ns → Piece.Lacks Piece.isStyleable (ns.flatMap Node.pieces) k k') :
    Drift ns (within k true) (within k' false)

theorem drift_walk (ns : List Node) (r : Nat) : Drift ns (walk 0 r (Node.beatsAll ns))
    (walk 0 r ((ns.flatMap Node.pieces).map some)) := by
  rw [← Node.reduceOption_beatsAll]
  obtain e | ⟨as, cs, e, hw, hw'⟩ := walk_reduceOption 0 r (Node.beatsAll ns)
  case inl => exact e ▸ .same _
  case inr =>
    obtain ⟨qs, rs, hq, hc, hz⟩ := walk_zero (0 + as.reduceOption.length) cs
    have hp : ns.flatMap Node.pieces = as.reduceOption ++ qs ++ rs := by
      rw [← Node.reduceOption_beatsAll, e, List.reduceOption_append,
        List.reduceOption_cons_of_none, hq, List.append_assoc]
    have hle : as.reduceOption.length ≤ (as.reduceOption ++ qs).length := by simp
    rw [hw, hw']
    rw [Nat.zero_add, ← List.length_append] at hz
    rw [Nat.zero_add]
    obtain hz | ⟨hz, hm⟩ := hz
    case inl => exact hz ▸ .past hle (hp ▸ .mid hc)
    case inr =>
      have ht : none :: cs ∈ (Node.beatsAll ns).tails := by simp [e]
      exact hz ▸ .across hle fun h => hp ▸ .mid (h _ ht rfl qs hm)

end Rest

namespace Tree

variable {t t' : Tree} {block : NodeId} {b b' n m : Node} {s s' : Seat} {p p' q q' : Position}
  {k : Nat}

theorem Perch.not_lacks {left right : Nat} (h : Perch b p s n) (hk : k < n.charCount)
    (hl : left ≤ s.lead.length + k) (hr : s.lead.length + k < right) :
    ¬Piece.Lacks Piece.isChar (b.children.flatMap Node.pieces) left right := by
  intro hlacks
  rw [← Node.length_items h.isText] at hk
  have hlen : k < (s.seated [n]).length := by simpa [Seat.seated] using hk
  have hp : (b.children.flatMap Node.pieces)[s.lead.length + k]? = some (s.seated [n])[k] := by
    rw [h.children, Seat.pieces_plug (by simpa using h.isText),
      List.getElem?_append_left (by simpa using hlen),
      List.getElem?_append_right (Nat.le_add_right _ _), Nat.add_sub_cancel_left,
      List.getElem?_eq_getElem hlen]
  have hm := List.getElem_mem hlen
  generalize (s.seated [n])[k] = c at hp hm
  rw [Seat.seated, List.flatMap_singleton] at hm
  have hc := Node.isChar_of_mem_items h.isText hm
  simp [hlacks _ c hl hr hp] at hc

section Rest

variable (wf : t.WellFormed) (hb : t.node? block = some b)

include wf hb

theorem Perch.unique (hp : Perch b p s n) (hq : Perch b p s' m) : s = s' ∧ n = m := by
  have hi := hp.node.symm.trans hq.node
  have apart {p : Stretch} {n m : Node} (hc : b.children = p.plug [n] [m]) (hn : n.isText)
      (hm : m.isText) : n.id ≠ m.id :=
    (Draft.Between.mk (wf.sound hb) ((children_of_node? hb).trans hc) hn hm).ne
  obtain h | ⟨r, rfl, -⟩ | ⟨r, rfl, -⟩ :=
    Seat.same_or_stretch (hp.children.symm.trans hq.children) hp.isText hq.isText
  case inl => exact h
  case inr.inl =>
    exact absurd hi (apart (hp.children.trans (r.plug_first ..)) hp.isText hq.isText)
  case inr.inr =>
    exact absurd hi.symm (apart (hq.children.trans (r.plug_first ..)) hq.isText hp.isText)

theorem Perch.spot (h : Perch b p s n) : t.spot b p = .ok (s.spot b n p.offset) := by
  have hs := wf.spot_seat hb h.children (Node.extent_of_isText h.isText ▸ h.le)
  rwa [← h.node] at hs

theorem Rests.within {isEmpty : Bool} {move : Spot → Except SpanFault Spot}
    (h : t.Rests b p (.within k isEmpty)) (hm : ∀ {s : Seat} {n : Node} {k : Nat}, n.isText →
      move (s.spot b n k) = .ok (s.spot b n k))
    (hs : t.LeadsTo b move p q) (hq : Perch b q s n) : s.lead.length + q.offset = k := by
  obtain ⟨s', m, hp, -, e⟩ := h
  obtain ⟨u, v, hu, hv, -, rfl⟩ := hs
  cases (hp.spot wf hb).symm.trans hu
  cases (hm hp.isText).symm.trans hv
  rw [hp.position_spot] at hq ⊢
  obtain ⟨rfl, rfl⟩ := hp.unique wf hb hq
  exact e

theorem Rests.start_beside (h : t.Rests b p (.beside k)) (hs : t.LeadsTo b Spot.toStart p q)
    (hq : Perch b q s n) : q.offset = 0 ∧ k ≤ s.lead.length ∧
      Piece.Lacks Piece.isChar (b.children.flatMap Node.pieces) k s.lead.length := by
  obtain ⟨s', m, hp, hz, hk, hl⟩ := Beside.start h q hs
  obtain ⟨rfl, rfl⟩ := hp.unique wf hb hq
  exact ⟨hz, hk, hl⟩

theorem Rests.stop_beside (h : t.Rests b p (.beside k)) (hs : t.LeadsTo b Spot.toStop p q)
    (hq : Perch b q s n) : q.offset = n.charCount ∧ s.lead.length + n.charCount ≤ k ∧
      Piece.Lacks Piece.isChar (b.children.flatMap Node.pieces)
        (s.lead.length + n.charCount) k := by
  obtain ⟨s', m, hp, hz, hk, hl⟩ := Beside.stop h q hs
  obtain ⟨rfl, rfl⟩ := hp.unique wf hb hq
  exact ⟨hz, hk, hl⟩

section Drift

variable (wf' : t'.WellFormed) (hb' : t'.node? block = some b')
  (hc : Canonical.IsCanonical b'.children)
  (hi : (b'.children.flatMap Node.pieces).map Piece.item =
    (b.children.flatMap Node.pieces).map Piece.item)
  {r r' : Rest} (hd : Rest.Drift b.children r r') (h : t.Rests b p r)
  (h' : t'.Rests b' p' r') (hp : Perch b q s n) (hp' : Perch b' q' s' m)

include wf' hb' hc hi hd h h' hp hp'

theorem start_le (hs : t.LeadsTo b Spot.toStart p q) (hs' : t'.LeadsTo b' Spot.toStart p' q') :
    s.lead.length + q.offset ≤ s'.lead.length + q'.offset := by
  have hpos : 0 < m.charCount :=
    Node.charCount_of_isText_pos hp'.isText (Node.items_ne_nil (hc.not_isEmptyText hp'.children))
  -- Where it came by no char to get there, it cannot have left one out.
  have beside {k : Nat} (h : t.Rests b p (.beside k)) (hk : k ≤ s'.lead.length) :
      s.lead.length + q.offset ≤ s'.lead.length + q'.offset := by
    obtain ⟨hz, -, hl⟩ := h.start_beside wf hb hs hp
    by_contra hlt
    exact hp'.not_lacks hpos hk (by omega) (hl.of_item hi)
  cases hd with
  | same r =>
    cases r with
    | within =>
      rw [h.within wf hb Seat.toStart_spot hs hp, h'.within wf' hb' Seat.toStart_spot hs' hp']
    | beside => exact beside h (h'.start_beside wf' hb' hs' hp').right.left
  | zero hz =>
    cases r with
    | within =>
      have e := h.within wf hb Seat.toStart_spot hs hp
      rw [Rest.index] at hz
      omega
    | beside k =>
      obtain rfl : k = 0 := hz
      exact beside h (Nat.zero_le _)
  | past le =>
    have e := h.within wf hb Seat.toStart_spot hs hp
    have hk := (h'.start_beside wf' hb' hs' hp').right.left
    omega
  | across le =>
    have e := h.within wf hb Seat.toStart_spot hs hp
    have e' := h'.within wf' hb' Seat.toStart_spot hs' hp'
    omega

-- A stop comes to lie past nothing more that can be styled, unless it was in an empty text.
theorem lacks_stop (hs : t.LeadsTo b Spot.toStop p q) (hs' : t'.LeadsTo b' Spot.toStop p' q')
    (hsmooth : (t.node? p.node).any Node.isEmptyText → Node.Smooth b.children) :
    Piece.Lacks Piece.isStyleable (b.children.flatMap Node.pieces) (s.lead.length + q.offset)
      (s'.lead.length + q'.offset) := by
  have hpos : 0 < m.charCount :=
    Node.charCount_of_isText_pos hp'.isText (Node.items_ne_nil (hc.not_isEmptyText hp'.children))
  -- Beside some pieces it has the last char of a text right before it, which it passed before.
  have beside {k k' : Nat} (h' : t'.Rests b' p' (.beside k'))
      (hl : Piece.Lacks Piece.isChar (b.children.flatMap Node.pieces) k k') :
      s'.lead.length + q'.offset ≤ k := by
    obtain ⟨hz, hk', -⟩ := h'.stop_beside wf' hb' hs' hp'
    by_contra hlt
    exact hp'.not_lacks (k := m.charCount - 1) (by omega) (by omega) (by omega) (hl.of_item hi)
  cases hd with
  | same r =>
    cases r with
    | within k =>
      rw [h.within wf hb Seat.toStop_spot hs hp, h'.within wf' hb' Seat.toStop_spot hs' hp']
      exact .empty (Nat.le_refl k)
    | beside k =>
      obtain ⟨hz, -, hl⟩ := h.stop_beside wf hb hs hp
      exact .empty (hz ▸ beside h' hl)
  | zero _ hz =>
    refine .empty (Nat.le_trans ?_ (Nat.zero_le _))
    cases r' with
    | within => rw [h'.within wf' hb' Seat.toStop_spot hs' hp', ← hz, Rest.index]
    | beside =>
      obtain ⟨e, hk, -⟩ := h'.stop_beside wf' hb' hs' hp'
      rw [Rest.index] at hz
      omega
  | past le hl =>
    rw [h.within wf hb Seat.toStop_spot hs hp]
    exact .empty (beside h' hl)
  | across le hl =>
    rw [h.within wf hb Seat.toStop_spot hs hp, h'.within wf' hb' Seat.toStop_spot hs' hp']
    obtain ⟨u, x, hx, he, -⟩ := h
    have hn : t.node? p.node = some x := hx.node ▸ wf.node?_of_mem_preorder hb hx.mem_preorder
    exact hl (hsmooth (by rw [hn, Option.any_some, he]))

end Drift

end Rest

-- What lies between two pieces of a block of flat content gets a style, and the block is brought to
-- canonical form.
structure Inked (t t' : Tree) (block : NodeId) (b : Node) (tag : String) (left right : Nat)
    (cs : List Node) : Prop extends t.Rebuilt t' block cs where
  flat : Canonical.IsFlat cs
  leaves : Node.LeavesEmptyAll cs
  pieces : cs.flatMap Node.pieces = Piece.restyle tag left right (b.children.flatMap Node.pieces)

section Block

variable (wf : t.WellFormed) (hb : t.node? block = some b) (hf : Node.Flat b.children)
  (hl : Node.LeavesEmptyAll b.children)

include wf hb hf hl

theorem inked_apply {e : Endpoints} (hp : Perch b e.start s n) (hq : Perch b e.stop s' m)
    (hlt : Piece.total s.lead + e.start.offset < Piece.total s'.lead + e.stop.offset)
    (tag : String) :
    ∃ cs, t.Inked ((t.redraft block (·.apply e tag)).canonicalize block).2 block b tag
      (s.lead.length + e.start.offset) (s'.lead.length + e.stop.offset) cs := by
  have hch : (Draft.mk (t.children block) [] t.made).content = b.children := children_of_node? hb
  have ht := Draft.taggedFrom_apply (wf.sound hb) hch hp hq hlt tag
  have hr := ht.restyle
  rw [Seat.length_upto (Node.length_items hp.isText ▸ hp.le),
    Seat.length_upto (Node.length_items hq.isText ▸ hq.le), hch] at hr
  have hi := congrArg (List.map Piece.item) hr
  rw [Piece.map_item_restyle, List.map_map, Function.comp_def] at hi
  simp only [Piece.item_settle] at hi
  have ha := Piece.forall_node?_of_item hi fun p hp n hn => hf.isAtomic hp hn
  exact ⟨_, rebuilt_redraft wf hb ht.grows, Canonical.isFlat_canonicalize ha,
    Canonical.leavesEmptyAll_canonicalize (ht.grows.leaves (hch ▸ hl)),
    (Canonical.pieces_canonicalize_of_isAtomic ha).trans hr⟩

theorem exists_drift (hk : b.kind.isLeaf = false) {left right : Nat} {tag : String}
    {cs : List Node} (h : t.Inked t' block b tag left right cs) (o : Nat) :
    ∃ r r', t.Rests b (t.resolve block o) r ∧
      t'.Rests (b.withChildren cs) (t'.resolve block o) r' ∧ Rest.Drift b.children r r' := by
  have hb' := h.node? hb
  have hf' := Node.Flat.of_isFlat h.flat
  obtain rfl | ho := Nat.eq_zero_or_pos o
  case inl =>
    obtain ⟨r, hz, hr⟩ := rests_resolve_zero wf hb hk hf hl
    obtain ⟨r', hz', hr'⟩ := rests_resolve_zero h.wf hb' hk hf' h.leaves
    exact ⟨r, r', hr, hr', .zero hz hz'⟩
  case inr =>
    have hr := rests_resolve_walk wf hb hk hf hl (o := o) (by omega)
    have hr' := rests_resolve_walk h.wf hb' hk hf' h.leaves (o := o) (by omega)
    have hi := congrArg (List.map Piece.item) h.pieces
    rw [Piece.map_item_restyle] at hi
    rw [Node.children_withChildren, Node.beatsAll_of_isCanonical h.flat.canonical,
      Rest.walk_of_item hi] at hr'
    exact ⟨_, _, hr, hr', Rest.drift_walk b.children o⟩

theorem exists_inked (hk : b.kind.isLeaf = false) (start stop : Nat) (tag : String) :
    t.applyBetween block start stop tag = t ∨ ∃ (e : Endpoints) (s : Seat) (n : Node) (s' : Seat)
      (m : Node) (cs : List Node),
      (t.LeadsTo b Spot.toStart (t.resolve block start) e.start ∧
        t.LeadsTo b Spot.toStop (t.resolve block stop) e.stop) ∧
      (Perch b e.start s n ∧ Perch b e.stop s' m) ∧
      t.Inked (t.applyBetween block start stop tag) block b tag (s.lead.length + e.start.offset)
        (s'.lead.length + e.stop.offset) cs := by
  rw [applyBetween, apply_eq, applyStyle_eq]
  cases h : t.nonemptyEndpoints block (t.span block start stop) with
  | error => exact .inl rfl
  | ok r =>
    obtain ⟨e, left, right⟩ := r
    obtain ⟨he, ho, hlt, -⟩ := cover_of_node wf hb hk h
    obtain ⟨b', s, n, s', m, hb', hp, hq⟩ := perch_of_endpoints he
    cases hb.symm.trans hb'
    rw [Endpoints.offsets, hp.offsetOf wf hb hk, hq.offsetOf wf hb hk, Prod.mk.injEq] at ho
    rw [← ho.left, ← ho.right] at hlt
    obtain ⟨cs, hi⟩ := inked_apply wf hb hf hl hp hq hlt tag
    exact .inr ⟨e, s, n, s', m, cs, leadsTo_of_endpoints hb he, ⟨hp, hq⟩, hi⟩

-- To add a style for a second time changes nothing.
theorem innerMarkup_applyBetween_twice (hk : b.kind.isLeaf = false) (start stop : Nat)
    (tag : String)
    (hs : (t.node? (t.resolve block stop).node).any Node.isEmptyText → Node.Smooth b.children) :
    ((t.applyBetween block start stop tag).applyBetween block start stop tag).innerMarkup block =
      (t.applyBetween block start stop tag).innerMarkup block := by
  obtain h | ⟨e, s, n, u, m, cs, ⟨hstart, hstop⟩, ⟨hp, hq⟩, h⟩ :=
    exists_inked wf hb hf hl hk start stop tag
  case inl => rw [h, h]
  case inr =>
    have hb' := h.node? hb
    have hf' := Node.Flat.of_isFlat h.flat
    obtain h' | ⟨e', s', n', u', m', cs', ⟨hstart', hstop'⟩, ⟨hp', hq'⟩, h'⟩ :=
      exists_inked h.wf hb' hf' h.leaves hk start stop tag
    case inl => rw [h']
    case inr =>
      have hi := congrArg (List.map Piece.item) h.pieces
      rw [Piece.map_item_restyle] at hi
      have hc := h.flat.canonical
      obtain ⟨r, r', hr, hr', hd⟩ := exists_drift wf hb hf hl hk h start
      have hle := start_le wf hb h.wf hb' hc hi hd hr hr' hp hp' hstart hstart'
      obtain ⟨r, r', hr, hr', hd⟩ := exists_drift wf hb hf hl hk h stop
      have hlacks := lacks_stop wf hb h.wf hb' hc hi hd hr hr' hq hq' hstop hstop' hs
      have hpieces : cs'.flatMap Node.pieces = cs.flatMap Node.pieces := by
        rw [h'.pieces, Node.children_withChildren, h.pieces, Piece.restyle_restyle hle hlacks]
      rw [innerMarkup_eq_pieces (h'.node? hb') h'.flat.canonical, innerMarkup_eq_pieces hb' hc,
        Node.children_withChildren, hpieces, Node.children_withChildren]

end Block

-- A block with an empty text between a break and an embed, and a wrapper without styles.
def uncombed : Tree where
  roots := [.mk ⟨0⟩ (.block "p" 0 true) [
    .mk ⟨1⟩ (.text "ab") [],
    .mk ⟨2⟩ (.lineBreak false) [],
    .mk ⟨3⟩ (.text "") [],
    .mk ⟨4⟩ (.embed "math") [],
    .mk ⟨5⟩ (.wrapper (.single "i")) [
      .mk ⟨6⟩ (.text "cd") [],
      .mk ⟨7⟩ (.lineBreak false) []],
    .mk ⟨8⟩ (.wrapper ∅) [.mk ⟨9⟩ (.text "ef") []]]]
  made := 10

-- The stop leads to the empty text at first, and past the embed into the wrapper later on.
theorem innerMarkup_applyBetween_twice_uncombed :
    ∃ b, uncombed.node? ⟨0⟩ = some b ∧ ¬Canonical.IsCanonical b.children ∧
      (uncombed.node? (uncombed.resolve ⟨0⟩ 3).node).any Node.isEmptyText ∧
      ((uncombed.applyBetween ⟨0⟩ 1 3 "b").applyBetween ⟨0⟩ 1 3 "b").innerMarkup ⟨0⟩ =
        (uncombed.applyBetween ⟨0⟩ 1 3 "b").innerMarkup ⟨0⟩ ∧
      (uncombed.applyBetween ⟨0⟩ 1 3 "b").innerMarkup ⟨0⟩ ≠ uncombed.innerMarkup ⟨0⟩ := by
  have wf : uncombed.WellFormed := by decide
  have hb : uncombed.node? ⟨0⟩ = some _ := rfl
  have hf : Node.Flat (uncombed.children ⟨0⟩) := ⟨by decide, by decide⟩
  have hl : Node.LeavesEmptyAll (uncombed.children ⟨0⟩) := by decide
  have hs : Node.Smooth (uncombed.children ⟨0⟩) := by decide
  exact ⟨_, hb, by decide, by decide,
    innerMarkup_applyBetween_twice wf hb hf hl rfl 1 3 "b" fun _ => hs, by decide +kernel⟩

def snagged : Tree where
  roots := [.mk ⟨0⟩ (.block "p" 0 true) [
    .mk ⟨1⟩ (.text "abc") [],
    .mk ⟨2⟩ (.wrapper (.single "i")) [
      .mk ⟨3⟩ (.lineBreak false) [],
      .mk ⟨4⟩ (.text "") [],
      .mk ⟨5⟩ (.embed "math") []],
    .mk ⟨6⟩ (.text "def") []]]
  made := 7

def weighted : Tree where
  roots := [.mk ⟨0⟩ (.block "p" 0 true) [
    .mk ⟨1⟩ (.text "a") [.mk ⟨2⟩ (.text "b") []],
    .mk ⟨3⟩ (.text "cd") [],
    .mk ⟨4⟩ (.text "ef") []]]
  made := 5

-- The embed gets the style once the stop does not lead to the empty text anymore. The text that has
-- another one beneath it takes no offsets, nor do the chars that it absorbs.
theorem innerMarkup_applyBetween_not_twice :
    (snagged.WellFormed ∧ Node.Flat (snagged.children ⟨0⟩) ∧
      Node.LeavesEmptyAll (snagged.children ⟨0⟩) ∧
      ((snagged.applyBetween ⟨0⟩ 1 4 "b").applyBetween ⟨0⟩ 1 4 "b").innerMarkup ⟨0⟩ ≠
        (snagged.applyBetween ⟨0⟩ 1 4 "b").innerMarkup ⟨0⟩) ∧
    weighted.WellFormed ∧ Node.Flat (weighted.children ⟨0⟩) ∧
      Node.Smooth (weighted.children ⟨0⟩) ∧
      ((weighted.applyBetween ⟨0⟩ 2 3 "s").applyBetween ⟨0⟩ 2 3 "s").innerMarkup ⟨0⟩ ≠
        (weighted.applyBetween ⟨0⟩ 2 3 "s").innerMarkup ⟨0⟩ :=
  ⟨⟨by decide, ⟨by decide, by decide⟩, by decide, by decide +kernel⟩,
    by decide, ⟨by decide, by decide⟩, by decide, by decide +kernel⟩

end Tree

end RichText
